import ClassFile.Error
import ClassFile.Pool
/-!
# Numbers for names and constants

Writing asks for the number of an entry, and the pool gives the smallest number of an entry that is there or adds it at
the end. References are built from the inside out, so a text gets its number before
the class that it names.

`Interning` keeps the pool also when a step fails: entries added before the failure stay, and no
number given out earlier changes its meaning.
-/

namespace ClassFile

/-- A computation that may add to the pool and may fail. -/
abbrev Interning (α : Type) : Type := ExceptT Error (StateM Pool) α

namespace Interning

/-- A failure to write. -/
def fail {α : Type} (reason : Unencodable) : Interning α :=
  throw (.unencodable reason)

/-- The number of an entry. -/
def entry (e : Entry) : Interning UInt16 :=
  ExceptT.mk fun p =>
    match p.first[e]? with
    | some index => (.ok index, p)
    | none =>
        if p.size + e.width ≤ Pool.maxSlots then (.ok (UInt16.ofNat p.size), p.push e)
        else (.error (.unencodable .poolFull), p)

/-- An encoded text takes at most this many bytes. -/
def maxTextBytes : Nat := 65535

/-- The number of a text. -/
def text (s : String) : Interning UInt16 :=
  if (Text.ModifiedUtf8.encodeString s).length ≤ maxTextBytes then entry (.utf8 s)
  else fail (.longText s.utf8ByteSize)

/-- The number of a unit sequence, which is stored as text if it is one. -/
def units (us : List UInt16) : Interning UInt16 :=
  match Text.ofUnits? us with
  | some s => text s
  | none =>
      if (Text.ModifiedUtf8.encode us).length ≤ maxTextBytes then entry (.utf16 us)
      else fail (.longUnits us.length)

/-- The number of a class. -/
def className (name : String) : Interning UInt16 := do
  entry (.classRef (← text name))

/-- The number of a string constant. -/
def string (s : String) : Interning UInt16 := do
  entry (.string (← text s))

/-- The number of a string constant given by its units. -/
def stringUnits (us : List UInt16) : Interning UInt16 := do
  entry (.string (← units us))

/-- The number of a method type. -/
def methodType (descriptor : String) : Interning UInt16 := do
  entry (.methodType (← text descriptor))

/-- The number of a name with a descriptor. -/
def nameAndType (name descriptor : String) : Interning UInt16 := do
  let n ← text name
  let d ← text descriptor
  entry (.nameAndType n d)

/-- The number of a field. -/
def fieldRef (m : MemberRef) : Interning UInt16 := do
  let owner ← className m.owner
  let nt ← nameAndType m.name m.descriptor
  entry (.fieldRef owner nt)

/-- The number of a method. -/
def methodRef (m : MemberRef) (ofInterface : Bool) : Interning UInt16 := do
  let owner ← className m.owner
  let nt ← nameAndType m.name m.descriptor
  entry (if ofInterface then .interfaceMethodRef owner nt else .methodRef owner nt)

/-- The number of a call linked on first use. -/
def dynamicCall (bootstrap : UInt16) (name descriptor : String) : Interning UInt16 := do
  let nt ← nameAndType name descriptor
  entry (.dynamicCall bootstrap nt)

/-- The number of a constant that an instruction loads. -/
def constant : Constant → Interning UInt16
  | .int v => entry (.integer v)
  | .float bits => entry (.float bits)
  | .long v => entry (.long v)
  | .double bits => entry (.double bits)
  | .string s => string s
  | .utf16 us => stringUnits us
  | .classRef name => className name
  | .methodType descriptor => methodType descriptor
  | .pooled index => pure index

/-- The size of a list, which is written in 16 bits. -/
def count (what : Counted) (n : Nat) : Interning UInt16 :=
  if n ≤ 65535 then pure (UInt16.ofNat n) else fail (.tooMany what n)

end Interning

end ClassFile
