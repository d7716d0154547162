import ClassFile.Instruction
import Std.Data.HashMap
/-!
# The constant pool

All names, types and constants of a class file stand in one numbered table, and everything else
refers to them by number. A `long` or `double` takes two numbers, of which the second means nothing; the
number zero means nothing either. So the pool is a sequence of slots that hold an entry or
nothing.

The pool only ever grows at its end. Numbers already given out stay valid, which lets bytes that hold
such numbers be copied without being understood. `first` finds an entry's smallest number, so that
nothing is added twice.
-/

namespace ClassFile

/-- An entry of the constant pool. Entries refer to others by number. -/
inductive Entry where
  | utf8 (text : String)
  /-- Text with a lone surrogate, which no `String` can hold. -/
  | utf16 (units : List UInt16)
  | integer (value : Int32)
  | float (bits : UInt32)
  | long (value : Int64)
  | double (bits : UInt64)
  | classRef (name : UInt16)
  | string (text : UInt16)
  | fieldRef (owner nameAndType : UInt16)
  | methodRef (owner nameAndType : UInt16)
  | interfaceMethodRef (owner nameAndType : UInt16)
  | nameAndType (name descriptor : UInt16)
  | methodHandle (kind : UInt8) (reference : UInt16)
  | methodType (descriptor : UInt16)
  | dynamic (bootstrap nameAndType : UInt16)
  | dynamicCall (bootstrap nameAndType : UInt16)
  | moduleRef (name : UInt16)
  | packageRef (name : UInt16)
deriving DecidableEq, Hashable

namespace Entry

/-- `long` and `double` take two slots. -/
def isWide : Entry → Bool
  | .long _ | .double _ => true
  | _ => false

/-- The slots an entry takes: its own, and an empty one behind a wide one. -/
def slots (e : Entry) : List (Option Entry) :=
  if e.isWide then [some e, none] else [some e]

/-- The number of slots an entry takes. -/
def width (e : Entry) : Nat :=
  if e.isWide then 2 else 1

@[simp] theorem length_slots (e : Entry) : e.slots.length = e.width := by
  unfold slots width
  split <;> rfl

end Entry

/-- The slots by number, and for each entry its smallest number. -/
structure Pool where
  slots : Array (Option Entry)
  first : Std.HashMap Entry UInt16

namespace Pool

/-- The pool without entries: slot zero is there and is never used. -/
def empty : Pool := ⟨#[none], ∅⟩

instance : Inhabited Pool := ⟨empty⟩

/-- A file counts slots in 16 bits. -/
def maxSlots : Nat := 65535

/-- The number of slots, slot zero included. -/
def size (p : Pool) : Nat := p.slots.size

/-- The entry with the given number. -/
def entry? (p : Pool) (index : UInt16) : Option Entry :=
  p.slots[index.toNat]?.join

/-- Adds an entry at the end, whether it is there already or not. -/
def push : Pool → Entry → Pool
  | ⟨slots, first⟩, e =>
      let index := UInt16.ofNat slots.size
      ⟨if e.isWide then (slots.push (some e)).push none else slots.push (some e),
        first.insertIfNew e index⟩

/-- The same entries under the same numbers. -/
def agrees (p q : Pool) : Bool :=
  p.slots == q.slots

theorem slots_push (p : Pool) (e : Entry) :
    (p.push e).slots.toList = p.slots.toList ++ e.slots := by
  obtain ⟨slots, first⟩ := p
  simp only [push, Entry.slots]
  split <;> simp

end Pool

end ClassFile
