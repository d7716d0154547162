import ClassFile.Cursor
import ClassFile.Pool
/-!
# What the numbers in a class file mean

An index into the pool has to lead to an entry of the right kind, and that entry's own indices again. Each
function here follows one kind of reference to the end, and says which index went wrong.
-/

namespace ClassFile.Pool

open Malformed (fail inPlace)

/-- The entry with a number. -/
def entry (p : Pool) (index : UInt16) : Except Malformed Entry :=
  match p.entry? index with
  | some e => .ok e
  | none => fail (.badPoolIndex index)

/-- A text that is a Unicode string. -/
def text (p : Pool) (index : UInt16) : Except Malformed String := do
  match ← p.entry index with
  | .utf8 s => return s
  | .utf16 _ => fail (.notUnicode index)
  | _ => fail (.notText index)

/-- The name of a class. -/
def className (p : Pool) (index : UInt16) : Except Malformed String := do
  match ← p.entry index with
  | .classRef name => p.text name
  | _ => fail (.notClass index)

/-- A name with a descriptor. -/
def nameAndType (p : Pool) (index : UInt16) : Except Malformed (String × String) := do
  match ← p.entry index with
  | .nameAndType name descriptor => return (← p.text name, ← p.text descriptor)
  | _ => fail (.notNameAndType index)

/-- Owner and name-and-type of a member, and whether its owner is an interface. -/
def memberParts (p : Pool) (index : UInt16) : Except Malformed (UInt16 × UInt16 × Bool) := do
  match ← p.entry index with
  | .fieldRef owner nt | .methodRef owner nt => return (owner, nt, false)
  | .interfaceMethodRef owner nt => return (owner, nt, true)
  | _ => fail (.notMember index)

/-- A field or method, and whether its owner is an interface. -/
def member (p : Pool) (index : UInt16) : Except Malformed (MemberRef × Bool) := do
  let (owner, nt, ofInterface) ← p.memberParts index
  let ownerName ← inPlace .memberOwner (p.className owner)
  let (name, descriptor) ← inPlace .memberNameAndType (p.nameAndType nt)
  return (⟨ownerName, name, descriptor⟩, ofInterface)

/-- Bootstrap number, name and descriptor of a call linked on first use. -/
def dynamicCall (p : Pool) (index : UInt16) : Except Malformed (UInt16 × String × String) := do
  match ← p.entry index with
  | .dynamicCall bootstrap nt =>
      let (name, descriptor) ← p.nameAndType nt
      return (bootstrap, name, descriptor)
  | _ => fail (.notDynamicCall index)

/-- The constant that an instruction loads. -/
def loadable (p : Pool) (index : UInt16) : Except Malformed Constant := do
  match ← p.entry index with
  | .integer v => return .int v
  | .float bits => return .float bits
  | .long v => return .long v
  | .double bits => return .double bits
  | .string t =>
      match ← p.entry t with
      | .utf16 units => return .utf16 units
      | _ => return .string (← p.text t)
  | .classRef name => return .classRef (← p.text name)
  | .methodType descriptor => return .methodType (← p.text descriptor)
  | .methodHandle _ _ | .dynamic _ _ => return .pooled index
  | _ => fail (.notLoadable index)

end ClassFile.Pool
