/-!
# Access flags

Classes, fields and methods carry one 16-bit word of flags. Every word is legal, also one with
bits that have no meaning, so the word itself is kept and the flags the library asks for are
named masks on it.
-/

namespace ClassFile

/-- The access flags of a class, field or method. -/
structure Access where
  bits : UInt16
deriving DecidableEq, Inhabited

namespace Access

/-- Every bit of `mask` is set. -/
def has (a : Access) (mask : UInt16) : Bool :=
  a.bits &&& mask == mask

/-- Accessible from everywhere. -/
def publicFlag : UInt16 := 0x0001

/-- Belongs to the class and not to an instance. -/
def staticFlag : UInt16 := 0x0008

/-- Declares an interface. -/
def interfaceFlag : UInt16 := 0x0200

/-- The access of a member that everything may use. -/
def toEveryone : Access := ⟨publicFlag⟩

/-- The member needs no instance. -/
def isStatic (a : Access) : Bool := a.has staticFlag

/-- The class is an interface. -/
def isInterface (a : Access) : Bool := a.has interfaceFlag

end Access

end ClassFile
