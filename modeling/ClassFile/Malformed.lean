import ClassFile.Opcode
import ClassFile.Text.Hex
import ClassFile.Text.ModifiedUtf8
/-!
# What is wrong with a class file

A reading that fails has one cause and a path of places that lead to it, the widest first: the
method, the attribute, the instruction. Both are data; the wording is in `Cause.message` and
`Place.message` alone.
-/

namespace ClassFile.Malformed

/-- What was found to be wrong. -/
inductive Cause where
  | outOfBounds
  | badMagic (word : UInt32)
  | unsupportedVersion (major minor : UInt16)
  | trailingBytes (count : Nat)
  | badText (fault : Text.ModifiedUtf8.Fault)
  | unknownPoolTag (tag : UInt8) (index : Nat)
  | poolOverrun (declared : UInt16)
  | badPoolIndex (index : UInt16)
  | notUnicode (index : UInt16)
  | notText (index : UInt16)
  | notClass (index : UInt16)
  | notNameAndType (index : UInt16)
  | notMember (index : UInt16)
  | notDynamicCall (index : UInt16)
  | notLoadable (index : UInt16)
  | elementMismatch (tag : UInt8) (index : UInt16)
  | unknownElementTag (tag : UInt8)
  | negativeTarget
  | targetInsideInstruction (offset : Nat)
  | targetOutsideCode (offset : Nat)
  | badTableRange (low high : Int32)
  | badArmCount (count : Int32)
  | badWideOpcode (opcode : Opcode)
  | unsupportedOpcode (opcode : Opcode)
  | declaresOther (name : String)
deriving DecidableEq

/-- Where it was found. -/
inductive Place where
  | magic
  | pool
  | poolEntry (index : Nat)
  | className
  | superclassName
  | interfaceName
  | field
  | fieldName
  | fieldDescriptor
  | fieldAttributes (name : String)
  | methodName
  | methodDescriptor
  | method (name descriptor : String)
  | classAttributes
  | attributeName
  | attribute (name : String)
  | annotationType
  | elementName
  | bytecode
  | catchType
  | codeAttributes
  | instruction (offset : Nat)
  | memberOwner
  | memberNameAndType
deriving DecidableEq

/-- The wording of a fault in encoded text. -/
def textMessage : Text.ModifiedUtf8.Fault → String
  | .truncatedPair => "truncated two-byte sequence"
  | .invalidPair => "invalid two-byte sequence"
  | .truncatedTriple => "truncated three-byte sequence"
  | .invalidTriple => "invalid three-byte sequence"
  | .invalidLead b => "invalid modified utf8 lead byte 0x" ++ Text.hex8 b

/-- A byte as the character of that number. -/
def letter (tag : UInt8) : String :=
  String.ofList [Char.ofNat tag.toNat]

/-- The wording of a cause. -/
def Cause.message : Cause → String
  | .outOfBounds => "class file out of bounds"
  | .badMagic w => "invalid class file magic 0x" ++ Text.hex32 w
  | .unsupportedVersion major minor => s!"unsupported class file version {major}.{minor}"
  | .trailingBytes count => s!"{count} trailing bytes after class file"
  | .badText fault => textMessage fault
  | .unknownPoolTag tag index => s!"unsupported constant pool tag {tag} at entry {index}"
  | .poolOverrun declared => s!"constant pool overruns its declared count {declared}"
  | .badPoolIndex index => s!"invalid constant pool index {index}"
  | .notUnicode index => s!"constant pool entry {index} is not valid unicode"
  | .notText index => s!"constant pool entry {index} is not utf8"
  | .notClass index => s!"constant pool entry {index} is not a class"
  | .notNameAndType index => s!"constant pool entry {index} is not a name and type"
  | .notMember index => s!"constant pool entry {index} is not a member reference"
  | .notDynamicCall index => s!"invokedynamic operand {index} is not an invokedynamic entry"
  | .notLoadable index => s!"constant pool entry {index} cannot be loaded by ldc"
  | .elementMismatch tag index =>
      "element value tag " ++ letter tag ++ s!" does not match entry {index}"
  | .unknownElementTag tag => "unknown element value tag 0x" ++ Text.hex8 tag
  | .negativeTarget => "negative branch target"
  | .targetInsideInstruction offset => s!"branch target {offset} is inside an instruction"
  | .targetOutsideCode offset => s!"branch target {offset} is outside the code"
  | .badTableRange low high => "invalid tableswitch range " ++ toString low.toInt ++ ".." ++ toString high.toInt
  | .badArmCount count => "invalid lookupswitch pair count " ++ toString count.toInt
  | .badWideOpcode opcode => "invalid wide opcode 0x" ++ Text.hex8 opcode
  | .unsupportedOpcode opcode => "unsupported opcode 0x" ++ Text.hex8 opcode
  | .declaresOther name => "class data declares " ++ name

/-- The wording of a place. -/
def Place.message : Place → String
  | .magic => "read magic"
  | .pool => "read constant pool"
  | .poolEntry index => s!"constant pool entry {index}"
  | .className => "resolve class name"
  | .superclassName => "resolve super class name"
  | .interfaceName => "resolve interface name"
  | .field => "parse field"
  | .fieldName => "field name"
  | .fieldDescriptor => "field descriptor"
  | .fieldAttributes name => "attributes of field " ++ name
  | .methodName => "method name"
  | .methodDescriptor => "method descriptor"
  | .method name descriptor => "parse method " ++ name ++ descriptor
  | .classAttributes => "parse class attributes"
  | .attributeName => "attribute name"
  | .attribute name => "attribute " ++ name
  | .annotationType => "annotation type"
  | .elementName => "element name"
  | .bytecode => "bytecode"
  | .catchType => "catch type"
  | .codeAttributes => "code attributes"
  | .instruction offset => s!"instruction at offset {offset}"
  | .memberOwner => "member owner"
  | .memberNameAndType => "member name and type"

end ClassFile.Malformed

namespace ClassFile

/-- A cause and the places that lead to it. -/
structure Malformed where
  places : List Malformed.Place
  cause : Malformed.Cause
deriving DecidableEq

namespace Malformed

/-- The same fault, seen from further out. -/
def within (place : Place) (m : Malformed) : Malformed :=
  { m with places := place :: m.places }

/-- The places and the cause, outermost first. -/
def message (m : Malformed) : String :=
  ": ".intercalate (m.places.map Place.message ++ [m.cause.message])

end Malformed

end ClassFile
