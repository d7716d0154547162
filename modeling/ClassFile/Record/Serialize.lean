import ClassFile.Code.Writing
import ClassFile.Pool.Format
import ClassFile.Record.Parse
/-!
# Class files, written

The body of the file is written first, because it decides what the pool has to hold, and the pool is put in front of
it. The pool starts as the one that the record was read with, so a record that was read and
not changed asks for nothing new, and bytes that hold numbers into the pool still mean what they meant.
-/

namespace ClassFile

open Bytes (ofUInt16 ofUInt32)

/-- The bytes of a field. -/
def Field.bytes (f : Field) : Interning Bytes := do
  let name ← Interning.text f.name
  let descriptor ← Interning.text f.descriptor
  let table ← Attribute.tableBytes [] f.attributes f.annotations f.order
  return ofUInt16 f.access.bits ++ ofUInt16 name ++ ofUInt16 descriptor ++ table

namespace Method

/-- A method in bytes. -/
structure Written where
  bytes : Bytes
  /-- Name and descriptor, if an attribute of the body refers to an offset at which no instruction
  starts. -/
  stale : Option String

/-- The attribute of a method's body. -/
def codeAttribute (m : Method) : Interning (List Attribute × Option String) := do
  match m.code with
  | none => return ([], none)
  | some body =>
      let w ← body.written
      return ([⟨Attribute.code, w.bytes⟩], if w.stale then some m.signature else none)

/-- The attribute of a method's exceptions; none without exceptions. -/
def exceptionsAttribute (m : Method) : Interning (List Attribute) := do
  if m.exceptions.isEmpty then return []
  else
    let n ← Interning.count .exceptions m.exceptions.length
    let indices ← m.exceptions.mapM Interning.className
    return [⟨Attribute.exceptions, ofUInt16 n ++ indices.flatMap ofUInt16⟩]

/-- The bytes of a method. -/
def written (m : Method) : Interning Written := do
  let name ← Interning.text m.name
  let descriptor ← Interning.text m.descriptor
  let (code, stale) ← m.codeAttribute
  let exceptions ← m.exceptionsAttribute
  let table ← Attribute.tableBytes (code ++ exceptions) m.attributes m.annotations m.order
  return {
    bytes := ofUInt16 m.access.bits ++ ofUInt16 name ++ ofUInt16 descriptor ++ table
    stale }

end Method

namespace Record

/-- A class file, and what there is to say about it. -/
structure Written where
  bytes : Bytes
  /-- The methods, by name and descriptor, with attributes that refer to offsets at which no instruction
  starts. -/
  stale : List String

/-- The number of the superclass; zero stands for none. -/
def superclassIndex : Option String → Interning UInt16
  | some name => Interning.className name
  | none => pure 0

/-- The file from the access flags on, which is all that stands behind the pool. -/
def bodyWritten (r : Record) : Interning Written := do
  let name ← Interning.className r.name
  let superclass ← superclassIndex r.superclass
  let interfaceCount ← Interning.count .interfaces r.interfaces.length
  let interfaces ← r.interfaces.mapM Interning.className
  let fieldCount ← Interning.count .fields r.fields.length
  let fields ← r.fields.mapM Field.bytes
  let methodCount ← Interning.count .methods r.methods.length
  let methods ← r.methods.mapM Method.written
  let table ← Attribute.tableBytes [] r.attributes r.annotations r.order
  return {
    bytes := ofUInt16 r.access.bits ++ ofUInt16 name ++ ofUInt16 superclass ++
      ofUInt16 interfaceCount ++ interfaces.flatMap ofUInt16 ++
      ofUInt16 fieldCount ++ fields.flatten ++
      ofUInt16 methodCount ++ methods.flatMap (·.bytes) ++ table
    stale := methods.filterMap (·.stale) }

/-- What stands in front of the pool. -/
def headerBytes (r : Record) : Bytes :=
  ofUInt32 fileMagic ++ ofUInt16 r.minor ++ ofUInt16 r.major

/-- The class file of a record. -/
def written (r : Record) : Except Error Written :=
  match r.bodyWritten.run.run r.pool with
  | (.error e, _) => .error (e.inClass r.name)
  | (.ok body, pool) => .ok { body with bytes := r.headerBytes ++ pool.bytes ++ body.bytes }

/-- Writes a class file. -/
def serialize (r : Record) : Except Error Bytes :=
  r.written.map (·.bytes)

/-- The warning about a method whose attributes refer to offsets at which no instruction starts. -/
def staleWarning (signature : String) : String :=
  signature ++ ": code attributes refer to offsets that are no longer instruction boundaries"

end Record

end ClassFile
