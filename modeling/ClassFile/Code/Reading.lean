import ClassFile.Attribute.Table
import ClassFile.Code.Labels
/-!
# Method bodies in bytes, read

The body of a `Code` attribute has the sizes of stack and locals, the instructions, the handlers and a table of
attributes. The handlers and the attributes are read before the instructions are understood, so of several
faults those are reported first.
-/

namespace ClassFile.Code

/-- The class of exceptions that a handler takes; index zero stands for all. -/
def readCatchType (pool : Pool) : Read (Option String) := do
  let index ← Read.word16
  if index == 0 then return none
  else return some (← Malformed.inPlace .catchType (pool.className index))

/-- One handler. -/
def readHandler (pool : Pool) : Read OffsetHandler := do
  let start ← Read.word16
  let stop ← Read.word16
  let target ← Read.word16
  let catchType ← readCatchType pool
  return { start, stop, target, catchType }

/-- The parts of a body before its instructions are understood. -/
structure Parts where
  maxStack : UInt16
  maxLocals : UInt16
  bytecode : Bytes
  handlers : List OffsetHandler
  table : Attribute.Table Empty

/-- The parts of a body. -/
def readParts (pool : Pool) : Read Parts := do
  let maxStack ← Read.word16
  let maxLocals ← Read.word16
  let length ← Read.word32
  let bytecode ← Read.within .bytecode (Read.take length.toNat)
  let handlers ← Read.counted (readHandler pool)
  let table ← Read.within .codeAttributes (Attribute.readTable pool Attribute.Claim.none)
  return { maxStack, maxLocals, bytecode, handlers, table }

/-- A body from its parts. Annotations have no place in a method body and are dropped. -/
def ofParts (pool : Pool) (parts : Parts) : Except Malformed Code := do
  let located ← Bytecode.read pool parts.bytecode
  let labels := Labels.number (Labels.targetOffsets located parts.handlers)
  let items ← Labels.place parts.bytecode.length located labels
  let numbering : Labels.Numbering := Std.HashMap.ofList labels
  return {
    maxStack := parts.maxStack
    maxLocals := parts.maxLocals
    items
    handlers := parts.handlers.map (Labels.handler numbering)
    attributes := parts.table.verbatim
    order := parts.table.order }

/-- The method body that a byte string holds. -/
def ofBytes (pool : Pool) (body : Bytes) : Except Malformed Code := do
  let parts ← Read.run (readParts pool) body
  ofParts pool parts

end ClassFile.Code
