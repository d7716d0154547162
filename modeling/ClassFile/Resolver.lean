import ClassFile.ClassView
import ClassFile.Naming.Translator
import ClassFile.Record.Parse
/-!
# From names to classes

A resolver asks the host: first for a handle, if there is a table of loaded classes, then for the bytes of a class
file. A class file has to be that of the class it was asked for.
-/

namespace ClassFile

/-- The services that classes come from. -/
structure Resolver where
  /-- The handle of a class that is loaded. -/
  loaded : String → Option LoadedClass
  /-- The bytes of a class file. -/
  bytes : String → Except HostFault Bytes
  names : Naming.Translator

namespace Resolver

/-- The record of a class, from its class file. -/
def record (r : Resolver) (name : String) : Except Error Record :=
  let name := Names.internal name
  match r.bytes name with
  | .error source => .error (.classNotFound name source)
  | .ok bytes =>
      match Record.parse bytes with
      | .error e => .error (e.inClass name)
      | .ok record =>
          if record.name == name then .ok record
          else .error (.malformedInput (some name) ⟨[], .declaresOther record.name⟩)

/-- The class with a runtime name. -/
def resolve (r : Resolver) (name : String) : Except Error ClassView :=
  match r.loaded (Names.internal name) with
  | some handle => .ok (.live handle)
  | none => (r.record (Names.internal name)).map .parsed

/-- The class with a canonical name. -/
def resolveCanonical (r : Resolver) (name : String) : Except Error ClassView := do
  let runtime ← r.names.runtimeName name
  r.resolve runtime

/-- The record of the class with a canonical name. -/
def recordCanonical (r : Resolver) (name : String) : Except Error Record := do
  let runtime ← r.names.runtimeName name
  r.record runtime

end Resolver

end ClassFile
