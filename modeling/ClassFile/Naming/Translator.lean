import ClassFile.Naming.Table
/-!
# Translating names

Callers speak of classes and members by canonical names, and loaded code by runtime names. A translator goes between the
two. Where nothing was renamed it has nothing to look up and only brings class names into their
spelling with slashes; otherwise it asks an oracle, which may fail for reasons of its own.

A member is translated name first, then its owner, then its descriptor.
-/

namespace ClassFile.Naming

/-- How the classes at hand are named. -/
inductive Scheme where
  /-- Runtime names are canonical names. -/
  | canonical
  /-- Names were replaced, and have to be looked up. -/
  | obfuscated
deriving DecidableEq

/-- Answers for names, one at a time. Class names have slashes; members are given and answered in the scheme that is
translated from and to. -/
structure Oracle where
  runtimeClass : String → Except HostFault String
  canonicalClass : String → Except HostFault String
  runtimeMethod : MemberRef → Except HostFault String
  canonicalMethod : MemberRef → Except HostFault String
  runtimeField : MemberRef → Except HostFault String
  canonicalField : MemberRef → Except HostFault String

/-- A table answers for every name. -/
def Table.oracle (t : Table) : Oracle where
  runtimeClass name := .ok (t.runtimeClass name)
  canonicalClass name := .ok (t.canonicalClass name)
  runtimeMethod m := .ok (t.runtimeMethod m)
  canonicalMethod m := .ok (t.canonicalMethod m)
  runtimeField m := .ok (t.runtimeField m)
  canonicalField m := .ok (t.canonicalField m)

/-- Goes between canonical and runtime names. -/
structure Translator where
  scheme : Scheme
  oracle : Oracle

namespace Translator

/-- The translator for classes that were not renamed. -/
def identity : Translator := ⟨.canonical, Table.empty.oracle⟩

/-- A method in messages. -/
def methodSymbol (m : MemberRef) : String :=
  m.owner ++ "." ++ m.name ++ m.descriptor

/-- A field in messages. -/
def fieldSymbol (m : MemberRef) : String :=
  m.owner ++ "." ++ m.name ++ ":" ++ m.descriptor

/-- A class name, looked up with `lookup`. -/
def className (t : Translator) (lookup : String → Except HostFault String) (name : String) :
    Except Error String :=
  let name := Names.internal name
  match t.scheme with
  | .canonical => .ok name
  | .obfuscated =>
      match lookup name with
      | .ok other => .ok (Names.internal other)
      | .error source => .error (.unknownMapping name source)

/-- A descriptor, its classes looked up with `lookup`. -/
def descriptor (t : Translator) (lookup : String → Except HostFault String) (text : String) :
    Except Error String :=
  match t.scheme with
  | .canonical => .ok text
  | .obfuscated => mapClassNames (t.className lookup) text

/-- A member, its own name looked up with `lookupMember`. -/
def member (t : Translator) (lookupClass : String → Except HostFault String)
    (lookupMember : MemberRef → Except HostFault String) (symbol : MemberRef → String)
    (m : MemberRef) : Except Error MemberRef :=
  let m : MemberRef := { m with owner := Names.internal m.owner }
  match t.scheme with
  | .canonical => .ok m
  | .obfuscated =>
      match lookupMember m with
      | .error source => .error (.unknownMapping (symbol m) source)
      | .ok name => do
          let owner ← t.className lookupClass m.owner
          let descriptor ← t.descriptor lookupClass m.descriptor
          return { owner, name, descriptor }

/-- The runtime name of a class. -/
def runtimeName (t : Translator) (canonical : String) : Except Error String :=
  t.className t.oracle.runtimeClass canonical

/-- The canonical name of a class. -/
def canonicalName (t : Translator) (runtime : String) : Except Error String :=
  t.className t.oracle.canonicalClass runtime

/-- A descriptor with its classes in runtime names. -/
def runtimeDescriptor (t : Translator) (text : String) : Except Error String :=
  t.descriptor t.oracle.runtimeClass text

/-- A descriptor with its classes in canonical names. -/
def canonicalDescriptor (t : Translator) (text : String) : Except Error String :=
  t.descriptor t.oracle.canonicalClass text

/-- A method in runtime names. -/
def runtimeMethod (t : Translator) (m : MemberRef) : Except Error MemberRef :=
  t.member t.oracle.runtimeClass t.oracle.runtimeMethod methodSymbol m

/-- A field in runtime names. -/
def runtimeField (t : Translator) (m : MemberRef) : Except Error MemberRef :=
  t.member t.oracle.runtimeClass t.oracle.runtimeField fieldSymbol m

/-- A method in canonical names. -/
def canonicalMethod (t : Translator) (m : MemberRef) : Except Error MemberRef :=
  t.member t.oracle.canonicalClass t.oracle.canonicalMethod methodSymbol m

/-- A field in canonical names. -/
def canonicalField (t : Translator) (m : MemberRef) : Except Error MemberRef :=
  t.member t.oracle.canonicalClass t.oracle.canonicalField fieldSymbol m

end Translator

end ClassFile.Naming
