import ClassFile.Accessor
import ClassFile.Assignable
import ClassFile.CommandLine.Arguments
import ClassFile.Files.ClassPath
import ClassFile.Naming.Document
import ClassFile.Record.Serialize
import ClassFile.Report
/-!
# The program

A run of the program is a function of the files it finds and its arguments: it says what is to be written and to
where, or why not. The first fault ends it. The class path is looked at first, then the table of names,
then the command is carried out, and last comes the place for the output.
-/

namespace ClassFile.CommandLine

open Files (Tree ClassPath)
open Naming (Translator Table)

/-- Why a run comes to nothing. -/
inductive Failure where
  /-- The arguments are no command line. -/
  | usage
  | classPath (fault : Files.EntryFault)
  | unreadable (path : String)
  | unparsable (path : String)
  | noTable
  | library (error : Error)
  | methodNotFound (method : MemberRef)
  | unknownOpcode (name : String)
  | noOutput
  | fieldNotFound (name className : String)
  | alreadyDeclared (className signature : String)
  | unopenable (path : String)

/-- The wording of a failure and of what is behind it, outermost first. -/
def Failure.messages : Failure → List String
  | .usage => ["invalid command line"]
  | .classPath fault => [fault.message]
  | .unreadable path => [s!"failed to read {path}"]
  | .unparsable path => [s!"failed to parse {path}"]
  | .noTable => ["--obfuscated needs a non-empty --mapping table"]
  | .library error => error.chain
  | .methodNotFound m => ["method " ++ m.name ++ m.descriptor ++ " not found"]
  | .unknownOpcode name => [s!"unknown opcode {name}"]
  | .noOutput => ["--output is required when writing a class"]
  | .fieldNotFound name c => [s!"field {name} not found in {c}"]
  | .alreadyDeclared c signature => [s!"{c} already declares {signature}"]
  | .unopenable path => [s!"failed to open {path}"]

/-- Where the output goes. -/
inductive Destination where
  | standardOutput
  | file (path : String)

/-- What a run writes. -/
inductive Output where
  | text (report : String)
  | classFile (written : Record.Written)

/-- The outcome of a run that succeeds. -/
structure Outcome where
  destination : Destination
  output : Output

/-! ## §1  Names and classes -/

/-- An error of the library as a failure. -/
def orFail {α : Type} (r : Except Error α) : Except Failure α :=
  r.mapError .library

/-- The table of names in a file. -/
def readTable (files : Tree) : Option String → Except Failure Table
  | none => .ok Table.empty
  | some path =>
      match (files.file? path).bind fun bytes => String.fromUTF8? ⟨bytes.toArray⟩ with
      | none => .error (.unreadable path)
      | some document =>
          match Table.ofJson? document with
          | none => .error (.unparsable path)
          | some table => .ok table

/-- The translator that the options ask for. -/
def translator (files : Tree) (mapping : Option String) (obfuscated : Bool) :
    Except Failure Translator := do
  let table ← readTable files mapping
  if obfuscated && table.isEmpty then throw .noTable
  else return ⟨if obfuscated then .obfuscated else .canonical, table.oracle⟩

/-- Classes come from the class path; none is loaded yet. -/
def resolver (classPath : ClassPath) (names : Translator) : Resolver where
  loaded _ := none
  bytes := classPath.load
  names := names

/-- The method of a record with the given canonical name. -/
def declaredMethod (names : Translator) (r : Record) (m : MemberRef) : Except Failure Method := do
  let target ← orFail (names.runtimeMethod m)
  match r.method? target.name target.descriptor with
  | some found => return found
  | none => throw (.methodNotFound target)

/-- The first of some fields whose canonical name is `canonical`. -/
def fieldAmong (names : Translator) (r : Record) (canonical : String) :
    List Field → Except Failure Field
  | [] => .error (.fieldNotFound canonical r.name)
  | f :: more => do
      let mapped ← orFail (names.canonicalField ⟨r.name, f.name, f.descriptor⟩)
      if mapped.name == canonical then return f else fieldAmong names r canonical more

/-- The field of a record with the given canonical name. -/
def findField (names : Translator) (r : Record) (canonical : String) : Except Failure Field :=
  fieldAmong names r canonical r.fields

/-! ## §2  Commands -/

/-- Makes a method that reads or writes a field. -/
abbrev MakeAccessor : Type := String → MemberRef → Access → Except Error Method

/-- The class file of a class with one more accessor. -/
def withAccessor (classes : Resolver) (make : MakeAccessor) (className method field : String) :
    Except Failure Record.Written := do
  let record ← orFail (classes.recordCanonical className)
  let f ← findField classes.names record field
  let accessor ← orFail (make method ⟨record.name, f.name, f.descriptor⟩ Access.toEveryone)
  match record.addMethod? accessor with
  | none => throw (.alreadyDeclared record.name accessor.signature)
  | some extended => orFail extended.written

/-- Carries out a command that writes a class. -/
def writeClass (output : Option String) (written : Except Failure Record.Written) :
    Except Failure Output :=
  match output with
  | none => .error .noOutput
  | some _ => written.map .classFile

/-- Carries out a command. -/
def perform (classes : Resolver) (i : Invocation) : Except Failure Output :=
  let report (r : Except Failure Json.Value) := r.map fun v => Output.text (Report.text v)
  match i.command with
  | .inspect className =>
      report do return Report.inspect (← orFail (classes.resolveCanonical className))
  | .assignable parent child =>
      report do
        let p ← orFail (classes.resolveCanonical parent)
        let c ← orFail (classes.resolveCanonical child)
        let answer ← orFail (classes.isAssignableFrom Resolver.defaultMaxDepth p c)
        return Report.assignable answer
  | .findReturn className method descriptor =>
      report do
        let record ← orFail (classes.recordCanonical className)
        let m ← declaredMethod classes.names record ⟨className, method, descriptor⟩
        return Report.found (← orFail m.findLastReturn)
  | .findCall className method descriptor owner target opcodeName fallbackOwner =>
      report do
        match Opcode.ofMnemonic? opcodeName with
        | none => throw (.unknownOpcode opcodeName)
        | some opcode =>
            let record ← orFail (classes.recordCanonical className)
            let m ← declaredMethod classes.names record ⟨className, method, descriptor⟩
            let q : Method.CallQuery := ⟨owner, target, opcode, fallbackOwner⟩
            return Report.found (← orFail (m.findLastCall classes.names q))
  | .addGetter className method field =>
      writeClass i.output (withAccessor classes Accessor.getter className method field)
  | .addSetter className method field =>
      writeClass i.output (withAccessor classes Accessor.setter className method field)

/-- The place for the output. -/
def destination (files : Tree) : Option String → Except Failure Destination
  | none => .ok .standardOutput
  | some path =>
      if path == "-" then .ok .standardOutput
      else if files.canWrite path then .ok (.file path)
      else .error (.unopenable path)

/-- Carries out an invocation. -/
def runInvocation (files : Tree) (i : Invocation) : Except Failure Outcome := do
  let classPath ← (ClassPath.ofTexts files i.classPath).mapError .classPath
  let names ← translator files i.mapping i.obfuscated
  let output ← perform (resolver classPath names) i
  return ⟨← destination files i.output, output⟩

/-- A run of the program. -/
def run (files : Tree) (arguments : List String) : Except Failure Outcome :=
  match parse? arguments with
  | none => .error .usage
  | some i => runInvocation files i

end ClassFile.CommandLine
