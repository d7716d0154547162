/-!
# Arguments of the command line

The program takes a command with its own arguments. General options may stand before the command or behind its
name; an option given behind it replaces the same option given before. On each side an option stands
at most once, but for the class path, which is the list of all its values.

A word that begins with a dash is an option, unless the dash is all of it; two dashes end the options.
§1 names the options, §2 takes words apart, §3 makes a command of them.
-/

namespace ClassFile.CommandLine

/-! ## §1  Options and commands -/

/-- The options of the program. -/
inductive Switch where
  | classPath
  | mapping
  | obfuscated
  | output
  | verbose
  | owner
  | target
  | opcode
  | fallbackOwner
deriving DecidableEq

namespace Switch

/-- The option of a long name. -/
def ofName? : String → Option Switch
  | "classpath" => some .classPath
  | "mapping" => some .mapping
  | "obfuscated" => some .obfuscated
  | "output" => some .output
  | "verbose" => some .verbose
  | "owner" => some .owner
  | "target" => some .target
  | "opcode" => some .opcode
  | "fallback-owner" => some .fallbackOwner
  | _ => none

/-- The option of one letter. -/
def ofLetter? : Char → Option Switch
  | 'v' => some .verbose
  | _ => none

/-- A value belongs to the option. -/
def takesValue : Switch → Bool
  | .obfuscated | .verbose | .fallbackOwner => false
  | _ => true

/-- The value is the path of a file, which is not empty. -/
def takesPath : Switch → Bool
  | .classPath | .mapping | .output => true
  | _ => false

/-- The option may be given with every command. -/
def isGeneral : Switch → Bool
  | .classPath | .mapping | .obfuscated | .output | .verbose => true
  | _ => false

/-- The option may be given several times on one side. -/
def isList : Switch → Bool
  | .classPath => true
  | _ => false

end Switch

/-- What the program is to do. -/
inductive Command where
  | inspect (className : String)
  | assignable (parent child : String)
  | findReturn (className method descriptor : String)
  | findCall (className method descriptor owner target opcode : String) (fallbackOwner : Bool)
  | addGetter (className method field : String)
  | addSetter (className method field : String)

/-- The classes that a command names. -/
def Command.classNames : Command → List String
  | .inspect className => [className]
  | .assignable parent child => [parent, child]
  | .findReturn className _ _ => [className]
  | .findCall className _ _ _ _ _ _ => [className]
  | .addGetter className _ _ => [className]
  | .addSetter className _ _ => [className]

/-- A command and the general options. -/
structure Invocation where
  classPath : List String
  mapping : Option String
  obfuscated : Bool
  output : Option String
  command : Command

/-! ## §2  Words -/

/-- The options and the plain words on one side of the command. -/
structure Side where
  options : List (Switch × String)
  words : List String

namespace Side

/-- Nothing was given. -/
def empty : Side := ⟨[], []⟩

/-- One more option; none if it may not stand here, or not with this value. -/
def withOption? (s : Side) (allowed : Switch → Bool) (o : Switch) (value : String) : Option Side :=
  if !allowed o then none
  else if o.takesPath && value.isEmpty then none
  else if !o.isList && s.options.any fun given => given.1 == o then none
  else some { s with options := s.options ++ [(o, value)] }

/-- Options of one letter each. -/
def withLetters? (s : Side) (allowed : Switch → Bool) : List Char → Option Side
  | [] => some s
  | c :: more => do
      let o ← Switch.ofLetter? c
      let s ← s.withOption? allowed o ""
      s.withLetters? allowed more

/-- The values of an option, in order. -/
def values (s : Side) (o : Switch) : List String :=
  (s.options.filter fun given => given.1 == o).map (·.2)

/-- The option was given. -/
def has (s : Side) (o : Switch) : Bool :=
  !(s.values o).isEmpty

end Side

/-- A word of the command line. -/
inductive Word where
  | plain (text : String)
  | endOfOptions
  /-- A long option, with the value that is joined to it. -/
  | long (name : String) (joined : Option String)
  | letters (letters : List Char)

/-- What a word is. -/
def Word.of (text : String) : Word :=
  match text.toList with
  | '-' :: '-' :: [] => .endOfOptions
  | '-' :: '-' :: name =>
      let value := name.dropWhile (· != '=')
      .long (String.ofList (name.takeWhile (· != '=')))
        (if value.isEmpty then none else some (String.ofList (value.drop 1)))
  | '-' :: c :: more => .letters (c :: more)
  | _ => .plain text

/-- The word can be the value of the option in front of it. -/
def isValue (text : String) : Bool :=
  match Word.of text with
  | .plain _ => true
  | _ => false

/-- Takes options and plain words apart, in addition to those already found. With `untilPlain` the first plain word
ends this side, and the words from there on are given back. -/
def takeSide (allowed : Switch → Bool) (untilPlain : Bool) : Side → List String →
    Option (Side × List String)
  | s, [] => some (s, [])
  | s, text :: rest =>
      match Word.of text with
      | .plain word =>
          if untilPlain then some (s, text :: rest)
          else takeSide allowed untilPlain { s with words := s.words ++ [word] } rest
      | .endOfOptions =>
          if untilPlain then none else some ({ s with words := s.words ++ rest }, [])
      | .letters letters => do
          let s ← s.withLetters? allowed letters
          takeSide allowed untilPlain s rest
      | .long name joined => do
          let o ← Switch.ofName? name
          match o.takesValue, joined with
          | false, none => do
              let s ← s.withOption? allowed o ""
              takeSide allowed untilPlain s rest
          | false, some _ => none
          | true, some value => do
              let s ← s.withOption? allowed o value
              takeSide allowed untilPlain s rest
          | true, none =>
              match rest with
              | [] => none
              | value :: rest =>
                  if isValue value then do
                    let s ← s.withOption? allowed o value
                    takeSide allowed untilPlain s rest
                  else none

/-! ## §3  Commands -/

/-- The opcode that a search for calls asks for when nothing else is said. -/
def defaultOpcode : String := "invokevirtual"

/-- The search for a call also has options of its own. -/
def allowedBehind (command : String) (o : Switch) : Bool :=
  o.isGeneral || command == "find-call"

/-- The command with the given name, options and words. -/
def command? (name : String) (s : Side) : Option Command :=
  match name, s.words with
  | "inspect", [c] => some (.inspect c)
  | "assignable", [parent, child] => some (.assignable parent child)
  | "find-return", [c, m, d] => some (.findReturn c m d)
  | "find-call", [c, m, d] =>
      match s.values .owner, s.values .target with
      | [owner], [target] =>
          some (.findCall c m d owner target ((s.values .opcode).headD defaultOpcode)
            (s.has .fallbackOwner))
      | _, _ => none
  | "add-getter", [c, m, f] => some (.addGetter c m f)
  | "add-setter", [c, m, f] => some (.addSetter c m f)
  | _, _ => none

/-- The values of a general option: those behind the command, or else those before it. -/
def generalValues (before behind : Side) (o : Switch) : List String :=
  if behind.has o then behind.values o else before.values o

/-- What a command line asks for; none if it is not well formed. -/
def parse? (arguments : List String) : Option Invocation := do
  let (before, rest) ← takeSide Switch.isGeneral true Side.empty arguments
  match rest with
  | [] => none
  | name :: rest =>
      let (behind, _) ← takeSide (allowedBehind name) false Side.empty rest
      let command ← command? name behind
      let general := generalValues before behind
      return {
        classPath := general .classPath
        mapping := (general .mapping).head?
        obfuscated := !(general .obfuscated).isEmpty
        output := (general .output).head?
        command }

end ClassFile.CommandLine
