/-!
# Class names inside descriptors

A descriptor names a class between the letter `L` and a semicolon. Everything else is copied when names
are replaced, so a descriptor is cut into class names and single other characters. A letter `L` without a
semicolon after it opens no name.
-/

namespace ClassFile.Naming

/-- A piece of a descriptor. -/
inductive Segment where
  | literal (c : Char)
  | className (name : List Char)
deriving DecidableEq

mutual

/-- The pieces of a text outside a class name. -/
def segments : List Char → List Segment
  | [] => []
  | c :: rest => .literal c :: if c == 'L' then nameSegments [] rest else segments rest

/-- The pieces of a text inside a class name, of which `seen` are the characters so far (last one first). -/
def nameSegments (seen : List Char) : List Char → List Segment
  | [] => seen.reverse.map .literal
  | c :: rest =>
      if c == ';' then .className seen.reverse :: .literal ';' :: segments rest
      else nameSegments (c :: seen) rest

end

/-- The characters of a piece, its name replaced. -/
def Segment.mapName {m : Type → Type} [Monad m] (f : String → m String) :
    Segment → m (List Char)
  | .literal c => pure [c]
  | .className name => do return (← f (String.ofList name)).toList

/-- The descriptor with its class names replaced, from left to right. -/
def mapClassNames {m : Type → Type} [Monad m] (f : String → m String) (descriptor : String) :
    m String := do
  let pieces ← (segments descriptor.toList).mapM (Segment.mapName f)
  return String.ofList pieces.flatten

end ClassFile.Naming
