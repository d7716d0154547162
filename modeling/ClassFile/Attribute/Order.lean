import ClassFile.Record
/-!
# The order of attributes

The attributes of a table are taken apart when they are read and put together when they are written, but the order in
which their names stood is recorded. Writing restores it: the n-th attribute of a name goes to the n-th
recorded position of that name. Attributes without such a position go last, and otherwise the order they
come in is kept.
-/

namespace ClassFile.Attribute

/-- For each name the positions at which it is recorded, in ascending order. -/
def recordedPositions (order : List String) : Std.HashMap String (List Nat) :=
  order.zipIdx.foldr (fun recorded m => m.insert recorded.1 (recorded.2 :: m.getD recorded.1 [])) ∅

/-- Each attribute with the first position of its name that no attribute before it has taken, behind those
already found (last one first). -/
def positionedOnto : (found : List (Option Nat × Attribute)) →
    (free : Std.HashMap String (List Nat)) → List Attribute → List (Option Nat × Attribute)
  | found, _, [] => found.reverse
  | found, free, a :: more =>
      match free.getD a.name [] with
      | [] => positionedOnto ((none, a) :: found) free more
      | p :: later => positionedOnto ((some p, a) :: found) (free.insert a.name later) more

/-- Each attribute with its recorded position. -/
def positioned (order : List String) (attributes : List Attribute) :
    List (Option Nat × Attribute) :=
  positionedOnto [] (recordedPositions order) attributes

/-- A recorded position comes before a later one and before none. -/
def comesBefore : Option Nat → Option Nat → Bool
  | some a, some b => a ≤ b
  | some _, none => true
  | none, some _ => false
  | none, none => true

/-- The attributes in their recorded order. -/
def restoreOrder (order : List String) (attributes : List Attribute) : List Attribute :=
  if order.isEmpty then attributes
  else
    ((positioned order attributes).mergeSort fun a b => comesBefore a.1 b.1).map (·.2)

end ClassFile.Attribute
