import ClassFile.Resolver
import Std.Data.HashSet
/-!
# Assignability

A value of class `child` may be stored where `parent` is asked for if `parent` is found on the way from `child` up through
its superclasses: as one of these classes, or as an interface that one of them lists itself. Interfaces
above interfaces are not looked at.

The way up may be broken: a class may be its own ancestor, a class may be missing, and a chain may be longer than
what is allowed. Each round visits a class that was not visited before, so the limit bounds the
number of rounds.
-/

namespace ClassFile

/-- The class itself, its superclass or one of the interfaces it lists has the name. -/
def ClassView.hits (view : ClassView) (target : String) : Bool :=
  view.name == target || view.superclass? == some target || view.interfaces.contains target

namespace Resolver

/-- The longest chain that is walked when nothing else is said. -/
def defaultMaxDepth : Nat := 256

/-- Walks up from `view`. `visited` are the names of the classes before it, `rounds` how many more classes may be
visited. -/
def walk (r : Resolver) (target child : String) (maxDepth : Nat) : (rounds : Nat) →
    (visited : Std.HashSet String) → ClassView → Except Error Bool
  | rounds, visited, view =>
      if visited.contains view.name then .error (.cycleDetected view.name)
      else
        match rounds with
        | 0 => .error (.hierarchyTooDeep child maxDepth)
        | rounds + 1 =>
            if view.hits target then .ok true
            else
              match view.superclass? with
              | none => .ok false
              | some above =>
                  if above == rootClass then .ok false
                  else
                    match r.resolve above with
                    | .error e => .error e
                    | .ok next => walk r target child maxDepth rounds (visited.insert view.name) next

/-- A value of class `child` may be stored where `parent` is asked for. -/
def isAssignableFrom (r : Resolver) (maxDepth : Nat) (parent child : ClassView) :
    Except Error Bool :=
  r.walk parent.name child.name maxDepth maxDepth ∅ child

/-- The same for two runtime names. -/
def isAssignable (r : Resolver) (maxDepth : Nat) (parent child : String) : Except Error Bool := do
  let p ← r.resolve parent
  let c ← r.resolve child
  r.isAssignableFrom maxDepth p c

end Resolver

end ClassFile
