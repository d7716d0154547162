import ClassFile.Descriptor.Grammar
import ClassFile.Malformed
import ClassFile.Unencodable
/-!
# Errors

All that can go wrong in the library, by kind. Two kinds pass on an error of the host: whoever
serves class bytes or translates names may fail for reasons of its own, and its word is kept as
the source of ours.
-/

namespace ClassFile

/-- An error of a service that the library calls. -/
inductive HostFault where
  /-- No class of this name was put into the store. -/
  | notLoaded (name : String)
  /-- No entry of the class path holds this class. -/
  | notOnClassPath (name : String)
  /-- A file of the class path cannot be read. -/
  | unreadable (path : String)
  /-- Any other service, in its own words. -/
  | service (text : String)
deriving DecidableEq

/-- The host's words. -/
def HostFault.message : HostFault → String
  | .notLoaded name => s!"{name} is not loaded"
  | .notOnClassPath name => s!"{name} is not on the class path"
  | .unreadable path => s!"failed to read {path}"
  | .service text => text

/-- Why a class has no usable helper method of a given signature. -/
inductive HelperFault where
  | absent
  | needsInstance
deriving DecidableEq

/-- An error of the library. -/
inductive Error where
  /-- Bytes that are no class file; the name of the class, where it is known. -/
  | malformedInput (className : Option String) (reason : Malformed)
  | malformedDescriptor (descriptor : String) (reason : Descriptor.Fault)
  | classNotFound (className : String) (source : HostFault)
  | unknownMapping (symbol : String) (source : HostFault)
  | cycleDetected (className : String)
  | hierarchyTooDeep (className : String) (limit : Nat)
  | missingHelper (className signature : String) (reason : HelperFault)
  | unencodable (reason : Unencodable)
deriving DecidableEq

namespace Error

/-- The wording of an error, its source left out. -/
def message : Error → String
  | .malformedInput none reason => "malformed class data: " ++ reason.message
  | .malformedInput (some c) reason => s!"malformed class data for {c}: " ++ reason.message
  | .malformedDescriptor d reason => "malformed descriptor \x60" ++ d ++ "\x60: " ++ reason.message
  | .classNotFound c _ => s!"class not found: {c}"
  | .unknownMapping symbol _ => s!"no mapping for {symbol}"
  | .cycleDetected c => s!"superclass cycle detected at {c}"
  | .hierarchyTooDeep c limit => s!"superclass chain of {c} exceeds {limit} levels"
  | .missingHelper c signature .absent => s!"{c} is missing helper method {signature}"
  | .missingHelper c signature .needsInstance =>
      s!"helper method {signature} in {c} must be static"
  | .unencodable reason => "cannot encode class: " ++ reason.message

/-- The host's error behind this one. -/
def source? : Error → Option HostFault
  | .classNotFound _ source | .unknownMapping _ source => some source
  | _ => none

/-- The name of an error's kind. -/
def kind : Error → String
  | .malformedInput _ _ => "MalformedInput"
  | .malformedDescriptor _ _ => "MalformedDescriptor"
  | .classNotFound _ _ => "ClassNotFound"
  | .unknownMapping _ _ => "UnknownMapping"
  | .cycleDetected _ => "CycleDetected"
  | .hierarchyTooDeep _ _ => "HierarchyTooDeep"
  | .missingHelper _ _ _ => "MissingHelper"
  | .unencodable _ => "Unencodable"

/-- The wording of an error and of its source, outermost first. -/
def chain (e : Error) : List String :=
  e.message :: (e.source?.map HostFault.message).toList

/-- Says which class malformed data was meant for, unless that is said already. -/
def inClass (name : String) : Error → Error
  | .malformedInput none reason => .malformedInput (some name) reason
  | e => e

end Error

end ClassFile
