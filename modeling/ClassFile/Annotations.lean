import ClassFile.Constant
/-!
# Annotations

An annotation has a type and named values, and a value may be an annotation again or a list of
values. Whether the annotation is visible at run time is not written with it but by the name of
the attribute that holds it; it is kept on every annotation, the nested ones included.
-/

namespace ClassFile

mutual

/-- An annotation: the descriptor of its type and its elements, in order. -/
structure AnnotationData where
  descriptor : String
  visible : Bool
  elements : List (String × ElementValue)

/-- The value of one element. -/
inductive ElementValue where
  /-- A constant under the one-letter tag that says how it is to be understood. -/
  | const (tag : UInt8) (value : Constant)
  /-- A constant of an enumeration. -/
  | enumeration (descriptor name : String)
  | classLiteral (descriptor : String)
  | nested (value : AnnotationData)
  | array (values : List ElementValue)

end

mutual

/-- The same annotation, floating-point constants compared as numbers. -/
def AnnotationData.agrees : AnnotationData → AnnotationData → Bool
  | ⟨d, v, es⟩, ⟨d', v', es'⟩ => d == d' && v == v' && elementsAgree es es'

/-- The same element value. -/
def ElementValue.agrees : ElementValue → ElementValue → Bool
  | .const t c, .const t' c' => t == t' && c.agrees c'
  | .enumeration d n, .enumeration d' n' => d == d' && n == n'
  | .classLiteral d, .classLiteral d' => d == d'
  | .nested a, .nested a' => a.agrees a'
  | .array vs, .array vs' => valuesAgree vs vs'
  | _, _ => false

/-- The same names with the same values, in the same order. -/
def elementsAgree : List (String × ElementValue) → List (String × ElementValue) → Bool
  | [], [] => true
  | (n, v) :: es, (n', v') :: es' => n == n' && v.agrees v' && elementsAgree es es'
  | _, _ => false

/-- The same values in the same order. -/
def valuesAgree : List ElementValue → List ElementValue → Bool
  | [], [] => true
  | v :: vs, v' :: vs' => v.agrees v' && valuesAgree vs vs'
  | _, _ => false

end

end ClassFile
