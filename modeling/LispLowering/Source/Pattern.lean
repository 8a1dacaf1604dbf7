import LispLowering.Source.SExpr

/-!
# Binding patterns

A pattern names what a binding introduces: a single name, the elements of an array, the properties of
an object, the rest of either, or nothing.
-/

namespace LispLowering

mutual

/-- A binding pattern with the expression that stands in for a missing value. -/
structure Pattern where
  kind : PatternKind
  default : Option SExpr
  position : Option Position

/-- The shapes of a pattern. The annotation of a name is kept as text. -/
inductive PatternKind where
  | identifier (name : String) (ascribed : Option String)
  | array (elements : List Pattern)
  | object (properties : List PropertyPattern) (rest : Option Pattern)
  | rest (inner : Pattern)
  | skip

/-- One property of an object pattern: the key and what its value is bound to. -/
structure PropertyPattern where
  key : String
  value : Pattern

end

/-- The parameters of a function. A structured list is written as a map from names to defaults. -/
structure ParamList where
  params : List Pattern
  structured : Bool

namespace Pattern

/-- The name that an identifier pattern binds. -/
def name? (p : Pattern) : Option String :=
  match p.kind with
  | .identifier name _ => some name
  | _ => none

/-- The pattern takes the remaining elements. -/
def isRest (p : Pattern) : Bool :=
  match p.kind with
  | .rest _ => true
  | _ => false

end Pattern

end LispLowering
