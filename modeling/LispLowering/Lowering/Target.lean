import LispLowering.Lowering.Placement
import LispLowering.Source.Pattern.Reader
import LispLowering.Source.Symbol
import LispLowering.TypeSyntax.Text

/-!
# Binding targets

A pattern becomes a pattern of the target. The shape of a pattern is lowered before its default, and
the defaults inside a pattern before its own.
-/

namespace LispLowering.Node

/-- The text can be written as the name of a property. -/
def isPropertyName (key : String) : Bool := Symbol.property key = key && !Symbol.startsWithDigit key

/-- An entry of an object or of an object pattern. A key that is no name is written as a string, and
the entry is a shorthand if the key is the name that the value binds. -/
def keyed (key : String) (value : Node) : Node :=
  let p := value.position
  let keyNode := if isPropertyName key then ident key else string key
  ⟨.property (keyNode.place p) value false (value.boundName? = some key), p⟩

end LispLowering.Node

namespace LispLowering.Pattern

variable {σ : Type}

/-- A target where something has to be bound. -/
def bound (part : String) (p : Option Position) : Option Node → EStateM Diagnostic σ Node
  | some node => pure node
  | none => throw ((Fault.skippedTarget part).place p)

mutual

/-- The target of a pattern, given how defaults are lowered. A skipped slot has none. -/
def lower (transform : SExpr → EStateM Diagnostic σ Node) : Pattern → EStateM Diagnostic σ (Option Node)
  | ⟨kind, default, p⟩ => do
    match ← lowerKind transform p kind with
    | none => return none
    | some node =>
      match default with
      | none => return some node
      | some value =>
        let value ← transform value
        return some ⟨.assignmentPattern node value, p⟩

def lowerKind (transform : SExpr → EStateM Diagnostic σ Node) (p : Option Position) :
    PatternKind → EStateM Diagnostic σ (Option Node)
  | .skip => return none
  | .identifier name ascribed =>
    return some ⟨.identifier (Symbol.identifier name) (ascribed.map TypeExpr.ofText), p⟩
  | .array elements => do
    let slots ← lowerElements transform elements
    return some ⟨.arrayPattern slots, p⟩
  | .object properties rest => do
    let entries ← lowerProperties transform p properties
    let remaining ← lowerObjectRest transform rest
    return some ⟨.objectPattern (entries ++ remaining), p⟩
  | .rest inner => do
    let target ← bound "rest element" inner.position (← lower transform inner)
    return some ⟨.restElement target, p⟩

def lowerElements (transform : SExpr → EStateM Diagnostic σ Node) :
    List Pattern → EStateM Diagnostic σ (List (Option Node))
  | [] => return []
  | element :: rest => do
    let slot ← lower transform element
    let slots ← lowerElements transform rest
    return slot :: slots

/-- The entries of an object pattern. A key has to bind something. -/
def lowerProperties (transform : SExpr → EStateM Diagnostic σ Node) (p : Option Position) :
    List PropertyPattern → EStateM Diagnostic σ (List Node)
  | [] => return []
  | ⟨key, value⟩ :: rest => do
    match ← lower transform value with
    | none => throw ((Fault.skippedKey key).place (value.position.or p))
    | some target =>
      let entries ← lowerProperties transform p rest
      return Node.keyed key target :: entries

def lowerObjectRest (transform : SExpr → EStateM Diagnostic σ Node) :
    Option Pattern → EStateM Diagnostic σ (List Node)
  | none => return []
  | some rest => do
    let target ← bound "object rest" rest.position (← lower transform rest)
    return [⟨.restElement target, rest.position⟩]

end

end LispLowering.Pattern

namespace LispLowering.Lowering

def lowerTarget (lower : Lowerer) (node : SExpr) : Lower Node := do
  let pattern ← Lower.ofSyntax (Pattern.read node)
  match ← pattern.lower (lowerValue lower) with
  | some target => return target
  | none => Lower.refuse ((Fault.bindingTarget node).place node.position)

end LispLowering.Lowering
