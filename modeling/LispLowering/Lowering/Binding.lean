import LispLowering.Lowering.Target

/-!
# Bindings and assignments

A symbol or a destructuring pattern with one value is a declaration. A list of names and values opens
a block of its own:

* `(let x 1)` declares `x`;
* `(let (vector a b) pair)` takes a pair apart;
* `(let (x 1 y 2) (+ x y))` is a block with two declarations.
-/

namespace LispLowering.Lowering

/-- The tree is a pattern that takes an array or an object apart. -/
def isDestructuring (node : SExpr) : Bool :=
  ["vector", "hash-map", "empty-array", "empty-map"].any fun head => node.isForm head

/-- A declaration. The names are known only after the value. -/
def lowerDeclaration (lower : Lowerer) (kind : VariableKind) (target : SExpr)
    (value : Option SExpr) : Lower Node := do
  let id ← lowerTarget lower target
  let init ← Lower.option (lowerValue lower) value
  Lower.bind id
  return Node.declare kind id init

/-- Declarations for pairs of a target and a value, each at the position of its target. -/
def lowerPairs (lower : Lowerer) (kind : VariableKind) : List SExpr → Lower (List Node)
  | target :: value :: rest => do
    let declaration ← lowerDeclaration lower kind target (some value)
    let others ← lowerPairs lower kind rest
    return declaration.place target.position :: others
  | _ => return []

/-- A block with declarations of its own. -/
def lowerScopedBindings (lower : Lowerer) (form : Form) (kind : VariableKind) (target : SExpr)
    (rest : List SExpr) : Lower Node := do
  let pairs := target.bindingItems
  if pairs.length % 2 ≠ 0 then form.refusePart target (.bindingPairs form.name)
  else
    let body ← Lower.inScope [] do
      let declarations ← lowerPairs lower kind pairs
      let statements ← lowerBody lower rest
      return declarations ++ statements
    return (Node.block body).place form.position

/-- `let`, `const` and `var`. Only a changing variable can do without a value. -/
def lowerBinding (lower : Lowerer) (form : Form) (kind : VariableKind) : Lower Node :=
  match form.args with
  | [] => form.tooFew 1
  | target :: rest =>
    match target with
    | .symbol _ _ =>
      match rest with
      | [value] => lowerDeclaration lower kind target (some value)
      | [] => if kind = .changing then lowerDeclaration lower kind target none else form.wrongCount 2
      | _ => form.wrongCount 2
    | .literal _ _ => form.refusePart target (.invalidPart "binding target" form.name target)
    | .list _ _ =>
      match rest with
      | [value] =>
        if isDestructuring target then lowerDeclaration lower kind target (some value)
        else lowerScopedBindings lower form kind target rest
      | _ => lowerScopedBindings lower form kind target rest

def isAssignable (node : Node) : Bool :=
  match node.kind with
  | .identifier _ _ | .member _ _ _ | .arrayPattern _ | .objectPattern _ => true
  | _ => false

/-- `=` and `set!`. -/
def lowerAssignment (lower : Lowerer) (form : Form) : Lower Node := do
  match form.args with
  | [target, value] =>
    let node ← if isDestructuring target then lowerTarget lower target else lowerValue lower target
    if isAssignable node then
      let value ← lowerValue lower value
      return Node.assign node value
    else form.refusePart target (.assignmentTarget target)
  | _ => form.wrongCount 2

end LispLowering.Lowering
