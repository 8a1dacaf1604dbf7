import LispLowering.Lowering.Exception

/-!
# Loops over conditions, ranges and collections
-/

namespace LispLowering.Lowering

def lowerWhile (lower : Lowerer) (form : Form) : Lower Node := do
  match form.args with
  | [] => form.tooFew 1
  | test :: body =>
    let test ← lowerValue lower test
    let body ← lowerScopedBody lower none body
    return Node.of (.whileLoop test ((Node.block body).place form.position))

/-! ## Ranges -/

/-- A range of a `for` loop: the counter, and the start and the step if they are given. -/
structure ForRange where
  counter : SExpr
  start : Option SExpr
  stop : SExpr
  step : Option SExpr

/-- The range that the items of a list describe. -/
def ForRange.ofItems? : List SExpr → Option ForRange
  | [counter, stop] => some ⟨counter, none, stop, none⟩
  | [counter, start, stop] => some ⟨counter, some start, stop, none⟩
  | [counter, start, stop, step] => some ⟨counter, some start, stop, some step⟩
  | _ => none

/-- The direction of a step that is a literal: whether it counts down. -/
def countsDown? (step : Node) : Option Bool :=
  match step.kind with
  | .literal (.number n) => some n.isNegative
  | .unary .neg ⟨.literal (.number n), _⟩ => some n.isPositive
  | _ => none

/-- A declarator at the position of what it declares. -/
def declarator (id init : Node) : Node := ⟨.variableDeclarator id (some init), id.position⟩

/-- The parts of a `for` loop around its body. -/
structure ForHead where
  declarators : List Node
  test : Node
  step : Node

/-- The head of a loop whose direction is known. -/
def literalHead (p : Option Position) (down : Bool) (counter current start stop step : Node) :
    ForHead :=
  { declarators := [declarator counter start]
    test := (Node.binary (if down then .gt else .lt) current stop).place p
    step }

/-- The head of a loop whose step is kept in a variable and decides the direction each time. -/
def computedHead (p : Option Position) (stepName : String)
    (counter current start stop step : Node) : ForHead :=
  let stepRef := (Node.ident stepName).place p
  let ascending := (Node.binary .gt stepRef ((Node.number 0).place p)).place p
  { declarators := [declarator counter start, declarator stepRef step]
    test := (Node.conditional ascending ((Node.binary .lt current stop).place p)
      ((Node.binary .gt current stop).place p)).place p
    step := stepRef }

/-- The head of a `for` loop. A step that is no literal gets a variable of its own. -/
def forHead (p : Option Position) (counter current start stop step : Node) : Lower ForHead := do
  match countsDown? step with
  | some down => return literalHead p down counter current start stop step
  | none =>
    let stepName ← Lower.fresh "step"
    return computedHead p stepName counter current start stop step

def forNode (p : Option Position) (head : ForHead) (current : Node) (body : List Node) : Node :=
  let init : Node := ⟨.variableDeclaration .changing head.declarators, p⟩
  let next := (Node.binary .add current head.step).place p
  let update := (Node.assign current next).place p
  Node.of (.forLoop (some init) (some head.test) (some update) ((Node.block body).place p))

/-- A value, or a number at the position of the form. -/
def lowerOrNumber (lower : Lowerer) (p : Option Position) (default : Binary64) :
    Option SExpr → Lower Node
  | some node => lowerValue lower node
  | none => return (Node.number default).place p

def lowerFor (lower : Lowerer) (form : Form) : Lower Node := do
  match form.args with
  | [] => form.tooFew 1
  | spec :: body =>
    let p := form.position
    match ForRange.ofItems? spec.bindingItems with
    | none => form.refusePart spec (.forRange spec)
    | some range =>
      let counter ← lowerTarget lower range.counter
      match counter.identifier? with
      | none => form.refusePart range.counter (.invalidPart "loop variable" "for" range.counter)
      | some name =>
        let current := (Node.ident name).place (counter.position.or p)
        let start ← lowerOrNumber lower p 0 range.start
        let stop ← lowerValue lower range.stop
        let step ← lowerOrNumber lower p 1 range.step
        let head ← forHead p counter current start stop step
        let body ← lowerScopedBody lower (some counter) body
        return forNode p head current body

/-! ## Collections -/

/-- The parts of a loop over a collection. -/
structure IterationParts where
  left : Node
  right : Node
  body : Node

/-- Lowers the target, the collection and the body of a loop over a collection. -/
def lowerIteration (lower : Lowerer) (form : Form) : Lower IterationParts := do
  match form.args with
  | [] => form.tooFew 1
  | spec :: body =>
    let p := form.position
    match spec.bindingItems with
    | [target, collection] =>
      let target ← lowerTarget lower target
      let right ← lowerValue lower collection
      let body ← lowerScopedBody lower (some target) body
      return ⟨(Node.declare .fixed target none).place p, right, (Node.block body).place p⟩
    | _ => form.refusePart spec (.iterationBinding form.name spec)

/-- `for-of` and `for-await-of`. -/
def lowerForOf (lower : Lowerer) (form : Form) (awaits : Bool) : Lower Node := do
  let parts ← lowerIteration lower form
  if awaits then Lower.noteAwait
  return Node.of (.forOf parts.left parts.right parts.body awaits)

def lowerForIn (lower : Lowerer) (form : Form) : Lower Node := do
  let parts ← lowerIteration lower form
  return Node.of (.forIn parts.left parts.right parts.body)

end LispLowering.Lowering
