import LispLowering.Lowering.Target

/-!
# Loops with `recur`

A `loop` becomes an endless loop with a label, inside a wrapper that declares the loop variables:

    (() => {
      let i = 0;
      loop_0: while (true) {
        if (i < 3) { i = i + 1; continue loop_0; } else { return i; }
      }
    })()

A `recur` is first lowered as a call of the label. Afterwards the calls in tail position become jumps,
and a loop with any other `recur` is refused.
-/

namespace LispLowering.Lowering

/-! ## Jumps in tail position -/

/-- The node is a call of the label. -/
def isJumpTo (label : String) (callee : Node) : Bool := callee.identifier? = some label

/-- How many calls of the label a returned value ends in. -/
def valueJumps (label : String) : Node → Nat
  | ⟨.call callee _ _, _⟩ => if isJumpTo label callee then 1 else 0
  | ⟨.conditional _ consequent alternate, _⟩ => valueJumps label consequent + valueJumps label alternate
  | _ => 0

mutual

/-- How many calls of the label stand in tail position of a statement. Loops, functions and `try`
statements inside it are not looked into. -/
def tailJumps (label : String) : Node → Nat
  | ⟨.returnStatement value, _⟩ => optionValueJumps label value
  | ⟨.ifStatement _ consequent alternate, _⟩ => tailJumps label consequent + optionJumps label alternate
  | ⟨.block body, _⟩ => bodyJumps label body
  | ⟨.labeled _ body, _⟩ => tailJumps label body
  | ⟨.switchStatement _ cases, _⟩ => bodyJumps label cases
  | ⟨.switchCase _ consequent, _⟩ => bodyJumps label consequent
  | _ => 0

def bodyJumps (label : String) : List Node → Nat
  | [] => 0
  | node :: rest => tailJumps label node + bodyJumps label rest

def optionJumps (label : String) : Option Node → Nat
  | none => 0
  | some node => tailJumps label node

def optionValueJumps (label : String) : Option Node → Nat
  | none => 0
  | some value => valueJumps label value

end

/-- A loop variable as the target of an assignment. Its type belongs to the declaration only. -/
def assignable (param : Node) : Node :=
  match param.kind with
  | .identifier name _ => (Node.ident name).place param.position
  | _ => param

/-- The assignment of new values to the loop variables; all values are computed before any variable
changes. -/
def rebinding (params values : List Node) (p : Option Position) : List Node :=
  match params.map assignable, values with
  | [], _ => []
  | [target], [value] => [⟨.expressionStatement ((Node.assign target value).place p), p⟩]
  | targets, values =>
    let target : Node := ⟨.arrayPattern (targets.map some), p⟩
    [⟨.expressionStatement ((Node.assign target ((Node.array values).place p)).place p), p⟩]

/-- New values for the loop variables and a jump to the label. -/
def jumpTo (label : String) (params values : List Node) (p : Option Position) : Node :=
  (Node.block (rebinding params values p ++ [⟨.continueStatement (some label), p⟩])).place p

/-- The statement that returns a value at `p`, with the calls of the label that the value ends in as
jumps. -/
def returnOrJump (label : String) (params : List Node) (p : Option Position) : Node → Node
  | ⟨.call callee arguments optional, q⟩ =>
    if isJumpTo label callee then jumpTo label params arguments (q.or p)
    else ⟨.returnStatement (some ⟨.call callee arguments optional, q⟩), p⟩
  | ⟨.conditional test consequent alternate, q⟩ =>
    if valueJumps label consequent + valueJumps label alternate = 0 then
      ⟨.returnStatement (some ⟨.conditional test consequent alternate, q⟩), p⟩
    else
      ⟨.ifStatement test (returnOrJump label params (consequent.position.or p) consequent)
        (some (returnOrJump label params (alternate.position.or p) alternate)), q.or p⟩
  | value => ⟨.returnStatement (some value), p⟩

mutual

/-- A statement with the calls of the label in tail position as jumps. -/
def withJumps (label : String) (params : List Node) : Node → Node
  | ⟨.returnStatement value, p⟩ => returnOptionOrJump label params p value
  | ⟨.ifStatement test consequent alternate, p⟩ =>
    ⟨.ifStatement test (withJumps label params consequent) (optionWithJumps label params alternate), p⟩
  | ⟨.block body, p⟩ => ⟨.block (bodyWithJumps label params body), p⟩
  | ⟨.labeled name body, p⟩ => ⟨.labeled name (withJumps label params body), p⟩
  | ⟨.switchStatement discriminant cases, p⟩ =>
    ⟨.switchStatement discriminant (bodyWithJumps label params cases), p⟩
  | ⟨.switchCase test consequent, p⟩ => ⟨.switchCase test (bodyWithJumps label params consequent), p⟩
  | node => node

def bodyWithJumps (label : String) (params : List Node) : List Node → List Node
  | [] => []
  | node :: rest => withJumps label params node :: bodyWithJumps label params rest

def optionWithJumps (label : String) (params : List Node) : Option Node → Option Node
  | none => none
  | some node => some (withJumps label params node)

/-- A return statement at `p` with the calls of the label that its value ends in as jumps. -/
def returnOptionOrJump (label : String) (params : List Node) (p : Option Position) : Option Node → Node
  | none => ⟨.returnStatement none, p⟩
  | some value => returnOrJump label params p value

end

/-! ## Forms -/

/-- A loop variable with its declaration. -/
structure LoopVariable where
  declaration : Node
  target : Node

def lowerLoopVariables (lower : Lowerer) (p : Option Position) : List SExpr → Lower (List LoopVariable)
  | target :: value :: rest => do
    let id ← lowerTarget lower target
    let init ← lowerValue lower value
    Lower.bind id
    let declaration := (Node.declareChanging id (some init)).place (target.position.or p)
    let others ← lowerLoopVariables lower p rest
    return ⟨declaration, id⟩ :: others
  | _ => return []

/-- A lowered loop: its variables, its body, and the jumps that were met in the body. -/
structure LoweredLoop where
  bindings : List LoopVariable
  body : List Node
  frame : LoopFrame

def lowerLoopParts (lower : Lowerer) (label : String) (p : Option Position)
    (pairs body : List SExpr) : Lower LoweredLoop :=
  Lower.inScope [] do
    let bindings ← lowerLoopVariables lower p pairs
    let (body, frame) ← Lower.inLoop { label, arity := bindings.length }
      (lowerReturningBody lower body)
    return ⟨bindings, body, frame⟩

/-- A body that does not fall through into the next round. -/
def closedBody (p : Option Position) (body : List Node) : List Node :=
  if (body.getLast?.map Node.isTerminator).getD false then body
  else body ++ [⟨.returnStatement none, p⟩]

def loopStatements (label : String) (p : Option Position) (declarations body : List Node) : List Node :=
  let forever : Node := ⟨.whileLoop ((Node.bool true).place p) ((Node.block body).place p), p⟩
  declarations ++ [⟨.labeled label forever, p⟩]

def loopPairs (form : Form) (bindings : SExpr) : Lower (List SExpr) :=
  let items := bindings.bindingItems
  if bindings.items?.isNone || items.length % 2 ≠ 0 then
    form.refusePart bindings (.loopBindings form.name bindings)
  else pure items

def lowerLoop (lower : Lowerer) (form : Form) : Lower Node := do
  match form.args with
  | [] => form.tooFew 1
  | bindings :: body =>
    let p := form.position
    let pairs ← loopPairs form bindings
    let label ← Lower.fresh "loop"
    let (parts, suspension) ← Lower.inExpression (lowerLoopParts lower label p pairs body)
    if bodyJumps label parts.body ≠ parts.frame.recurs then
      Lower.refuse (Fault.recurPosition.place (parts.frame.firstRecur.or p))
    else
      let params := parts.bindings.map LoopVariable.target
      let body := closedBody p (bodyWithJumps label params parts.body)
      let declarations := parts.bindings.map LoopVariable.declaration
      return Node.wrapped (loopStatements label p declarations body) suspension p

/-- The frames of the enclosing loops after a jump to the innermost one. -/
def countRecur (p : Option Position) : List LoopFrame → List LoopFrame
  | [] => []
  | frame :: rest =>
    { frame with recurs := frame.recurs + 1, firstRecur := frame.firstRecur.or p } :: rest

/-- `recur`, as a call of the label of the innermost loop. -/
def lowerRecur (lower : Lowerer) (form : Form) : Lower Node := do
  match (← get).loops with
  | [] => form.refuse (.outside "recur" .loop)
  | frame :: _ =>
    if form.args.length ≠ frame.arity then
      form.refuse (.recurCount frame.arity form.args.length)
    else
      let arguments ← lowerValues lower form.args
      modify fun c => { c with loops := countRecur form.position c.loops }
      return Node.call ((Node.ident frame.label).place form.position) arguments

end LispLowering.Lowering
