import LispLowering.Lowering.Placement

/-!
# Branches and sequences

Branches are lowered as what they are. If all of them are expressions, the form stays an expression;
otherwise it becomes a statement, which is wrapped where a value is needed.
-/

namespace LispLowering.Node

/-- A choice as a conditional expression if both branches are expressions, and as a statement
otherwise. -/
def choose (test consequent : Node) (alternate : Option Node) : Node :=
  if consequent.isStatement || (alternate.map isStatement).getD false then
    branch test consequent.asStatement (alternate.map asStatement)
  else conditional test consequent (alternate.getD undefined)

end LispLowering.Node

namespace LispLowering.Lowering

/-- Lowers a branch. A form that stands for nothing is null. -/
def lowerBranch (lower : Lowerer) (node : SExpr) : Lower Node := do
  return (← lower node).getD (Node.null.place node.position)

/-- Lowers forms one after another; the last is the value. A single form needs no block. -/
def lowerSequence (lower : Lowerer) (p : Option Position) : List SExpr → Lower Node
  | [] => return Node.undefined.place p
  | [single] => lowerBranch lower single
  | many => do
    let body ← Lower.inScope [] (lowerBody lower many)
    return (Node.block body).place p

def lowerIf (lower : Lowerer) (form : Form) : Lower Node := do
  match form.args with
  | [test, consequent] =>
    let test ← lowerValue lower test
    let consequent ← lowerBranch lower consequent
    return Node.choose test consequent none
  | [test, consequent, alternate] =>
    let test ← lowerValue lower test
    let consequent ← lowerBranch lower consequent
    let alternate ← lowerBranch lower alternate
    return Node.choose test consequent (some alternate)
  | _ => form.outOfRange 2 3

/-- The head of a clause that is always taken. -/
def isElse (node : SExpr) : Bool := node.isSymbol "else" || node.isSymbol "true"

/-- A clause of `cond`: the test, unless the clause is always taken, and the value. -/
structure CondClause where
  test : Option Node
  value : Node

/-- Lowers the clauses of `cond`. Only the last can be taken always. -/
def lowerCondClauses (lower : Lowerer) (form : Form) : List SExpr → Lower (List CondClause)
  | [] => return []
  | clause :: rest => do
    match clause with
    | .list (test :: first :: more) p =>
      if isElse test then
        if !rest.isEmpty then form.refusePart clause .elseNotLast
        else
          let value ← lowerSequence lower p (first :: more)
          return [⟨none, value⟩]
      else
        let test ← lowerValue lower test
        let value ← lowerSequence lower p (first :: more)
        let clauses ← lowerCondClauses lower form rest
        return ⟨some test, value⟩ :: clauses
    | _ => form.refusePart clause (.condClause clause)

def chooseClause : List CondClause → Option Node
  | [] => none
  | ⟨some test, value⟩ :: rest => some (Node.choose test value (chooseClause rest))
  | ⟨none, value⟩ :: _ => some value

def lowerCond (lower : Lowerer) (form : Form) : Lower Node := do
  let clauses ← lowerCondClauses lower form form.args
  return (chooseClause clauses).getD Node.undefined

def lowerDo (lower : Lowerer) (form : Form) : Lower Node := lowerSequence lower form.position form.args

/-! ## Switches -/

/-- A clause of `switch`. Every clause leaves the switch at its end. -/
def switchCase (p : Option Position) (test : Option Node) (body : List Node) : Node :=
  let leaves := (body.getLast?.map Node.isTerminator).getD false
  ⟨.switchCase test (if leaves then body else body ++ [Node.of (.breakStatement none)]), p⟩

/-- Lowers the clauses of `switch`; `seenDefault` tells whether a default has come before. -/
def lowerSwitchClauses (lower : Lowerer) (form : Form) (seenDefault : Bool) :
    List SExpr → Lower (List Node)
  | [] => return []
  | clause :: rest => do
    match clause with
    | .list (.symbol "case" _ :: test :: body) p =>
      let test ← lowerValue lower test
      let body ← lowerBody lower body
      let cases ← lowerSwitchClauses lower form seenDefault rest
      return switchCase p (some test) body :: cases
    | .list (.symbol "default" _ :: body) p =>
      if seenDefault then form.refusePart clause .duplicateDefault
      else
        let body ← lowerBody lower body
        let cases ← lowerSwitchClauses lower form true rest
        return switchCase p none body :: cases
    | _ => form.refusePart clause (.switchClause clause)

def lowerSwitch (lower : Lowerer) (form : Form) : Lower Node := do
  match form.args with
  | [] => form.tooFew 1
  | discriminant :: clauses =>
    let discriminant ← lowerValue lower discriminant
    let cases ← lowerSwitchClauses lower form false clauses
    return Node.of (.switchStatement discriminant cases)

/-! ## Labels -/

/-- The statement that a label names. Several forms share a block. -/
def lowerLabelBody (lower : Lowerer) : List SExpr → Lower Node
  | [single] => do return ((← lower single).getD (Node.block [])).asStatement
  | many => do return Node.block (← lowerBody lower many)

def lowerLabel (lower : Lowerer) (form : Form) : Lower Node := do
  match form.args with
  | label :: first :: more =>
    let name ← form.symbolIn "a label name" (some label)
    let body ← lowerLabelBody lower (first :: more)
    return Node.of (.labeled name body)
  | _ => form.tooFew 2

/-- `break` and `continue`, with or without a label. -/
def lowerJump (form : Form) (jump : Option String → NodeKind) : Lower Node := do
  match form.args with
  | [] => return Node.of (jump none)
  | [label] =>
    let name ← form.symbolIn "a label" (some label)
    return Node.of (jump (some name))
  | _ => form.outOfRange 0 1

end LispLowering.Lowering
