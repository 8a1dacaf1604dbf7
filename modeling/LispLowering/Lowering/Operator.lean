import LispLowering.Lowering.Placement

/-!
# Operators
-/

namespace LispLowering.Lowering

/-- Operands joined from the left by a binary operator. -/
def joinLeft (join : Node → Node → Node) (p : Option Position) : List Node → Option Node
  | [] => none
  | first :: rest => some (rest.foldl (fun left right => (join left right).place p) first)

/-- Operands joined from the right by a binary operator. -/
def joinRight (join : Node → Node → Node) (p : Option Position) : List Node → Option Node
  | [] => none
  | first :: rest =>
    match joinRight join p rest with
    | none => some first
    | some right => some ((join first right).place p)

/-- Lowers the operands and joins them from the left. -/
def lowerJoined (lower : Lowerer) (form : Form) (op : BinaryOp) : Lower Node := do
  let operands ← lowerValues lower form.args
  return (joinLeft (Node.binary op) form.position operands).getD Node.undefined

/-- Lowers the operands and joins them by a short-circuiting operator. Without operands the value is
`identity`. -/
def lowerLogical (lower : Lowerer) (form : Form) (op : LogicalOp) (identity : Bool) : Lower Node := do
  let operands ← lowerValues lower form.args
  return (joinLeft (Node.logical op) form.position operands).getD (Node.bool identity)

/-! ## Comparisons -/

/-- The operand can be repeated without evaluating anything twice. -/
def isRepeatable (node : Node) : Bool :=
  match node.kind with
  | .identifier _ _ | .literal _ | .thisValue => true
  | _ => false

/-- The comparisons of a chain, and the declarations of the variables that they use. -/
structure Comparisons where
  declarations : List Node := []
  tests : List Node := []

/-- Compares each operand with the one before it, `left` being before the first. An operand in the
middle that cannot be repeated is kept in a variable when it is evaluated. -/
def compareFrom (op : BinaryOp) (p : Option Position) (left : Node) : List Node → Lower Comparisons
  | [] => return {}
  | [last] => return { tests := [(Node.binary op left last).place p] }
  | operand :: next :: rest => do
    if isRepeatable operand then
      let later ← compareFrom op p operand (next :: rest)
      return { later with tests := (Node.binary op left operand).place p :: later.tests }
    else
      let name ← Lower.fresh "cmp"
      let kept := (Node.ident name).place p
      let test := (Node.binary op left ((Node.assign kept operand).place p)).place p
      let later ← compareFrom op p kept (next :: rest)
      return {
        declarations := (Node.declareChanging kept none).place p :: later.declarations
        tests := test :: later.tests }

/-- Comparisons as one value. Variables need a wrapper to be declared in. -/
def comparisonValue (p : Option Position) (suspension : Suspension) (chain : Comparisons) : Node :=
  let value := (joinLeft (Node.logical .and) p chain.tests).getD ((Node.bool true).place p)
  if chain.declarations.isEmpty then value
  else Node.wrapped (chain.declarations ++ [⟨.returnStatement (some value), p⟩]) suspension p

/-- `<`, `>`, `<=` and `>=`. -/
def lowerComparison (lower : Lowerer) (form : Form) (op : BinaryOp) : Lower Node := do
  let p := form.position
  let (operands, suspension) ← Lower.tracking (lowerValues lower form.args)
  match operands with
  | [] => return (Node.bool true).place p
  | first :: rest => return comparisonValue p suspension (← compareFrom op p first rest)

/-! ## All operators -/

/-- Runs an action if the form has enough arguments. -/
def withAtLeast {α : Type} (form : Form) (least : Nat) (action : Lower α) : Lower α :=
  if form.args.length < least then form.tooFew least else action

def lowerOperator (lower : Lowerer) (form : Form) : Operator → Lower Node
  | .add =>
    match form.args with
    | [] => return Node.number 0
    | [arg] => do return Node.unary .plus (← lowerValue lower arg)
    | _ => lowerJoined lower form .add
  | .subtract =>
    match form.args with
    | [] => form.tooFew 1
    | [arg] => do return Node.unary .neg (← lowerValue lower arg)
    | _ => lowerJoined lower form .sub
  | .multiply =>
    match form.args with
    | [] => return Node.number 1
    | [arg] => lowerValue lower arg
    | _ => lowerJoined lower form .mul
  | .divide => withAtLeast form 2 (lowerJoined lower form .div)
  | .remainder => withAtLeast form 2 (lowerJoined lower form .mod)
  | .power => withAtLeast form 2 do
    let operands ← lowerValues lower form.args
    return (joinRight (Node.binary .pow) form.position operands).getD Node.undefined
  | .relation op =>
    match form.args with
    | [left, right] => do
      let left ← lowerValue lower left
      let right ← lowerValue lower right
      return Node.binary op left right
    | _ => form.wrongCount 2
  | .comparison op => withAtLeast form 2 (lowerComparison lower form op)
  | .and => lowerLogical lower form .and true
  | .or => lowerLogical lower form .or false
  | .nullish => withAtLeast form 2 (lowerLogical lower form .nullish false)
  | .unary op =>
    match form.args with
    | [arg] => do return Node.unary op (← lowerValue lower arg)
    | _ => form.wrongCount 1

end LispLowering.Lowering
