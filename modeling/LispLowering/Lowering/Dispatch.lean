import LispLowering.Lowering.Access
import LispLowering.Lowering.Binding
import LispLowering.Lowering.Branch
import LispLowering.Lowering.Class
import LispLowering.Lowering.Collection
import LispLowering.Lowering.Enum
import LispLowering.Lowering.Iteration
import LispLowering.Lowering.Linkage
import LispLowering.Lowering.Loop
import LispLowering.Lowering.Operator
import LispLowering.Lowering.Quotation
import LispLowering.Lowering.TypeDecl

/-!
# Lowering trees and programs

A literal and a symbol are lowered directly. A list is lowered by its head: a special form in its own
way, and everything else as a call.
-/

namespace LispLowering.Lowering

def lowerSpecial (lower : Lowerer) (form : Form) : SpecialForm → Lower Node
  | .binding kind => lowerBinding lower form kind
  | .assignment => lowerAssignment lower form
  | .function => lowerFunction lower form false false
  | .generator => lowerFunction lower form false true
  | .async => lowerAsync lower form
  | .arrow => lowerArrow lower form false
  | .returning => lowerReturn lower form
  | .yielding delegate => lowerYield lower form delegate
  | .awaiting => lowerAwait lower form
  | .branch => lowerIf lower form
  | .cond => lowerCond lower form
  | .sequence => lowerDo lower form
  | .throwing => lowerThrow lower form
  | .trying => lowerTry lower form
  | .switching => lowerSwitch lower form
  | .label => lowerLabel lower form
  | .loop => lowerLoop lower form
  | .recur => lowerRecur lower form
  | .whileLoop => lowerWhile lower form
  | .forLoop => lowerFor lower form
  | .forOf awaits => lowerForOf lower form awaits
  | .forIn => lowerForIn lower form
  | .breaking => lowerJump form .breakStatement
  | .continuing => lowerJump form .continueStatement
  | .vector => lowerVector lower form
  | .emptyArray => lowerEmpty form (Node.array [])
  | .map => lowerMap lower form
  | .emptyMap => lowerEmpty form (Node.object [])
  | .set => lowerSet lower form
  | .emptySet => lowerEmpty form (newSet [])
  | .get => lowerGet lower form
  | .construct => lowerConstruct lower form
  | .template => lowerTemplate lower form
  | .spread => lowerSpread lower form
  | .methodCall => lowerPropertyCall lower form
  | .propertyGet => lowerPropertyGet lower form
  | .propertySet => lowerPropertySet lower form
  | .getInvoke => lowerGetInvoke lower form
  | .quote => lowerQuote form
  | .quasiquote => lowerQuasiquote lower form
  | .unquote => form.refuse (.outside form.name .quasiquote)
  | .classForm => lowerClass lower form
  | .enumForm => lowerEnum lower form
  | .typeAlias => lowerTypeAlias form
  | .interface => lowerInterface form
  | .typeAssertion => lowerTypeAssertion lower form
  | .importing => lowerImport form
  | .exporting => lowerExport lower form
  | .dynamicImport => lowerDynamicImport lower form
  | .operator op => lowerOperator lower form op

def lowerNamed (lower : Lowerer) (node : SExpr) (name : String) (head : Option Position)
    (args : List SExpr) : Lower (Option Node) := do
  match HeadMeaning.ofName name with
  | .special special =>
    let lowered ← lowerSpecial lower ⟨node, name, args⟩ special
    return some (lowered.orPlace node.position)
  | .dropped => return none
  | .called =>
    let lowered ← lowerNamedCall lower node name head args
    return some (lowered.orPlace node.position)

/-- Runs an action for a form. A diagnostic without a location becomes one for the form. -/
def inForm {α : Type} (name : String) (p : Option Position) (action : Lower α) : Lower α := fun c =>
  match action c with
  | .ok value c => .ok value c
  | .error d c => .error (d.inForm name p) c

def lowerList (lower : Lowerer) (items : List SExpr) (p : Option Position) : Lower (Option Node) := do
  let node := SExpr.list items p
  match items with
  | [] => return some ((Node.array []).place p)
  | .symbol name q :: args => inForm name p (lowerNamed lower node name q args)
  | .literal value q :: _ =>
    let head := SExpr.literal value q
    Lower.refuse ((Fault.notCallable head node).place (q.or p))
  | .list inner q :: args =>
    let lowered ← lowerApplied lower node (.list inner q) args
    return some lowered

/-- Lowers a tree in which lists are nested at most as deep as the fuel. -/
def lowerWithin : Nat → Lowerer
  | _, .literal value p => return some ((Node.literal value).place p)
  | _, .symbol name p => do return some (← Lower.ofExcept (reference name p))
  | 0, .list _ _ => return none
  | fuel + 1, .list items p => lowerList (lowerWithin fuel) items p

/-- Lowers a tree. The trees inside a list are nested less deep than the list. -/
def lower (node : SExpr) : Lower (Option Node) := lowerWithin node.depth node

/-- Lowers a tree to a statement of a program. A form that stands for nothing leaves a null, so that
every form has its statement. -/
def lowerTopLevel (node : SExpr) : Lower Node := do
  return ((← lower node).getD (Node.null.place node.position)).asStatement

def lowerProgram (forms : List SExpr) : Lower Program := do
  return ⟨← Lower.each lowerTopLevel forms⟩

end LispLowering.Lowering
