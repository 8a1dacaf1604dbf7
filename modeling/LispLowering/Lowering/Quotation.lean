import LispLowering.Lowering.Placement

/-!
# Quotation

Quoted code becomes data: symbols turn into strings and lists into arrays. A quasiquotation evaluates
the unquoted parts at its own depth.
-/

namespace LispLowering.Lowering

mutual

def quoted : SExpr → Node
  | .symbol name p => (Node.string name).place p
  | .literal value p => (Node.literal value).place p
  | .list items p => (Node.array (quotedItems items)).place p

def quotedItems : List SExpr → List Node
  | [] => []
  | item :: rest => quoted item :: quotedItems rest

end

/-- The tree whose elements are spliced, if the tree is a splice. -/
def spliced? : SExpr → Option SExpr
  | .list [head, tree] _ => if head.isSymbol "unquote-splicing" then some tree else none
  | _ => none

/-- The ways in which a list takes part in quasiquotation. -/
inductive QuoteMark where
  | unquote
  | quasiquote
  | splice
  | none
  deriving DecidableEq

/-- What the head of a list of two trees means for quasiquotation. -/
def QuoteMark.ofHead (head : SExpr) : QuoteMark :=
  if head.isSymbol "unquote" then .unquote
  else if head.isSymbol "quasiquote" then .quasiquote
  else if head.isSymbol "unquote-splicing" then .splice
  else .none

mutual

/-- A tree as data, with the parts evaluated that are unquoted at depth one. -/
def quasi (lower : Lowerer) (depth : Nat) : SExpr → Lower Node
  | .symbol name p => return quoted (.symbol name p)
  | .literal value p => return quoted (.literal value p)
  | .list items p =>
    match items with
    | [head, tree] =>
      match QuoteMark.ofHead head with
      | .unquote =>
        if depth = 1 then lowerValue lower tree
        else do
          let inner ← quasi lower (depth - 1) tree
          return (Node.array [quoted head, inner]).place p
      | .quasiquote => do
        let inner ← quasi lower (depth + 1) tree
        return (Node.array [quoted head, inner]).place p
      | .splice =>
        if depth = 1 then Lower.refuse ((Fault.outside "unquote-splicing" .list).place p)
        else do
          let elements ← quasiItems lower depth [head, tree]
          return (Node.array elements).place p
      | .none => do
        let elements ← quasiItems lower depth [head, tree]
        return (Node.array elements).place p
    | items => do
      let elements ← quasiItems lower depth items
      return (Node.array elements).place p

def quasiItems (lower : Lowerer) (depth : Nat) : List SExpr → Lower (List Node)
  | [] => return []
  | item :: rest => do
    let element ← match spliced? item, depth with
      | some tree, 1 => do
        let value ← lowerValue lower tree
        pure (⟨.spread value, item.position⟩ : Node)
      | _, _ => quasi lower depth item
    let elements ← quasiItems lower depth rest
    return element :: elements

end

def lowerQuote (form : Form) : Lower Node :=
  match form.args with
  | [tree] => pure (quoted tree)
  | _ => form.wrongCount 1

def lowerQuasiquote (lower : Lowerer) (form : Form) : Lower Node :=
  match form.args with
  | [tree] => quasi lower 1 tree
  | _ => form.wrongCount 1

end LispLowering.Lowering
