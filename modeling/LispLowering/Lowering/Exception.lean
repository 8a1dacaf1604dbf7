import LispLowering.Lowering.Target

/-!
# Exceptions

`(try body... (catch e handler...) (finally cleanup...))`: the body ends where the first clause
starts, and after that only clauses follow, a `catch` before a `finally`.
-/

namespace LispLowering.Lowering

def lowerThrow (lower : Lowerer) (form : Form) : Lower Node := do
  match form.args with
  | [arg] =>
    let argument ← lowerValue lower arg
    return Node.throw argument
  | _ => form.wrongCount 1

def isTryClause (node : SExpr) : Bool := node.isForm "catch" || node.isForm "finally"

/-- Lowers a body in a scope of its own, in which a target is bound if there is one. -/
def lowerScopedBody (lower : Lowerer) (target : Option Node) (body : List SExpr) : Lower (List Node) :=
  Lower.inScope [] do
    match target with
    | some target => Lower.bind target
    | none => pure ()
    lowerBody lower body

/-- Lowers what follows the head of a `catch` clause. A leading symbol names what is caught. -/
def lowerCatch (lower : Lowerer) (p : Option Position) (parts : List SExpr) : Lower Node := do
  match parts with
  | .symbol name q :: body =>
    let param ← lowerTarget lower (.symbol name q)
    let body ← lowerScopedBody lower (some param) body
    return ⟨.catchClause (some param) (Node.block body), p⟩
  | body =>
    let body ← lowerScopedBody lower none body
    return ⟨.catchClause none (Node.block body), p⟩

/-- The clauses of `try` that were lowered so far. -/
structure TryClauses where
  handler : Option Node := none
  finalizer : Option Node := none

def lowerTryClauses (lower : Lowerer) (form : Form) (clauses : TryClauses) :
    List SExpr → Lower TryClauses
  | [] => return clauses
  | clause :: rest => do
    match clause with
    | .list (.symbol "catch" _ :: parts) p =>
      if clauses.handler.isSome || clauses.finalizer.isSome then
        form.refusePart clause (.repeatedTryClause "catch")
      else
        let handler ← lowerCatch lower p parts
        lowerTryClauses lower form { clauses with handler := some handler } rest
    | .list (.symbol "finally" _ :: body) p =>
      if clauses.finalizer.isSome then form.refusePart clause (.repeatedTryClause "finally")
      else
        let body ← lowerBody lower body
        let finalizer := (Node.block body).place p
        lowerTryClauses lower form { clauses with finalizer := some finalizer } rest
    | _ => form.refusePart clause (.afterTryClause clause)

def lowerTry (lower : Lowerer) (form : Form) : Lower Node := do
  let body ← lowerBody lower (form.args.takeWhile fun arg => !isTryClause arg)
  let clauses ← lowerTryClauses lower form {} (form.args.dropWhile fun arg => !isTryClause arg)
  if clauses.handler.isNone && clauses.finalizer.isNone then form.refuse .tryWithoutClause
  else return Node.of (.tryStatement (Node.block body) clauses.handler clauses.finalizer)

end LispLowering.Lowering
