import LispLowering.Lowering.Form
import LispLowering.Target.Build

/-!
# Statements and values

A lowered form is a statement or an expression, and it may be needed as the other. An expression
becomes a statement by itself. A statement becomes an expression when it is put into a function that
is called on the spot, after its last statement has been made to return its value.
-/

namespace LispLowering.Node

/-! ## Returning a value -/

/-- Several statements in the place of one. -/
def joined (p : Option Position) : List Node → Node
  | [one] => one
  | many => ⟨.block many, p⟩

/-- The name of the only variable of a declaration, if it has a plain name. -/
def onlyVariable? : List Node → Option String
  | [⟨.variableDeclarator id _, _⟩] => id.identifier?
  | _ => none

/-- A declaration, followed by the return of what it declares if that has a name. -/
def thenReturn (node : Node) (name : Option String) : List Node :=
  match name with
  | some name => [node, ⟨.returnStatement (some ((ident name).place node.position)), node.position⟩]
  | none => [node]

mutual

/-- The statements that do what a statement does and return its value. -/
def returning : Node → List Node
  | ⟨.expressionStatement expression, p⟩ => [⟨.returnStatement (some expression), p⟩]
  | ⟨.block body, p⟩ => [⟨.block (returningAll body), p⟩]
  | ⟨.ifStatement test consequent alternate, p⟩ =>
    [⟨.ifStatement test (joined consequent.position (returning consequent))
      (returningOption alternate), p⟩]
  | ⟨.tryStatement block handler finalizer, p⟩ =>
    [⟨.tryStatement (joined block.position (returning block)) (returningHandler handler) finalizer, p⟩]
  | ⟨.functionDeclaration f, p⟩ => thenReturn ⟨.functionDeclaration f, p⟩ f.id
  | ⟨.classDeclaration name parent body, p⟩ =>
    thenReturn ⟨.classDeclaration name parent body, p⟩ (some name)
  | ⟨.enumDeclaration name rawType cases, p⟩ =>
    thenReturn ⟨.enumDeclaration name rawType cases, p⟩ (some name)
  | ⟨.variableDeclaration kind declarations, p⟩ =>
    thenReturn ⟨.variableDeclaration kind declarations, p⟩ (onlyVariable? declarations)
  | node => if node.isStatement then [node] else [⟨.returnStatement (some node), node.position⟩]

/-- A body whose last statement returns its value. -/
def returningAll : List Node → List Node
  | [] => []
  | [last] => returning last
  | node :: next :: rest => node :: returningAll (next :: rest)

def returningOption : Option Node → Option Node
  | none => none
  | some branch => some (joined branch.position (returning branch))

def returningHandler : Option Node → Option Node
  | none => none
  | some ⟨.catchClause param body, p⟩ =>
    some ⟨.catchClause param (joined body.position (returning body)), p⟩
  | some other => some other

end

/-! ## Changing the place -/

def asStatement (node : Node) : Node :=
  if node.isStatement then node else statementOf node

/-- Statements as a value, by a call on the spot. What the statements wait for, the call waits for: it
is awaited if they await, and delegated to if they yield. A generator cannot be an arrow function, so
it is given the enclosing `this`. -/
def wrapped (body : List Node) (suspension : Suspension) (p : Option Position) : Node :=
  if suspension.yields then
    let generator : Function :=
      { id := none, params := [], body, isAsync := suspension.awaits, isGenerator := true,
        isArrow := false, returnType := none, typeParams := [] }
    let callee := (member ((function generator).place p) "call").place p
    let result := (call callee [⟨.thisValue, p⟩]).place p
    ⟨.yield (some result) true, p⟩
  else
    let arrow : Function := { Function.arrow [] body with isAsync := suspension.awaits }
    let result := (call ((function arrow).place p) []).place p
    if suspension.awaits then ⟨.await result, p⟩ else result

/-- A node as a value, given what it waits for. -/
def asExpression (node : Node) (suspension : Suspension) : Node :=
  match node with
  | ⟨.expressionStatement expression, _⟩ => expression
  | ⟨.functionDeclaration f, p⟩ => ⟨.function f, p⟩
  | node =>
    if node.isStatement then wrapped (returning node) suspension node.position else node

end LispLowering.Node

namespace LispLowering.Lowering

/-! ## Lowering into a place -/

/-- Lowers a tree as a value. Only a list can give a statement; a form that stands for nothing is
null. -/
def lowerValue (lower : Lowerer) (node : SExpr) : Lower Node := do
  match node with
  | .list _ p =>
    let (lowered, suspension) ← Lower.inExpression (lower node)
    match lowered with
    | some result => return result.asExpression suspension
    | none => return Node.null.place p
  | _ =>
    match ← lower node with
    | some result => return result.asExpression {}
    | none => return Node.null.place node.position

def lowerValues (lower : Lowerer) (nodes : List SExpr) : Lower (List Node) :=
  Lower.each (lowerValue lower) nodes

def lowerStatement (lower : Lowerer) (node : SExpr) : Lower (Option Node) := do
  return (← lower node).map Node.asStatement

def lowerBody (lower : Lowerer) : List SExpr → Lower (List Node)
  | [] => pure []
  | node :: rest => do
    let first ← lowerStatement lower node
    let others ← lowerBody lower rest
    return first.toList ++ others

/-- Lowers trees as a body whose last form is its value. -/
def lowerReturningBody (lower : Lowerer) (nodes : List SExpr) : Lower (List Node) := do
  return Node.returningAll (← lowerBody lower nodes)

end LispLowering.Lowering
