import LispLowering.Lowering.Call
import LispLowering.Lowering.Target

/-!
# Access to the host

Forms that read, write and call properties. The names of properties are kept as they are written.
-/

namespace LispLowering.Lowering

/-- Access to a property, by name where the name allows it and by its text otherwise. -/
def propertyAccess (object : Node) (name : String) (p : Option Position) : Node :=
  if name ≠ "" ∧ Node.isPropertyName name then (Node.member object name).place p
  else (Node.index object ((Node.string name).place p)).place p

/-- The name of a property: a string, a keyword or a plain symbol. -/
def propertyKey (form : Form) (arg : SExpr) : Lower String :=
  match arg with
  | .literal (.string name) _ => pure name
  | .symbol name _ => pure ((Symbol.keyword? name).getD name)
  | arg => form.refusePart arg (.propertyName form.name arg)

/-- `js-call` and `method-call`. -/
def lowerPropertyCall (lower : Lowerer) (form : Form) : Lower Node := do
  match form.args with
  | receiver :: name :: args =>
    let receiver ← lowerValue lower receiver
    let name ← propertyKey form name
    let arguments ← lowerArguments lower args
    return Node.call (propertyAccess receiver name form.position) arguments
  | _ => form.tooFew 2

/-- `js-get`. -/
def lowerPropertyGet (lower : Lowerer) (form : Form) : Lower Node := do
  match form.args with
  | [object, name] =>
    let object ← lowerValue lower object
    let name ← propertyKey form name
    return propertyAccess object name form.position
  | _ => form.wrongCount 2

/-- `js-set`. -/
def lowerPropertySet (lower : Lowerer) (form : Form) : Lower Node := do
  match form.args with
  | [object, name, value] =>
    let object ← lowerValue lower object
    let name ← propertyKey form name
    let value ← lowerValue lower value
    return Node.assign (propertyAccess object name form.position) value
  | _ => form.wrongCount 3

/-- Statements that call a property if it is a function and read it otherwise. The object is
evaluated once. -/
def getInvokeStatements (object : Node) (name receiverName memberName : String)
    (p : Option Position) : List Node :=
  let receiver := (Node.ident receiverName).place p
  let member := (Node.ident memberName).place p
  let isFunction := (Node.binary .strictEq ((Node.unary .typeOf member).place p)
    ((Node.string "function").place p)).place p
  let called := (Node.call ((Node.member member "call").place p) [receiver]).place p
  [(Node.declareFixed receiver object).place p,
   (Node.declareFixed member (propertyAccess receiver name p)).place p,
   ⟨.returnStatement (some ((Node.conditional isFunction called member).place p)), p⟩]

/-- `js-get-invoke`. -/
def lowerGetInvoke (lower : Lowerer) (form : Form) : Lower Node := do
  match form.args with
  | [object, name] =>
    let (object, suspension) ← Lower.tracking (lowerValue lower object)
    let name ← propertyKey form name
    let receiverName ← Lower.fresh "receiver"
    let memberName ← Lower.fresh "member"
    let p := form.position
    return Node.wrapped (getInvokeStatements object name receiverName memberName p) suspension p
  | _ => form.wrongCount 2

end LispLowering.Lowering
