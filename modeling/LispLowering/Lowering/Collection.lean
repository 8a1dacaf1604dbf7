import LispLowering.Lowering.Call
import LispLowering.Lowering.Target

/-!
# Collections and templates
-/

namespace LispLowering.Lowering

def lowerVector (lower : Lowerer) (form : Form) : Lower Node := do
  return Node.array (← lowerArguments lower form.args)

def newSet (arguments : List Node) : Node := Node.of (.construct (Node.ident "Set") arguments)

/-- `hash-set`. -/
def lowerSet (lower : Lowerer) (form : Form) : Lower Node := do
  let elements ← lowerArguments lower form.args
  return newSet [Node.array elements]

/-- A collection without elements takes no arguments. -/
def lowerEmpty (form : Form) (node : Node) : Lower Node :=
  match form.args with
  | [] => pure node
  | _ => form.wrongCount 0

/-- `...` as a form of its own. -/
def lowerSpread (lower : Lowerer) (form : Form) : Lower Node := do
  match form.args with
  | [arg] =>
    let argument ← lowerValue lower arg
    return Node.spread argument
  | _ => form.wrongCount 1

/-! ## Maps -/

/-- The name of a property that a key gives directly: a string or a keyword. -/
def directKey? (key : SExpr) : Option String :=
  match key with
  | .literal (.string name) _ => some name
  | .symbol name _ => Symbol.keyword? name
  | _ => none

/-- Lowers an entry of a map. A key that is no name is evaluated, after the value. -/
def lowerEntry (lower : Lowerer) (key value : SExpr) : Lower Node := do
  let value ← lowerValue lower value
  match directKey? key with
  | some name => return (Node.keyed name value).orPlace key.position
  | none =>
    let keyNode ← lowerValue lower key
    return ⟨.property keyNode value true false, key.position⟩

/-- Lowers the entries of a map; spreads stand alone among them. -/
def lowerEntries (lower : Lowerer) (form : Form) : List SExpr → Lower (List Node)
  | [] => return []
  | [last] => do
    if isSpread last then return [← lowerArgument lower last]
    else form.refusePart last (.mapKey last)
  | first :: second :: rest => do
    if isSpread first then
      let entry ← lowerArgument lower first
      let entries ← lowerEntries lower form (second :: rest)
      return entry :: entries
    else
      let entry ← lowerEntry lower first second
      let entries ← lowerEntries lower form rest
      return entry :: entries

/-- `hash-map`. -/
def lowerMap (lower : Lowerer) (form : Form) : Lower Node := do
  return Node.object (← lowerEntries lower form form.args)

/-! ## Access and construction -/

/-- `get`, with a fallback or without one. -/
def lowerGet (lower : Lowerer) (form : Form) : Lower Node := do
  match form.args with
  | [object, key] =>
    let object ← lowerValue lower object
    let key ← lowerValue lower key
    return Node.index object key
  | [object, key, fallback] =>
    let object ← lowerValue lower object
    let key ← lowerValue lower key
    let fallback ← lowerValue lower fallback
    return Node.logical .nullish ((Node.index object key).place form.position) fallback
  | _ => form.outOfRange 2 3

/-- `new` and `js-new`. -/
def lowerConstruct (lower : Lowerer) (form : Form) : Lower Node := do
  match form.args with
  | [] => form.tooFew 1
  | callee :: args =>
    let callee ← lowerValue lower callee
    let arguments ← lowerArguments lower args
    return Node.of (.construct callee arguments)

/-! ## Templates -/

/-- A template: a text, and expressions with the text that follows each of them. -/
structure Template where
  start : String
  rest : List (Node × String)

def Template.node (template : Template) : Node :=
  Node.of (.templateLiteral (template.start :: template.rest.map Prod.snd) (template.rest.map Prod.fst))

/-- Lowers the parts of a template. Neighbouring texts are joined. -/
def lowerTemplateParts (lower : Lowerer) : List SExpr → Lower Template
  | [] => return ⟨"", []⟩
  | .literal (.string text) _ :: parts => do
    let template ← lowerTemplateParts lower parts
    return { template with start := text ++ template.start }
  | part :: parts => do
    let expression ← lowerValue lower part
    let template ← lowerTemplateParts lower parts
    return ⟨"", (expression, template.start) :: template.rest⟩

def lowerTemplate (lower : Lowerer) (form : Form) : Lower Node := do
  return (← lowerTemplateParts lower form.args).node

end LispLowering.Lowering
