import LispLowering.Lowering.Target

/-!
# Enumerations

The cases of an enumeration have raw values, or associated values, or neither:

    (enum Color (case red) (case green))
    (enum Status:number (case ok 200) (case missing 404))
    (enum Shape (case circle radius:number) (case rect w:number h:number))
-/

namespace LispLowering.Lowering

structure CaseValues where
  raw : Option Node := none
  associated : List Node := []

/-- Lowers what a case carries: one literal, or names. -/
def lowerCaseValues (lower : Lowerer) (form : Form) (clause : SExpr) (name : String)
    (values : List SExpr) : Lower CaseValues := do
  match values with
  | [.literal value p] =>
    let raw ← lowerValue lower (.literal value p)
    return { raw := some raw }
  | values =>
    if values.all fun value => value.symbol?.isSome then
      let associated ← Lower.each (lowerTarget lower) values
      return { associated }
    else form.refusePart clause (.enumCaseValues name)

def lowerCase (lower : Lowerer) (form : Form) (clause : SExpr) : Lower EnumCase := do
  match clause with
  | .list (.symbol "case" _ :: nameNode :: values) p =>
    match nameNode with
    | .symbol name _ =>
      let carried ← lowerCaseValues lower form clause name values
      return ⟨Symbol.property name, carried.raw, carried.associated, p⟩
    | _ => form.refusePart clause (.enumCaseName nameNode)
  | _ => form.refusePart clause (.enumCase clause)

/-- Lowers cases; `seen` holds the names of those before them, which must not come again. -/
def lowerCases (lower : Lowerer) (form : Form) (enumName : String) (seen : List String) :
    List SExpr → Lower (List EnumCase)
  | [] => return []
  | clause :: rest => do
    let one ← lowerCase lower form clause
    if seen.contains one.name then form.refusePart clause (.duplicateCase one.name enumName)
    else
      let others ← lowerCases lower form enumName (one.name :: seen) rest
      return one :: others

/-- Some cases have raw values and others associated values. -/
def isMixed (cases : List EnumCase) : Bool :=
  cases.any (fun one => one.rawValue.isSome) && cases.any (fun one => !one.associated.isEmpty)

/-- The name of an enumeration and the type of its raw values. -/
def splitRawType (declared : String) : String × Option TypeExpr :=
  match Text.divide? ':' declared with
  | some (name, type) =>
    if name ≠ "" ∧ type ≠ "" then (name, some (TypeExpr.ofText type)) else (declared, none)
  | none => (declared, none)

def lowerEnum (lower : Lowerer) (form : Form) : Lower Node := do
  let declared ← form.symbolIn "an enum name" form.args.head?
  let (name, rawType) := splitRawType declared
  let cases ← lowerCases lower form name [] form.args.tail
  if isMixed cases then form.refuse (.mixedCases name)
  else return Node.of (.enumDeclaration (Symbol.identifier name) rawType cases)

end LispLowering.Lowering
