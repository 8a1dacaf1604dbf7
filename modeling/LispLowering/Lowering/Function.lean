import LispLowering.Lowering.Target
import LispLowering.TypeSyntax.Generics

/-!
# Functions

A function is lowered in a state of its own, and a named one is remembered for later calls. A `return`
inside a wrapped expression cannot leave the function directly: it throws a marked object, and the
body of the function catches it.
-/

namespace LispLowering.Lowering

/-! ## Building a function -/

/-- What a function is made of. -/
structure FunctionSpec where
  name : Option String := none
  typeParams : List String := []
  params : ParamList
  returnType : Option TypeExpr := none
  body : List SExpr
  isAsync : Bool := false
  isGenerator : Bool := false
  isArrow : Bool := false
  /-- The function is remembered for later calls. -/
  isDeclared : Bool := false
  /-- The last form of the body is the value of the function. -/
  returnsLast : Bool := true
  position : Option Position

/-- Lowers the parameters from the one at `index` on. A skipped parameter gets a name by number. -/
def lowerParamTargets (lower : Lowerer) : Nat → List Pattern → Lower (List Node)
  | _, [] => return []
  | index, param :: rest => do
    let target := (← param.lower (lowerValue lower)).getD
      ((Node.ident ("__unused_" ++ Text.decimal index)).place param.position)
    let targets ← lowerParamTargets lower (index + 1) rest
    return target :: targets

def defaultOf? (target : Node) : Option Node :=
  match target.kind with
  | .assignmentPattern _ default => some default
  | _ => none

/-- The defaults of lowered parameters from the one at `index` on, under the keys of the parameters. -/
def defaultsFrom : Nat → List (Pattern × Node) → Table Node → Table Node
  | _, [], table => table
  | index, (param, target) :: rest, table =>
    defaultsFrom (index + 1) rest <|
      match defaultOf? target with
      | some default => table.insert (param.key index) default
      | none => table

def paramEntry (p : Option Position) : Pattern × Node → Lower Node
  | (param, target) =>
    match param.name? with
    | some name => pure (Node.keyed (Symbol.identifier name) target)
    | none => Lower.refuse (Fault.parameterMapKey.place (param.position.or p))

/-- The parameters of the target. A parameter map becomes a single object with a default. -/
def shapeParams (list : ParamList) (p : Option Position) (targets : List Node) : Lower (List Node) := do
  if list.structured then
    let entries ← Lower.each (paramEntry p) (list.params.zip targets)
    let object : Node := ⟨.objectPattern entries, p⟩
    return [⟨.assignmentPattern object (Node.object []), p⟩]
  else return targets

/-- Declares a function. A declaration that is refused counts as tried, too. -/
def declareFunction (name : String) (entry : FunctionEntry) : Lower Unit := fun c =>
  let declarations := c.declarations ++ [(name, entry)]
  match c.registry.declare name entry with
  | .ok registry => .ok () { c with registry, declarations }
  | .error d => .error d { c with declarations }

/-- The variable that a thrown object is caught in. -/
def caughtName : String := "__sprig_escape"

/-- A body that catches the objects thrown for an early return and returns their values. -/
def catchEarlyReturn (key : String) (p : Option Position) (body : List Node) : List Node :=
  let caught := (Node.ident caughtName).place p
  let mark := (Node.index caught ((Node.string key).place p)).place p
  let marked := (Node.logical .and caught mark).place p
  let value := (Node.member caught "value").place p
  let leave : Node := ⟨.returnStatement (some value), p⟩
  let handling := (Node.block
    [⟨.ifStatement marked leave none, p⟩, ⟨.throwStatement caught, p⟩]).place p
  let handler : Node := ⟨.catchClause (some caught) handling, p⟩
  [⟨.tryStatement ((Node.block body).place p) (some handler) none, p⟩]

/-- Lowers a function. It is remembered after its parameters and before its body. -/
def buildFunction (lower : Lowerer) (spec : FunctionSpec) : Lower Function := do
  let p := spec.position
  let targets ← lowerParamTargets lower 0 spec.params.params
  let params ← shapeParams spec.params p targets
  match spec.name with
  | some name =>
    if spec.isDeclared then
      declareFunction (Symbol.identifier name)
        { params := spec.params.params
          defaults := defaultsFrom 0 (spec.params.params.zip targets) []
          structured := spec.params.structured
          body := spec.body
          position := p }
  | none => pure ()
  let (body, leftEarly) ← Lower.inFunction <|
    Lower.inScope (params.flatMap Node.boundNames) <|
      if spec.returnsLast then lowerReturningBody lower spec.body else lowerBody lower spec.body
  let key := (← get).options.earlyReturnKey
  return {
    id := spec.name.map Symbol.identifier
    params
    body := if leftEarly then catchEarlyReturn key p body else body
    isAsync := spec.isAsync
    isGenerator := spec.isGenerator
    isArrow := spec.isArrow
    returnType := spec.returnType
    typeParams := spec.typeParams }

/-! ## Forms -/

/-- The return type in front of a body, written as `:Type`. -/
def splitReturnType : List SExpr → Option TypeExpr × List SExpr
  | .symbol name p :: rest =>
    match (Text.stripStart? ":" name).filter fun type => type ≠ "" with
    | some type => (some (TypeExpr.ofText type), rest)
    | none => (none, .symbol name p :: rest)
  | body => (none, body)

/-- A function with a name if it has one: its parameter list, its return type and its body. -/
def lowerFunctionParts (lower : Lowerer) (form : Form) (isAsync isGenerator : Bool)
    (name : Option GenericName) (parts : List SExpr) : Lower Node := do
  match parts with
  | [] => form.refuse (.missingPart form.name "a parameter list")
  | params :: body =>
    let (returnType, body) := splitReturnType body
    let params ← Lower.ofSyntax (ParamList.read params)
    let function ← buildFunction lower
      { name := name.map GenericName.name
        typeParams := (name.map GenericName.params).getD []
        params, returnType, body, isAsync, isGenerator
        isDeclared := name.isSome
        position := form.position }
    return ⟨if name.isSome then .functionDeclaration function else .function function, form.position⟩

/-- `fn` and `fn*`. -/
def lowerFunction (lower : Lowerer) (form : Form) (isAsync isGenerator : Bool) : Lower Node :=
  match form.args with
  | [] => form.tooFew 1
  | .symbol name _ :: parts =>
    lowerFunctionParts lower form isAsync isGenerator (some (GenericName.ofSymbol name)) parts
  | parts => lowerFunctionParts lower form isAsync isGenerator none parts

/-- A natural number below `2 ^ 64` in decimal digits; a plus sign may stand in front. -/
def wordNumber? (text : List Char) : Option Nat :=
  let digits := match text with
    | '+' :: rest => rest
    | text => text
  if digits.isEmpty || !digits.all Char.isDigit then none
  else
    let n := Binary64.digitsValue digits
    if n < Nat.pow 2 64 then some n else none

/-- The number of an implicit parameter, which is written as `$` with the number. Members of it may
follow. -/
def implicitIndex? (name : String) : Option Nat :=
  match name.toList.takeWhile fun c => c != '.' && c != '?' with
  | '$' :: digits => wordNumber? digits
  | _ => none

def isArrowList (items : List SExpr) : Bool :=
  match items with
  | head :: _ => head.isSymbol "=>"
  | [] => false

mutual

/-- One more than the largest number of an implicit parameter in a tree, not looking into arrow
functions. -/
def implicitCount : SExpr → Nat
  | .symbol name _ => ((implicitIndex? name).map (· + 1)).getD 0
  | .literal _ _ => 0
  | .list items _ => if isArrowList items then 0 else implicitCounts items

def implicitCounts : List SExpr → Nat
  | [] => 0
  | node :: rest => max (implicitCount node) (implicitCounts rest)

end

/-- How many implicit parameters an arrow function with the given body has. The number is a word of
64 bits, so behind the last one it starts again from zero. -/
def implicitArity (body : List SExpr) : Nat := implicitCounts body % Nat.pow 2 64

def implicitParams (count : Nat) : List Pattern :=
  (List.range count).map fun index => ⟨.identifier ("$" ++ Text.decimal index) none, none, none⟩

def arrowOf (lower : Lowerer) (form : Form) (isAsync : Bool) (params : ParamList)
    (body : List SExpr) : Lower Node := do
  let function ← buildFunction lower
    { params, body, isAsync, isArrow := true, position := form.position }
  return ⟨.function function, form.position⟩

/-- The first of several parts is a vector of parameters. -/
def hasParamVector : List SExpr → Bool
  | first :: _ :: _ => first.isForm "vector" || first.isForm "empty-array"
  | _ => false

/-- `=>`, with a vector of parameters and a body, or with a body alone that uses implicit
parameters. -/
def lowerArrow (lower : Lowerer) (form : Form) (isAsync : Bool) : Lower Node := do
  match form.args with
  | [] => form.tooFew 1
  | first :: rest =>
    if hasParamVector (first :: rest) then
      let params ← Lower.ofSyntax (ParamList.read first)
      arrowOf lower form isAsync params rest
    else
      let params := implicitParams (implicitArity (first :: rest))
      arrowOf lower form isAsync ⟨params, false⟩ (first :: rest)

/-- An async function, given its head and its arguments. Faults of the function are those of the
function form. -/
def lowerAsyncTarget (lower : Lowerer) (form : Form) (head : String) (args : List SExpr) : Lower Node :=
  let inner : Form := ⟨form.node, head, args⟩
  match head with
  | "fn" => lowerFunction lower inner true false
  | "fn*" => lowerFunction lower inner true true
  | "=>" => lowerArrow lower inner true
  | _ => form.refuse .asyncForm

def lowerAsync (lower : Lowerer) (form : Form) : Lower Node :=
  match form.args with
  | [] => form.tooFew 1
  | .symbol head _ :: args => lowerAsyncTarget lower form head args
  | [.list (.symbol head _ :: args) _] => lowerAsyncTarget lower form head args
  | _ => form.refuse .asyncForm

/-! ## Leaving and suspending -/

/-- The object that is thrown to leave a function from within a wrapped expression. -/
def earlyReturnMarker (key : String) (value : Node) (p : Option Position) : Node :=
  (Node.object [(Node.property key ((Node.bool true).place p)).place p,
     (Node.property "value" value).place p]).place p

def lowerReturnOf (lower : Lowerer) (form : Form) (arg : Option SExpr) : Lower Node := do
  if (← get).functionDepth = 0 then form.refuse (.outside "return" .function)
  else
    let value ← Lower.option (lowerValue lower) arg
    let context ← get
    if context.wrapperDepth = 0 then return Node.return? value
    else
      set { context with earlyReturn := true }
      let value := value.getD (Node.undefined.place form.position)
      return Node.throw (earlyReturnMarker context.options.earlyReturnKey value form.position)

def lowerReturn (lower : Lowerer) (form : Form) : Lower Node :=
  match form.args with
  | [] => lowerReturnOf lower form none
  | [arg] => lowerReturnOf lower form (some arg)
  | _ => form.outOfRange 0 1

def lowerYieldOf (lower : Lowerer) (form : Form) (delegate : Bool) (arg : Option SExpr) :
    Lower Node := do
  if (← get).functionDepth = 0 then form.refuse (.outside form.name .function)
  else
    let argument ← Lower.option (lowerValue lower) arg
    Lower.noteYield
    return Node.of (.yield argument delegate)

def lowerYield (lower : Lowerer) (form : Form) (delegate : Bool) : Lower Node :=
  match form.args with
  | [] => if delegate then form.wrongCount 1 else lowerYieldOf lower form delegate none
  | [arg] => lowerYieldOf lower form delegate (some arg)
  | _ => if delegate then form.wrongCount 1 else form.outOfRange 0 1

def lowerAwait (lower : Lowerer) (form : Form) : Lower Node := do
  match form.args with
  | [arg] =>
    let argument ← lowerValue lower arg
    Lower.noteAwait
    return Node.of (.await argument)
  | _ => form.wrongCount 1

end LispLowering.Lowering
