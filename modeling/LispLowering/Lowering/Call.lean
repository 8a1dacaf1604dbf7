import LispLowering.Lowering.Placement
import LispLowering.Lowering.Reference

/-!
# Calls

A list whose head is not special is a call. A call of a declared function is checked against its
parameters, and missing arguments are completed from its defaults. A call with one number literal goes
through a helper that tries an access by index first.
-/

namespace LispLowering.Lowering

/-! ## Spreads -/

/-- What a spread argument spreads. -/
inductive SpreadTarget where
  | symbol (name : String)
  | form (node : SExpr)

/-- What an argument spreads, if it is a spread: `...xs` or `(... xs)`. -/
def spreadTarget? : SExpr → Option SpreadTarget
  | .symbol name _ => ((Text.stripStart? "..." name).filter fun target => target ≠ "").map .symbol
  | .list [mark, target] _ => if mark.isSymbol "..." then some (.form target) else none
  | _ => none

def isSpread (arg : SExpr) : Bool := (spreadTarget? arg).isSome

def lowerArgument (lower : Lowerer) (arg : SExpr) : Lower Node := do
  match spreadTarget? arg with
  | some (.symbol name) =>
    let target ← Lower.ofExcept (reference name arg.position)
    return ⟨.spread target, arg.position⟩
  | some (.form node) =>
    let target ← lowerValue lower node
    return ⟨.spread target, arg.position⟩
  | none => lowerValue lower arg

def lowerArguments (lower : Lowerer) (args : List SExpr) : Lower (List Node) :=
  Lower.each (lowerArgument lower) args

/-! ## Calls of declared functions -/

/-- An argument that stands for the default of its parameter. -/
def isPlaceholder (arg : SExpr) : Bool := arg.isSymbol "_"

/-- A call of a declared function: its name, what is remembered about it, and the tree of the call. -/
structure DeclaredCall where
  name : String
  entry : FunctionEntry
  node : SExpr

namespace DeclaredCall

variable {α : Type}

/-- Refuses an argument. One without a position is located at the call. -/
def refuseArgument (call : DeclaredCall) (arg : SExpr) (fault : Fault) : Lower α :=
  Lower.refuse (fault.place (arg.position.or call.node.position))

/-- Placeholders stand only for parameters with a default. Further placeholders are surplus arguments,
which a rest parameter does not take. -/
def checkPlaceholders (call : DeclaredCall) : Nat → List SExpr → Lower Unit
  | _, [] => pure ()
  | index, arg :: rest => do
    if isPlaceholder arg then
      match call.entry.positional[index]? with
      | some param =>
        if (call.entry.defaultFor index).isNone then
          call.refuseArgument arg (.placeholder (param.label index) call.name)
      | none =>
        if call.entry.hasRest then call.refuseArgument arg (.restPlaceholder call.name)
    checkPlaceholders call (index + 1) rest

/-- Without a rest parameter there are no surplus arguments. -/
def checkCount (call : DeclaredCall) (args : List SExpr) : Lower Unit := do
  let most := call.entry.positional.length
  match args.drop most with
  | [] => pure ()
  | extra :: rest =>
    if !call.entry.hasRest then
      call.refuseArgument extra
        (.tooManyArguments call.name most args.length ((extra :: rest).map SExpr.text))

/-- The argument for the parameter at `index`. -/
def argumentFor (call : DeclaredCall) (lower : Lowerer) (param : Pattern) (index : Nat)
    (arg : Option SExpr) : Lower Node :=
  match arg with
  | some arg =>
    if isPlaceholder arg then
      match call.entry.defaultFor index with
      | some value => pure value
      | none => call.refuseArgument arg (.placeholder (param.label index) call.name)
    else lowerValue lower arg
  | none =>
    match call.entry.defaultFor index with
    | some value => pure value
    | none =>
      Lower.refuse ((Fault.missingArgument (param.label index) call.name).place call.node.position)

/-- The arguments for the parameters from `index` on, and those that are left. -/
def positionalArguments (call : DeclaredCall) (lower : Lowerer) :
    Nat → List Pattern → List SExpr → Lower (List Node)
  | _, [], args => lowerValues lower args
  | index, param :: params, args => do
    let first ← call.argumentFor lower param index args.head?
    let others ← positionalArguments call lower (index + 1) params args.tail
    return first :: others

def mapArgument (call : DeclaredCall) (lower : Lowerer) : List SExpr → Lower Node
  | [] => pure ((Node.object []).place call.node.position)
  | [arg] =>
    if arg.isForm "hash-map" || arg.isForm "empty-map" then lowerValue lower arg
    else call.refuseArgument arg (.mapExpected call.name arg)
  | first :: second :: rest =>
    call.refuseArgument second
      (.oneMapExpected call.name (first :: second :: rest).length)

/-- The arguments of the call. With a spread their number is not known, and nothing is checked. -/
def arguments (call : DeclaredCall) (lower : Lowerer) (args : List SExpr) : Lower (List Node) := do
  if args.any isSpread then lowerArguments lower args
  else if call.entry.structured then return [← call.mapArgument lower args]
  else
    call.checkPlaceholders 0 args
    call.checkCount args
    call.positionalArguments lower 0 call.entry.positional args

end DeclaredCall

/-! ## Other calls -/

/-- The method of a head `.method`. -/
def methodName? (name : String) : Option String :=
  (Text.stripStart? "." name).filter fun method => method ≠ "" && (Text.stripStart? "." method).isNone

def lowerCallOf (lower : Lowerer) (node : SExpr) (callee : Node) (args : List SExpr) : Lower Node := do
  let p := node.position
  match args with
  | [.literal (.number n) q] =>
    let helper := (Node.ident (← get).options.numericHelper).place p
    return (Node.call helper [callee, (Node.number n).place q]).place p
  | _ =>
    let arguments ← lowerArguments lower args
    return (Node.call callee arguments).place p

def lowerMethodCall (lower : Lowerer) (node : SExpr) (method : String) (args : List SExpr) :
    Lower Node := do
  let p := node.position
  match args with
  | [] => Lower.refuse ((Fault.methodReceiver method).place p)
  | receiver :: rest =>
    let receiver ← lowerValue lower receiver
    let callee := (Node.member receiver (Symbol.property method)).place p
    let arguments ← lowerArguments lower rest
    return (Node.call callee arguments).place p

/-- What is remembered about the function that a head names. Names of enclosing scopes hide declared
functions, and a chain never names one. -/
def declaredFunction? (name : String) : Lower (Option FunctionEntry) := do
  let key := Symbol.identifier name
  if Symbol.isChain name then return none
  else if ← Lower.isLocal key then return none
  else return (← get).registry.get? key

def lowerNamedCall (lower : Lowerer) (node : SExpr) (name : String) (head : Option Position)
    (args : List SExpr) : Lower Node := do
  match methodName? name with
  | some method => lowerMethodCall lower node method args
  | none =>
    match ← declaredFunction? name with
    | some entry =>
      let key := Symbol.identifier name
      let call : DeclaredCall := ⟨key, entry, node⟩
      let arguments ← call.arguments lower args
      return (Node.call ((Node.ident key).place head) arguments).place node.position
    | none =>
      let callee ← Lower.ofExcept (reference name head)
      lowerCallOf lower node callee args

def lowerApplied (lower : Lowerer) (node head : SExpr) (args : List SExpr) : Lower Node := do
  let callee ← lowerValue lower head
  lowerCallOf lower node callee args

end LispLowering.Lowering
