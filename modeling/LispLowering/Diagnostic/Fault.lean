import LispLowering.Diagnostic.Basic

/-!
# Faults of lowering

The causes for which lowering refuses a form, with their wording in one place. A fault may choose its
code; otherwise the code follows from the message.
-/

namespace LispLowering

inductive Home where
  | function
  | loop
  | quasiquote
  | list
  deriving DecidableEq

inductive Linkage where
  | inward
  | outward
  deriving DecidableEq

/-- Why a form cannot be lowered. -/
inductive Fault where
  -- the number and the shape of arguments
  | exactly (form : String) (expected got : Nat)
  | atLeast (form : String) (expected got : Nat)
  | between (form : String) (least most got : Nat)
  | missingPart (form part : String)
  | invalidPart (part form : String) (node : SExpr)
  | outside (form : String) (home : Home)
  -- bindings
  | bindingPairs (form : String)
  | bindingTarget (node : SExpr)
  | assignmentTarget (node : SExpr)
  | skippedKey (key : String)
  | skippedTarget (part : String)
  | parameterMapKey
  -- references and calls
  | memberAccess (name : String)
  | foreignReference (name : String)
  | notCallable (head node : SExpr)
  | methodReceiver (method : String)
  | placeholder (param function : String)
  | restPlaceholder (function : String)
  | tooManyArguments (function : String) (most got : Nat) (extra : List String)
  | missingArgument (param function : String)
  | mapExpected (function : String) (node : SExpr)
  | oneMapExpected (function : String) (got : Nat)
  | alreadyDefined (function : String) (first : Option Position)
  -- branches and exceptions
  | condClause (node : SExpr)
  | elseNotLast
  | repeatedTryClause (name : String)
  | afterTryClause (node : SExpr)
  | tryWithoutClause
  | duplicateDefault
  | switchClause (node : SExpr)
  -- loops
  | recurCount (expected got : Nat)
  | recurPosition
  | loopUnderflow
  | forRange (node : SExpr)
  | iterationBinding (form : String) (node : SExpr)
  | loopBindings (form : String) (node : SExpr)
  -- functions and data
  | asyncForm
  | mapKey (node : SExpr)
  | propertyName (form : String) (node : SExpr)
  -- classes, enumerations and interfaces
  | duplicateParent (className : String)
  | parentClause
  | duplicateConstructor (className : String)
  | classMember (node : SExpr)
  | setterParams (key : String)
  | enumCase (node : SExpr)
  | enumCaseName (node : SExpr)
  | enumCaseValues (name : String)
  | duplicateCase (name enumName : String)
  | mixedCases (enumName : String)
  | interfaceMember (node : SExpr)
  | interfaceMemberName (node : SExpr)
  -- types
  | emptyType
  | typeName (node : SExpr)
  | typeMembers (name : String)
  | typeArity (name : String) (expected got : Nat)
  | typeParamName (name : String) (node : SExpr)
  | typeParamList (node : SExpr)
  -- modules
  | linkage (linkage : Linkage) (node : SExpr)

def Home.text : Home → String
  | .function => "a function"
  | .loop => "a loop"
  | .quasiquote => "quasiquote"
  | .list => "a list"

namespace Fault

def quoted (text : String) : String := "'" ++ text ++ "'"

def argumentCount (n : Nat) : String := Text.decimal n ++ " argument" ++ Text.pluralMark n

def message : Fault → String
  | .exactly form expected got =>
    quoted form ++ " requires exactly " ++ argumentCount expected ++ ", got " ++ Text.decimal got
  | .atLeast form expected got =>
    quoted form ++ " requires at least " ++ argumentCount expected ++ ", got " ++ Text.decimal got
  | .between form least most got =>
    quoted form ++ " requires " ++ Text.decimal least ++ " to " ++ Text.decimal most ++
      " arguments, got " ++ Text.decimal got
  | .missingPart form part => quoted form ++ " requires " ++ part
  | .invalidPart part form node => "Invalid " ++ part ++ " in " ++ quoted form ++ ": " ++ node.text
  | .outside form home => quoted form ++ " used outside of " ++ home.text
  | .bindingPairs form => "Invalid binding list in " ++ quoted form ++ ": expected name/value pairs"
  | .bindingTarget node => "Invalid binding target " ++ quoted node.text
  | .assignmentTarget node => "Invalid assignment target: " ++ node.text
  | .skippedKey key => "Invalid object pattern: '_' cannot bind key " ++ quoted key
  | .skippedTarget part => "Invalid " ++ part ++ ": '_' is not a binding"
  | .parameterMapKey => "Invalid parameter map: keys must be plain names"
  | .memberAccess name => "Invalid member access " ++ quoted name
  | .foreignReference name => "Invalid foreign reference " ++ quoted ("js/" ++ name)
  | .notCallable head node => "Cannot call literal " ++ head.text ++ " in " ++ node.text
  | .methodReceiver method => "Method call " ++ quoted ("." ++ method) ++ " requires a receiver"
  | .placeholder param function =>
    "Placeholder '_' used for parameter " ++ quoted param ++ " of " ++ quoted function ++
      ", which has no default value"
  | .restPlaceholder function =>
    "Placeholder '_' cannot be passed to the rest parameter of " ++ quoted function
  | .tooManyArguments function most got extra =>
    "Too many arguments in call to " ++ quoted function ++ ": expected at most " ++
      Text.decimal most ++ ", got " ++ Text.decimal got ++ " (extra: " ++ ", ".intercalate extra ++
      ")"
  | .missingArgument param function =>
    "Missing required argument " ++ quoted param ++ " in call to " ++ quoted function
  | .mapExpected function node =>
    "Function " ++ quoted function ++ " expects a map literal argument, got " ++ node.text
  | .oneMapExpected function got =>
    "Function " ++ quoted function ++ " takes at most one argument (a parameter map), got " ++
      Text.decimal got
  | .alreadyDefined function first =>
    "Function " ++ quoted function ++ " is already defined" ++
      match first with
      | some p => " (first declared at " ++ p.text ++ ")"
      | none => ""
  | .condClause node => "Invalid cond clause " ++ node.text ++ ": expected (test body...)"
  | .elseNotLast => "Invalid cond: the else clause must come last"
  | .repeatedTryClause name => "Invalid try: unexpected " ++ quoted name ++ " clause"
  | .afterTryClause node => "Invalid try: " ++ node.text ++ " after a catch or finally clause"
  | .tryWithoutClause => "'try' requires a catch or finally clause"
  | .duplicateDefault => "Duplicate default clause in 'switch'"
  | .switchClause node =>
    "Invalid switch clause " ++ node.text ++ ": expected (case value body...) or (default body...)"
  | .recurCount expected got =>
    "'recur' expects " ++ argumentCount expected ++ " to match its loop, got " ++ Text.decimal got
  | .recurPosition => "'recur' must be in tail position of its loop and not inside a try"
  | .loopUnderflow => "loop stack underflow"
  | .forRange node =>
    "Invalid for range " ++ node.text ++
      ": expected (name end), (name start end) or (name start end step)"
  | .iterationBinding form node =>
    "Invalid " ++ quoted form ++ " binding " ++ node.text ++ ": expected (name collection)"
  | .loopBindings form node =>
    "Invalid " ++ quoted form ++ " bindings " ++ node.text ++ ": expected name/value pairs"
  | .asyncForm => "'async' expects fn, fn* or => to follow"
  | .mapKey node => "Invalid map literal: key " ++ node.text ++ " has no value"
  | .propertyName form node =>
    "Invalid property name in " ++ quoted form ++ ": expected a string or symbol, got " ++ node.text
  | .duplicateParent className => "Duplicate extends clause in class " ++ quoted className
  | .parentClause => "Invalid extends clause: expected (extends Base)"
  | .duplicateConstructor className => "Duplicate constructor in class " ++ quoted className
  | .classMember node => "Invalid class member: " ++ node.text
  | .setterParams key => "Invalid setter " ++ quoted key ++ ": expects exactly one parameter"
  | .enumCase node => "Invalid enum case " ++ node.text ++ ": expected (case name ...)"
  | .enumCaseName node => "Invalid enum case name: " ++ node.text
  | .enumCaseValues name =>
    "Invalid enum case " ++ quoted name ++ ": expected one raw value or named associated values"
  | .duplicateCase name enumName => "Duplicate enum case " ++ quoted name ++ " in " ++ quoted enumName
  | .mixedCases enumName =>
    "Invalid enum " ++ quoted enumName ++ ": cases cannot mix raw values and associated values"
  | .interfaceMember node =>
    "Invalid interface member " ++ node.text ++ ": expected (name Type) or (readonly name Type)"
  | .interfaceMemberName node => "Invalid interface member name: " ++ node.text
  | .emptyType => "Invalid type: empty type expression"
  | .typeName node => "Invalid type: expected a type name, got " ++ node.text
  | .typeMembers name => quoted name ++ " type requires at least one member"
  | .typeArity name expected got =>
    quoted name ++ " type requires exactly " ++ argumentCount expected ++ ", got " ++ Text.decimal got
  | .typeParamName name node => "Invalid " ++ quoted name ++ " type: expected a name, got " ++ node.text
  | .typeParamList node => "Invalid function type: expected a parameter list, got " ++ node.text
  | .linkage .inward node => "Invalid import: " ++ node.text
  | .linkage .outward node => "Invalid export: " ++ node.text

def kind : Fault → ErrorKind
  | .notCallable _ _ | .loopUnderflow => .transform
  | .linkage _ _ => .linking
  | _ => .validation

def code? : Fault → Option Nat
  | .exactly _ _ _ | .atLeast _ _ _ | .between _ _ _ _ | .missingPart _ _ | .recurCount _ _ =>
    some Code.formArity
  | .outside _ _ | .elseNotLast | .repeatedTryClause _ | .recurPosition => some Code.misplacedForm
  | .tryWithoutClause | .asyncForm | .setterParams _ | .mixedCases _ => some Code.invalidForm
  | .notCallable _ _ => some Code.notCallable
  | .placeholder _ _ | .restPlaceholder _ => some Code.placeholderWithoutDefault
  | .tooManyArguments _ _ _ _ => some Code.tooManyArguments
  | .missingArgument _ _ => some Code.missingArgument
  | .mapExpected _ _ => some Code.structuredShape
  | .oneMapExpected _ _ => some Code.structuredArity
  | .alreadyDefined _ _ | .duplicateDefault | .duplicateParent _ | .duplicateConstructor _
  | .duplicateCase _ _ => some Code.duplicateDefinition
  | .linkage .inward _ => some Code.invalidImport
  | .linkage .outward _ => some Code.invalidExport
  | _ => none

def place (p : Option Position) (fault : Fault) : Diagnostic :=
  (match fault.code? with
    | some code => Diagnostic.coded fault.kind code fault.message
    | none => Diagnostic.ofMessage fault.kind fault.message).place p

end Fault

end LispLowering
