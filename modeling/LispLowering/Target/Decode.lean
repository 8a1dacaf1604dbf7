import LispLowering.Json.Basic
import LispLowering.Target.Node

/-!
# Reading target programs from JSON

The inverse of the JSON form. A record may be an object or the array of its fields in their order.
Fields that are not known are passed over. A missing field of an object counts as absent where
absence is possible; an array may only leave out positions and files, which come last. A shape without
parts may also be written as an object that holds null.
-/

namespace LispLowering.Decode

/-! ## Records and shapes -/

/-- What a record says about one of its fields: nothing, that it ended before, or a value. -/
inductive Field where
  | missing
  | ended
  | given (value : Json)

/-- The fields of a record with the names `names`. -/
def record (names : List String) : Json → Option (String → Field)
  | .obj members => some fun name => ((Json.lookup name members).map Field.given).getD .missing
  | .arr items =>
    if items.length ≤ names.length then
      some fun name => (((names.zip items).lookup name).map Field.given).getD .ended
    else none
  | _ => none

/-- The fields of a shape, which are always written as an object. -/
def parts : Json → Option (String → Field)
  | .obj members => some fun name => ((Json.lookup name members).map Field.given).getD .missing
  | _ => none

def required {α : Type} (read : Json → Option α) : Field → Option α
  | .given value => read value
  | _ => none

/-- A value, or none for null. -/
def nullable {α : Type} (read : Json → Option α) : Json → Option (Option α)
  | .null => some none
  | value => (read value).map some

/-- A field that an object may leave out. -/
def optional {α : Type} (read : Json → Option α) : Field → Option (Option α)
  | .given value => nullable read value
  | .missing => some none
  | .ended => none

/-- A field that an object and an array may leave out. -/
def omissible {α : Type} (read : Json → Option α) : Field → Option (Option α)
  | .given value => nullable read value
  | _ => some none

def each {α : Type} (read : Json → Option α) : List Json → Option (List α)
  | [] => some []
  | item :: rest => do
    let first ← read item
    let others ← each read rest
    return first :: others

def listOf {α : Type} (read : Json → Option α) : Json → Option (List α)
  | .arr items => each read items
  | _ => none

/-- The name of a shape and what it consists of. An object has to have a single member. -/
def shape : Json → Option (String × Option Json)
  | .str name => some (name, none)
  | .obj members =>
    match Json.names members with
    | [name] => some (name, Json.lookup name members)
    | _ => none
  | _ => none

/-- One of several values that are written as their names. -/
def choice {α : Type} (name : α → String) (all : List α) (value : Json) : Option α :=
  match shape value with
  | some (found, none) => all.find? fun one => name one = found
  | some (found, some .null) => all.find? fun one => name one = found
  | _ => none

/-! ## Leaves -/

def binaryOp : Json → Option BinaryOp := choice BinaryOp.name BinaryOp.all

def logicalOp : Json → Option LogicalOp := choice LogicalOp.name LogicalOp.all

def unaryOp : Json → Option UnaryOp := choice UnaryOp.name UnaryOp.all

def variableKind : Json → Option VariableKind := choice VariableKind.name VariableKind.all

def methodKind : Json → Option MethodKind := choice MethodKind.name MethodKind.all

def position (value : Json) : Option Position := do
  let field ← record ["line", "column", "file"] value
  return {
    line := ← required Json.index? (field "line")
    column := ← required Json.index? (field "column")
    file := ← omissible Json.text? (field "file") }

def literal (value : Json) : Option Literal :=
  match shape value with
  | some ("Null", none) => some .null
  | some ("Null", some .null) => some .null
  | some ("Bool", some content) => content.bool?.map .bool
  | some ("Number", some content) => content.number?.map .number
  | some ("String", some content) => content.text?.map .string
  | _ => none

def typeLiteral (value : Json) : Option TypeLiteral :=
  match shape value with
  | some ("String", some content) => content.text?.map .string
  | some ("Number", some content) => content.number?.map .number
  | some ("Bool", some content) => content.bool?.map .bool
  | _ => none

/-! ## Types -/

def typeParamWith (type : Json → Option TypeExpr) (value : Json) : Option TypeParam := do
  let field ← record ["name", "ty"] value
  return ⟨← required Json.text? (field "name"), ← required type (field "ty")⟩

/-- A type expression, given how the types inside it are read. -/
def typeWith (type : Json → Option TypeExpr) (value : Json) : Option TypeExpr := do
  let (name, content) ← shape value
  let content ← content
  match name with
  | "Reference" =>
    let field ← parts content
    return .reference (← required Json.text? (field "name"))
      (← required (listOf type) (field "args"))
  | "Literal" => return .literal (← typeLiteral content)
  | "Union" => return .union (← listOf type content)
  | "Intersection" => return .intersection (← listOf type content)
  | "Keyof" => return .keyof (← type content)
  | "IndexedAccess" =>
    let field ← parts content
    return .indexedAccess (← required type (field "object")) (← required type (field "index"))
  | "Conditional" =>
    let field ← parts content
    return .conditional (← required type (field "check")) (← required type (field "extends"))
      (← required type (field "true_type")) (← required type (field "false_type"))
  | "Tuple" => return .tuple (← listOf type content)
  | "Array" => return .array (← type content)
  | "Readonly" => return .readonly (← type content)
  | "Infer" => return .infer (← content.text?)
  | "Typeof" => return .typeof (← content.text?)
  | "Mapped" =>
    let field ← parts content
    return .mapped (← required Json.text? (field "param")) (← required type (field "constraint"))
      (← required type (field "value"))
  | "Function" =>
    let field ← parts content
    return .function (← required (listOf (typeParamWith type)) (field "params"))
      (← required type (field "return_type"))
  | "Rest" => return .spread (← type content)
  | "Raw" => return .raw (← content.text?)
  | _ => none

def typeWithin : Nat → Json → Option TypeExpr
  | 0 => fun _ => none
  | fuel + 1 => typeWith (typeWithin fuel)

/-- A type expression. The types inside it are nested less deep. -/
def typeExpr (value : Json) : Option TypeExpr := typeWithin value.depth value

def interfaceMember (value : Json) : Option InterfaceMember := do
  let field ← record ["key", "ty", "optional", "readonly"] value
  return {
    key := ← required Json.text? (field "key")
    type := ← required typeExpr (field "ty")
    optional := ← required Json.bool? (field "optional")
    readonly := ← required Json.bool? (field "readonly") }

/-! ## Nodes -/

def texts : Json → Option (List String) := listOf Json.text?

def functionWith (node : Json → Option Node) (value : Json) : Option Function := do
  let field ← record
    ["id", "params", "body", "is_async", "is_generator", "is_arrow", "return_type", "type_params"]
    value
  return {
    id := ← optional Json.text? (field "id")
    params := ← required (listOf node) (field "params")
    body := ← required (listOf node) (field "body")
    isAsync := ← required Json.bool? (field "is_async")
    isGenerator := ← required Json.bool? (field "is_generator")
    isArrow := ← required Json.bool? (field "is_arrow")
    returnType := ← optional typeExpr (field "return_type")
    typeParams := ← required texts (field "type_params") }

def enumCaseWith (node : Json → Option Node) (value : Json) : Option EnumCase := do
  let field ← record ["name", "raw_value", "associated", "position"] value
  return {
    name := ← required Json.text? (field "name")
    rawValue := ← optional node (field "raw_value")
    associated := ← required (listOf node) (field "associated")
    position := ← omissible position (field "position") }

/-- The shape of an expression or a pattern, given how the nodes inside it are read. -/
def expressionWith (node : Json → Option Node) (name : String) (content : Json) : Option NodeKind := do
  match name with
  | "Identifier" =>
    let field ← parts content
    return .identifier (← required Json.text? (field "name"))
      (← optional typeExpr (field "type_annotation"))
  | "Literal" => return .literal (← literal content)
  | "TemplateLiteral" =>
    let field ← parts content
    return .templateLiteral (← required texts (field "quasis"))
      (← required (listOf node) (field "expressions"))
  | "Array" => return .array (← listOf node content)
  | "Object" => return .object (← listOf node content)
  | "Property" =>
    let field ← parts content
    return .property (← required node (field "key")) (← required node (field "value"))
      (← required Json.bool? (field "computed")) (← required Json.bool? (field "shorthand"))
  | "Spread" => return .spread (← node content)
  | "Call" =>
    let field ← parts content
    return .call (← required node (field "callee")) (← required (listOf node) (field "arguments"))
      (← required Json.bool? (field "optional"))
  | "New" =>
    let field ← parts content
    return .construct (← required node (field "callee"))
      (← required (listOf node) (field "arguments"))
  | "Member" =>
    let field ← parts content
    return .member (← required node (field "object")) (← required node (field "property"))
      (← required Json.bool? (field "computed"))
  | "OptionalMember" =>
    let field ← parts content
    return .optionalMember (← required node (field "object")) (← required node (field "property"))
      (← required Json.bool? (field "computed")) (← required Json.bool? (field "optional"))
  | "Binary" =>
    let field ← parts content
    return .binary (← required binaryOp (field "operator")) (← required node (field "left"))
      (← required node (field "right"))
  | "Logical" =>
    let field ← parts content
    return .logical (← required logicalOp (field "operator")) (← required node (field "left"))
      (← required node (field "right"))
  | "Unary" =>
    let field ← parts content
    return .unary (← required unaryOp (field "operator")) (← required node (field "argument"))
  | "Conditional" =>
    let field ← parts content
    return .conditional (← required node (field "test")) (← required node (field "consequent"))
      (← required node (field "alternate"))
  | "Assignment" =>
    let field ← parts content
    return .assignment (← required node (field "target")) (← required node (field "value"))
  | "Function" => return .function (← functionWith node content)
  | "Await" => return .await (← node content)
  | "Yield" =>
    let field ← parts content
    return .yield (← optional node (field "argument")) (← required Json.bool? (field "delegate"))
  | "As" =>
    let field ← parts content
    return .typeAssertion (← required node (field "expression")) (← required typeExpr (field "ty"))
  | "ImportExpression" => return .importExpression (← node content)
  | "ArrayPattern" => return .arrayPattern (← listOf (nullable node) content)
  | "ObjectPattern" => return .objectPattern (← listOf node content)
  | "AssignmentPattern" =>
    let field ← parts content
    return .assignmentPattern (← required node (field "target")) (← required node (field "default"))
  | "RestElement" => return .restElement (← node content)
  | _ => none

def statementWith (node : Json → Option Node) (name : String) (content : Json) : Option NodeKind := do
  match name with
  | "ExpressionStatement" => return .expressionStatement (← node content)
  | "Block" => return .block (← listOf node content)
  | "VariableDeclaration" =>
    let field ← parts content
    return .variableDeclaration (← required variableKind (field "kind"))
      (← required (listOf node) (field "declarations"))
  | "VariableDeclarator" =>
    let field ← parts content
    return .variableDeclarator (← required node (field "id")) (← optional node (field "init"))
  | "FunctionDeclaration" => return .functionDeclaration (← functionWith node content)
  | "Return" => return .returnStatement (← nullable node content)
  | "If" =>
    let field ← parts content
    return .ifStatement (← required node (field "test")) (← required node (field "consequent"))
      (← optional node (field "alternate"))
  | "Throw" => return .throwStatement (← node content)
  | "Try" =>
    let field ← parts content
    return .tryStatement (← required node (field "block")) (← optional node (field "handler"))
      (← optional node (field "finalizer"))
  | "CatchClause" =>
    let field ← parts content
    return .catchClause (← optional node (field "param")) (← required node (field "body"))
  | "While" =>
    let field ← parts content
    return .whileLoop (← required node (field "test")) (← required node (field "body"))
  | "For" =>
    let field ← parts content
    return .forLoop (← optional node (field "init")) (← optional node (field "test"))
      (← optional node (field "update")) (← required node (field "body"))
  | "ForOf" =>
    let field ← parts content
    return .forOf (← required node (field "left")) (← required node (field "right"))
      (← required node (field "body")) (← required Json.bool? (field "is_await"))
  | "ForIn" =>
    let field ← parts content
    return .forIn (← required node (field "left")) (← required node (field "right"))
      (← required node (field "body"))
  | "Break" => return .breakStatement (← nullable Json.text? content)
  | "Continue" => return .continueStatement (← nullable Json.text? content)
  | "Labeled" =>
    let field ← parts content
    return .labeled (← required Json.text? (field "label")) (← required node (field "body"))
  | "Switch" =>
    let field ← parts content
    return .switchStatement (← required node (field "discriminant"))
      (← required (listOf node) (field "cases"))
  | "SwitchCase" =>
    let field ← parts content
    return .switchCase (← optional node (field "test"))
      (← required (listOf node) (field "consequent"))
  | _ => none

def declarationWith (node : Json → Option Node) (name : String) (content : Json) : Option NodeKind := do
  match name with
  | "ClassDeclaration" =>
    let field ← record ["name", "super_class", "body"] content
    return .classDeclaration (← required Json.text? (field "name"))
      (← optional node (field "super_class")) (← required (listOf node) (field "body"))
  | "MethodDefinition" =>
    let field ← parts content
    return .methodDefinition (← required Json.text? (field "key"))
      (← required (functionWith node) (field "function")) (← required methodKind (field "kind"))
      (← required Json.bool? (field "is_static"))
  | "PropertyDefinition" =>
    let field ← parts content
    return .propertyDefinition (← required Json.text? (field "key"))
      (← optional node (field "value")) (← required Json.bool? (field "is_static"))
      (← required Json.bool? (field "readonly"))
  | "EnumDeclaration" =>
    let field ← record ["name", "raw_type", "cases"] content
    return .enumDeclaration (← required Json.text? (field "name"))
      (← optional typeExpr (field "raw_type"))
      (← required (listOf (enumCaseWith node)) (field "cases"))
  | "ImportDeclaration" =>
    let field ← parts content
    return .importDeclaration (← required (listOf node) (field "specifiers"))
      (← required Json.text? (field "source")) (← optional Json.text? (field "resolved"))
  | "ImportSpecifier" =>
    let field ← parts content
    return .importSpecifier (← required Json.text? (field "imported"))
      (← required Json.text? (field "local"))
  | "ImportNamespaceSpecifier" => return .importNamespaceSpecifier (← content.text?)
  | "ExportNamed" =>
    let field ← parts content
    return .exportNamed (← optional node (field "declaration"))
      (← required (listOf node) (field "specifiers"))
  | "ExportSpecifier" =>
    let field ← parts content
    return .exportSpecifier (← required Json.text? (field "local"))
      (← required Json.text? (field "exported"))
  | "ExportDefault" => return .exportDefault (← node content)
  | "TypeAlias" =>
    let field ← parts content
    return .typeAlias (← required Json.text? (field "name"))
      (← required texts (field "type_params")) (← required typeExpr (field "ty"))
  | "Interface" =>
    let field ← parts content
    return .interface (← required Json.text? (field "name"))
      (← required texts (field "type_params")) (← required (listOf typeExpr) (field "extends"))
      (← required (listOf interfaceMember) (field "members"))
  | _ => none

def kindWith (node : Json → Option Node) (value : Json) : Option NodeKind :=
  match shape value with
  | some ("This", none) => some .thisValue
  | some ("This", some .null) => some .thisValue
  | some (name, some content) =>
    ((expressionWith node name content).or (statementWith node name content)).or
      (declarationWith node name content)
  | _ => none

def nodeWith (node : Json → Option Node) (value : Json) : Option Node := do
  let field ← record ["kind", "position"] value
  return ⟨← required (kindWith node) (field "kind"), ← omissible position (field "position")⟩

def nodeWithin : Nat → Json → Option Node
  | 0 => fun _ => none
  | fuel + 1 => nodeWith (nodeWithin fuel)

/-- A node. The nodes inside it are nested less deep. -/
def node (value : Json) : Option Node := nodeWithin value.depth value

def program (value : Json) : Option Program := do
  let field ← record ["body"] value
  return ⟨← required (listOf node) (field "body")⟩

end LispLowering.Decode
