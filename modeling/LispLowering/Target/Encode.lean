import LispLowering.Json.Basic
import LispLowering.Target.Node

/-!
# Target programs as JSON

A shape is written as an object with one member, named for the shape, that holds what the shape
consists of; a shape without parts is written as its name. What is absent is written as null, save
that an absent position or file is left out.
-/

namespace LispLowering

def Json.tag (name : String) (content : Json) : Json := .obj [(name, content)]

def Position.toJson (p : Position) : Json :=
  .obj ([("line", .int p.line), ("column", .int p.column)] ++
    match p.file with
    | some file => [("file", .str file)]
    | none => [])

def Position.member? : Option Position → List (String × Json)
  | some p => [("position", p.toJson)]
  | none => []

def Literal.toJson : Literal → Json
  | .null => .str "Null"
  | .bool value => .tag "Bool" (.bool value)
  | .number value => .tag "Number" (.ofNumber value)
  | .string value => .tag "String" (.str value)

/-! ## Types -/

def TypeLiteral.toJson : TypeLiteral → Json
  | .string value => .tag "String" (.str value)
  | .number value => .tag "Number" (.ofNumber value)
  | .bool value => .tag "Bool" (.bool value)

namespace TypeExpr

mutual

def toJson : TypeExpr → Json
  | .reference name args =>
    .tag "Reference" (.obj [("name", .str name), ("args", .arr (itemsJson args))])
  | .literal value => .tag "Literal" value.toJson
  | .union members => .tag "Union" (.arr (itemsJson members))
  | .intersection members => .tag "Intersection" (.arr (itemsJson members))
  | .keyof type => .tag "Keyof" (toJson type)
  | .indexedAccess object index =>
    .tag "IndexedAccess" (.obj [("object", toJson object), ("index", toJson index)])
  | .conditional check bound trueType falseType =>
    .tag "Conditional" (.obj
      [("check", toJson check), ("extends", toJson bound), ("true_type", toJson trueType),
       ("false_type", toJson falseType)])
  | .tuple elements => .tag "Tuple" (.arr (itemsJson elements))
  | .array element => .tag "Array" (toJson element)
  | .readonly type => .tag "Readonly" (toJson type)
  | .infer name => .tag "Infer" (.str name)
  | .typeof name => .tag "Typeof" (.str name)
  | .mapped param constraint value =>
    .tag "Mapped" (.obj
      [("param", .str param), ("constraint", toJson constraint), ("value", toJson value)])
  | .function params returnType =>
    .tag "Function" (.obj [("params", .arr (paramsJson params)), ("return_type", toJson returnType)])
  | .spread type => .tag "Rest" (toJson type)
  | .raw text => .tag "Raw" (.str text)

def itemsJson : List TypeExpr → List Json
  | [] => []
  | type :: others => toJson type :: itemsJson others

def paramJson : TypeParam → Json
  | ⟨name, type⟩ => .obj [("name", .str name), ("ty", toJson type)]

def paramsJson : List TypeParam → List Json
  | [] => []
  | param :: others => paramJson param :: paramsJson others

end

def optionJson : Option TypeExpr → Json
  | some type => toJson type
  | none => .null

end TypeExpr

def InterfaceMember.toJson (m : InterfaceMember) : Json :=
  .obj [("key", .str m.key), ("ty", m.type.toJson), ("optional", .bool m.optional),
    ("readonly", .bool m.readonly)]

/-! ## Nodes -/

namespace Node

mutual

def toJson : Node → Json
  | ⟨kind, position⟩ => .obj (("kind", kindJson kind) :: Position.member? position)

def kindJson : NodeKind → Json
  | .identifier name ascribed =>
    .tag "Identifier" (.obj [("name", .str name), ("type_annotation", TypeExpr.optionJson ascribed)])
  | .literal value => .tag "Literal" value.toJson
  | .templateLiteral texts expressions =>
    .tag "TemplateLiteral" (.obj
      [("quasis", .ofTexts texts), ("expressions", .arr (itemsJson expressions))])
  | .array elements => .tag "Array" (.arr (itemsJson elements))
  | .object entries => .tag "Object" (.arr (itemsJson entries))
  | .property key value computed shorthand =>
    .tag "Property" (.obj [("key", toJson key), ("value", toJson value), ("computed", .bool computed),
       ("shorthand", .bool shorthand)])
  | .spread argument => .tag "Spread" (toJson argument)
  | .call callee arguments optional =>
    .tag "Call" (.obj [("callee", toJson callee), ("arguments", .arr (itemsJson arguments)),
       ("optional", .bool optional)])
  | .construct callee arguments =>
    .tag "New" (.obj [("callee", toJson callee), ("arguments", .arr (itemsJson arguments))])
  | .member object property computed =>
    .tag "Member" (.obj
      [("object", toJson object), ("property", toJson property), ("computed", .bool computed)])
  | .optionalMember object property computed optional =>
    .tag "OptionalMember" (.obj
      [("object", toJson object), ("property", toJson property), ("computed", .bool computed),
       ("optional", .bool optional)])
  | .binary operator left right =>
    .tag "Binary" (.obj
      [("operator", .str operator.name), ("left", toJson left), ("right", toJson right)])
  | .logical operator left right =>
    .tag "Logical" (.obj
      [("operator", .str operator.name), ("left", toJson left), ("right", toJson right)])
  | .unary operator argument =>
    .tag "Unary" (.obj [("operator", .str operator.name), ("argument", toJson argument)])
  | .conditional test consequent alternate =>
    .tag "Conditional" (.obj
      [("test", toJson test), ("consequent", toJson consequent), ("alternate", toJson alternate)])
  | .assignment target value =>
    .tag "Assignment" (.obj [("target", toJson target), ("value", toJson value)])
  | .function definition => .tag "Function" (functionJson definition)
  | .await argument => .tag "Await" (toJson argument)
  | .yield argument delegate =>
    .tag "Yield" (.obj [("argument", optionJson argument), ("delegate", .bool delegate)])
  | .thisValue => .str "This"
  | .typeAssertion expression type =>
    .tag "As" (.obj [("expression", toJson expression), ("ty", type.toJson)])
  | .importExpression source => .tag "ImportExpression" (toJson source)
  | .arrayPattern slots => .tag "ArrayPattern" (.arr (slotsJson slots))
  | .objectPattern entries => .tag "ObjectPattern" (.arr (itemsJson entries))
  | .assignmentPattern target default =>
    .tag "AssignmentPattern" (.obj [("target", toJson target), ("default", toJson default)])
  | .restElement argument => .tag "RestElement" (toJson argument)
  | .expressionStatement expression => .tag "ExpressionStatement" (toJson expression)
  | .block body => .tag "Block" (.arr (itemsJson body))
  | .variableDeclaration kind declarations =>
    .tag "VariableDeclaration" (.obj
      [("kind", .str kind.name), ("declarations", .arr (itemsJson declarations))])
  | .variableDeclarator id init =>
    .tag "VariableDeclarator" (.obj [("id", toJson id), ("init", optionJson init)])
  | .functionDeclaration definition => .tag "FunctionDeclaration" (functionJson definition)
  | .returnStatement argument => .tag "Return" (optionJson argument)
  | .ifStatement test consequent alternate =>
    .tag "If" (.obj [("test", toJson test), ("consequent", toJson consequent),
       ("alternate", optionJson alternate)])
  | .throwStatement argument => .tag "Throw" (toJson argument)
  | .tryStatement block handler finalizer =>
    .tag "Try" (.obj [("block", toJson block), ("handler", optionJson handler),
       ("finalizer", optionJson finalizer)])
  | .catchClause param body =>
    .tag "CatchClause" (.obj [("param", optionJson param), ("body", toJson body)])
  | .whileLoop test body => .tag "While" (.obj [("test", toJson test), ("body", toJson body)])
  | .forLoop init test update body =>
    .tag "For" (.obj
      [("init", optionJson init), ("test", optionJson test), ("update", optionJson update),
       ("body", toJson body)])
  | .forOf left right body awaits =>
    .tag "ForOf" (.obj [("left", toJson left), ("right", toJson right), ("body", toJson body),
       ("is_await", .bool awaits)])
  | .forIn left right body =>
    .tag "ForIn" (.obj [("left", toJson left), ("right", toJson right), ("body", toJson body)])
  | .breakStatement label => .tag "Break" (.ofText? label)
  | .continueStatement label => .tag "Continue" (.ofText? label)
  | .labeled label body => .tag "Labeled" (.obj [("label", .str label), ("body", toJson body)])
  | .switchStatement discriminant cases =>
    .tag "Switch" (.obj [("discriminant", toJson discriminant), ("cases", .arr (itemsJson cases))])
  | .switchCase test consequent =>
    .tag "SwitchCase" (.obj [("test", optionJson test), ("consequent", .arr (itemsJson consequent))])
  | .classDeclaration name parent body =>
    .tag "ClassDeclaration" (.obj
      [("name", .str name), ("super_class", optionJson parent), ("body", .arr (itemsJson body))])
  | .methodDefinition key function kind static =>
    .tag "MethodDefinition" (.obj
      [("key", .str key), ("function", functionJson function), ("kind", .str kind.name),
       ("is_static", .bool static)])
  | .propertyDefinition key value static readonly =>
    .tag "PropertyDefinition" (.obj
      [("key", .str key), ("value", optionJson value), ("is_static", .bool static),
       ("readonly", .bool readonly)])
  | .enumDeclaration name rawType cases =>
    .tag "EnumDeclaration" (.obj [("name", .str name), ("raw_type", TypeExpr.optionJson rawType),
       ("cases", .arr (casesJson cases))])
  | .importDeclaration specifiers source resolved =>
    .tag "ImportDeclaration" (.obj
      [("specifiers", .arr (itemsJson specifiers)), ("source", .str source),
       ("resolved", .ofText? resolved)])
  | .importSpecifier imported localName =>
    .tag "ImportSpecifier" (.obj [("imported", .str imported), ("local", .str localName)])
  | .importNamespaceSpecifier localName => .tag "ImportNamespaceSpecifier" (.str localName)
  | .exportNamed declaration specifiers =>
    .tag "ExportNamed" (.obj
      [("declaration", optionJson declaration), ("specifiers", .arr (itemsJson specifiers))])
  | .exportSpecifier localName exported =>
    .tag "ExportSpecifier" (.obj [("local", .str localName), ("exported", .str exported)])
  | .exportDefault declaration => .tag "ExportDefault" (toJson declaration)
  | .typeAlias name typeParams type =>
    .tag "TypeAlias" (.obj
      [("name", .str name), ("type_params", .ofTexts typeParams), ("ty", type.toJson)])
  | .interface name typeParams parents members =>
    .tag "Interface" (.obj [("name", .str name), ("type_params", .ofTexts typeParams),
       ("extends", .arr (TypeExpr.itemsJson parents)),
       ("members", .arr (members.map InterfaceMember.toJson))])

def functionJson : Function → Json
  | ⟨id, params, body, isAsync, isGenerator, isArrow, returnType, typeParams⟩ =>
    .obj
      [("id", .ofText? id), ("params", .arr (itemsJson params)), ("body", .arr (itemsJson body)),
       ("is_async", .bool isAsync), ("is_generator", .bool isGenerator), ("is_arrow", .bool isArrow),
       ("return_type", TypeExpr.optionJson returnType), ("type_params", .ofTexts typeParams)]

def caseJson : EnumCase → Json
  | ⟨name, rawValue, associated, position⟩ =>
    .obj ([("name", .str name), ("raw_value", optionJson rawValue),
      ("associated", .arr (itemsJson associated))] ++ Position.member? position)

def itemsJson : List Node → List Json
  | [] => []
  | node :: rest => toJson node :: itemsJson rest

def optionJson : Option Node → Json
  | none => .null
  | some node => toJson node

def slotsJson : List (Option Node) → List Json
  | [] => []
  | slot :: rest => optionJson slot :: slotsJson rest

def casesJson : List EnumCase → List Json
  | [] => []
  | one :: rest => caseJson one :: casesJson rest

end

end Node

def Program.toJson (program : Program) : Json := .obj [("body", .arr (Node.itemsJson program.body))]

end LispLowering
