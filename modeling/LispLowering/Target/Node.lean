import LispLowering.Source.Literal
import LispLowering.Source.Position
import LispLowering.Target.Operator
import LispLowering.Target.TypeExpr

/-!
# Target programs

The program that lowering produces is a tree of expressions, binding patterns, statements and
declarations. Every node may carry the position of the syntax tree it comes from.
-/

namespace LispLowering

structure InterfaceMember where
  key : String
  type : TypeExpr
  optional : Bool
  readonly : Bool

mutual

/-- A node of a target program. -/
structure Node where
  kind : NodeKind
  position : Option Position

/-- The shapes of a node.

A template holds one more piece of text than it holds expressions. The entries of an object are
properties or spreads, those of an object pattern properties or rest elements, and a slot of an array
pattern may be empty. A switch case without a test is the default. -/
inductive NodeKind where
  | identifier (name : String) (ascribed : Option TypeExpr)
  | literal (value : Literal)
  | templateLiteral (texts : List String) (expressions : List Node)
  | array (elements : List Node)
  | object (entries : List Node)
  | property (key value : Node) (computed shorthand : Bool)
  | spread (argument : Node)
  | call (callee : Node) (arguments : List Node) (optional : Bool)
  | construct (callee : Node) (arguments : List Node)
  | member (object property : Node) (computed : Bool)
  | optionalMember (object property : Node) (computed optional : Bool)
  | binary (operator : BinaryOp) (left right : Node)
  | logical (operator : LogicalOp) (left right : Node)
  | unary (operator : UnaryOp) (argument : Node)
  | conditional (test consequent alternate : Node)
  | assignment (target value : Node)
  | function (definition : Function)
  | await (argument : Node)
  | yield (argument : Option Node) (delegate : Bool)
  | thisValue
  | typeAssertion (expression : Node) (type : TypeExpr)
  | importExpression (source : Node)
  | arrayPattern (slots : List (Option Node))
  | objectPattern (entries : List Node)
  | assignmentPattern (target default : Node)
  | restElement (argument : Node)
  | expressionStatement (expression : Node)
  | block (body : List Node)
  | variableDeclaration (kind : VariableKind) (declarations : List Node)
  | variableDeclarator (id : Node) (init : Option Node)
  | functionDeclaration (definition : Function)
  | returnStatement (argument : Option Node)
  | ifStatement (test consequent : Node) (alternate : Option Node)
  | throwStatement (argument : Node)
  | tryStatement (block : Node) (handler finalizer : Option Node)
  | catchClause (param : Option Node) (body : Node)
  | whileLoop (test body : Node)
  | forLoop (init test update : Option Node) (body : Node)
  | forOf (left right body : Node) (awaits : Bool)
  | forIn (left right body : Node)
  | breakStatement (label : Option String)
  | continueStatement (label : Option String)
  | labeled (label : String) (body : Node)
  | switchStatement (discriminant : Node) (cases : List Node)
  | switchCase (test : Option Node) (consequent : List Node)
  | classDeclaration (name : String) (parent : Option Node) (body : List Node)
  | methodDefinition (key : String) (function : Function) (kind : MethodKind) (static : Bool)
  | propertyDefinition (key : String) (value : Option Node) (static readonly : Bool)
  | enumDeclaration (name : String) (rawType : Option TypeExpr) (cases : List EnumCase)
  | importDeclaration (specifiers : List Node) (source : String) (resolved : Option String)
  | importSpecifier (imported localName : String)
  | importNamespaceSpecifier (localName : String)
  | exportNamed (declaration : Option Node) (specifiers : List Node)
  | exportSpecifier (localName exported : String)
  | exportDefault (declaration : Node)
  | typeAlias (name : String) (typeParams : List String) (type : TypeExpr)
  | interface (name : String) (typeParams : List String) (parents : List TypeExpr)
      (members : List InterfaceMember)

/-- A function, as a declaration, an expression or a method. An arrow function keeps the enclosing
`this`. -/
structure Function where
  id : Option String
  params : List Node
  body : List Node
  isAsync : Bool
  isGenerator : Bool
  isArrow : Bool
  returnType : Option TypeExpr
  typeParams : List String

/-- A case of an enumeration. It has a raw value, or associated values, or neither. -/
structure EnumCase where
  name : String
  rawValue : Option Node
  associated : List Node
  position : Option Position

end

/-- A lowered program: its statements. -/
structure Program where
  body : List Node

instance : Inhabited Node := ⟨⟨.literal .null, none⟩⟩

namespace Node

/-! ## Positions -/

def place (p : Option Position) (node : Node) : Node := { node with position := p }

/-- The node at `p`, unless it has a position of its own. -/
def orPlace (p : Option Position) (node : Node) : Node := { node with position := node.position.or p }

/-! ## Queries -/

/-- The node can only stand where a statement stands. -/
def isStatement (node : Node) : Bool :=
  match node.kind with
  | .expressionStatement _ | .block _ | .variableDeclaration _ _ | .functionDeclaration _
  | .returnStatement _ | .ifStatement _ _ _ | .throwStatement _ | .tryStatement _ _ _
  | .whileLoop _ _ | .forLoop _ _ _ _ | .forOf _ _ _ _ | .forIn _ _ _ | .breakStatement _
  | .continueStatement _ | .labeled _ _ | .switchStatement _ _ | .classDeclaration _ _ _
  | .enumDeclaration _ _ _ | .importDeclaration _ _ _ | .exportNamed _ _ | .exportDefault _
  | .typeAlias _ _ _ | .interface _ _ _ _ => true
  | _ => false

/-- Control never passes to the statement after this one. -/
def isTerminator (node : Node) : Bool :=
  match node.kind with
  | .returnStatement _ | .throwStatement _ | .breakStatement _ | .continueStatement _ => true
  | _ => false

/-- The name that a declaration of a function, a class or an enumeration introduces. -/
def declaredName? (node : Node) : Option String :=
  match node.kind with
  | .functionDeclaration f => f.id
  | .classDeclaration name _ _ => some name
  | .enumDeclaration name _ _ => some name
  | _ => none

def identifier? (node : Node) : Option String :=
  match node.kind with
  | .identifier name _ => some name
  | _ => none

end Node

end LispLowering
