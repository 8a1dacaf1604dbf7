import LispLowering.Target.Binding

/-!
# Building nodes

Short forms for the nodes that lowering produces. They have no position unless their description
gives one.
-/

namespace LispLowering

namespace Function

def arrow (params body : List Node) : Function :=
  { id := none, params, body, isAsync := false, isGenerator := false, isArrow := true,
    returnType := none, typeParams := [] }

end Function

namespace Node

def of (kind : NodeKind) : Node := ⟨kind, none⟩

/-! ## Expressions -/

def literal (value : Literal) : Node := of (.literal value)

def null : Node := literal .null

def bool (value : Bool) : Node := literal (.bool value)

def number (value : Binary64) : Node := literal (.number value)

def string (value : String) : Node := literal (.string value)

def typedIdent (name : String) (ascribed : Option TypeExpr) : Node := of (.identifier name ascribed)

def ident (name : String) : Node := typedIdent name none

def undefined : Node := ident "undefined"

def call (callee : Node) (arguments : List Node) : Node := of (.call callee arguments false)

/-- Access to a property by name. -/
def member (object : Node) (property : String) : Node := of (.member object (ident property) false)

/-- Access to a property by value. -/
def index (object property : Node) : Node := of (.member object property true)

def binary (operator : BinaryOp) (left right : Node) : Node := of (.binary operator left right)

def logical (operator : LogicalOp) (left right : Node) : Node := of (.logical operator left right)

def unary (operator : UnaryOp) (argument : Node) : Node := of (.unary operator argument)

def conditional (test consequent alternate : Node) : Node := of (.conditional test consequent alternate)

def assign (target value : Node) : Node := of (.assignment target value)

def array (elements : List Node) : Node := of (.array elements)

def object (entries : List Node) : Node := of (.object entries)

def spread (argument : Node) : Node := of (.spread argument)

/-- An object entry with a plain name as its key. It is a shorthand if the value is the identifier of
that name. -/
def property (key : String) (value : Node) : Node :=
  of (.property (ident key) value false (value.identifier? = some key))

def function (definition : Function) : Node := of (.function definition)

/-- A function without parameters that is called on the spot. -/
def wrapper (body : List Node) : Node := call (function (Function.arrow [] body)) []

/-! ## Statements -/

/-- An expression as a statement, at the position of the expression. -/
def statementOf (expression : Node) : Node := ⟨.expressionStatement expression, expression.position⟩

def block (body : List Node) : Node := of (.block body)

/-- A declaration of one variable. The declarator is at the position of what it declares. -/
def declare (kind : VariableKind) (id : Node) (init : Option Node) : Node :=
  of (.variableDeclaration kind [⟨.variableDeclarator id init, id.position⟩])

def declareFixed (id init : Node) : Node := declare .fixed id (some init)

def declareChanging (id : Node) (init : Option Node) : Node := declare .changing id init

def return? (argument : Option Node) : Node := of (.returnStatement argument)

def throw (argument : Node) : Node := of (.throwStatement argument)

def branch (test consequent : Node) (alternate : Option Node) : Node :=
  of (.ifStatement test consequent alternate)

end Node

end LispLowering
