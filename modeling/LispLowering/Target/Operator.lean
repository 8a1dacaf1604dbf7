/-!
# Operators of the target

Each operator has a text, which a program is printed with, and a name, which stands for it in the
JSON form of a program.
-/

namespace LispLowering

/-- Operators of two operands that are both evaluated. -/
inductive BinaryOp where
  | add | sub | mul | div | mod | pow
  | eq | strictEq | ne | strictNe | lt | le | gt | ge
  | instanceOf | isIn
  deriving DecidableEq, Inhabited

/-- Operators that may leave the second operand unevaluated. -/
inductive LogicalOp where
  | and | or | nullish
  deriving DecidableEq, Inhabited

/-- Operators of one operand. -/
inductive UnaryOp where
  | neg | plus | not | typeOf | void | delete
  deriving DecidableEq, Inhabited

/-- The two kinds of variable declaration. -/
inductive VariableKind where
  | fixed
  | changing
  deriving DecidableEq, Inhabited

/-- The kinds of class method. -/
inductive MethodKind where
  | constructor
  | method
  | getter
  | setter
  deriving DecidableEq, Inhabited

namespace BinaryOp

def text : BinaryOp → String
  | .add => "+" | .sub => "-" | .mul => "*" | .div => "/" | .mod => "%" | .pow => "**"
  | .eq => "==" | .strictEq => "===" | .ne => "!=" | .strictNe => "!=="
  | .lt => "<" | .le => "<=" | .gt => ">" | .ge => ">="
  | .instanceOf => "instanceof" | .isIn => "in"

def name : BinaryOp → String
  | .add => "Add" | .sub => "Sub" | .mul => "Mul" | .div => "Div" | .mod => "Mod" | .pow => "Pow"
  | .eq => "Eq" | .strictEq => "StrictEq" | .ne => "Ne" | .strictNe => "StrictNe"
  | .lt => "Lt" | .le => "Le" | .gt => "Gt" | .ge => "Ge"
  | .instanceOf => "InstanceOf" | .isIn => "In"

def all : List BinaryOp :=
  [.add, .sub, .mul, .div, .mod, .pow, .eq, .strictEq, .ne, .strictNe, .lt, .le, .gt, .ge,
   .instanceOf, .isIn]

end BinaryOp

namespace LogicalOp

def text : LogicalOp → String
  | .and => "&&" | .or => "||" | .nullish => "??"

def name : LogicalOp → String
  | .and => "And" | .or => "Or" | .nullish => "Nullish"

def all : List LogicalOp := [.and, .or, .nullish]

end LogicalOp

namespace UnaryOp

def text : UnaryOp → String
  | .neg => "-" | .plus => "+" | .not => "!" | .typeOf => "typeof" | .void => "void"
  | .delete => "delete"

def name : UnaryOp → String
  | .neg => "Neg" | .plus => "Plus" | .not => "Not" | .typeOf => "TypeOf" | .void => "Void"
  | .delete => "Delete"

def all : List UnaryOp := [.neg, .plus, .not, .typeOf, .void, .delete]

end UnaryOp

namespace VariableKind

def name : VariableKind → String
  | .fixed => "Const" | .changing => "Let"

def all : List VariableKind := [.fixed, .changing]

end VariableKind

namespace MethodKind

def name : MethodKind → String
  | .constructor => "Constructor" | .method => "Method" | .getter => "Get" | .setter => "Set"

def all : List MethodKind := [.constructor, .method, .getter, .setter]

end MethodKind

end LispLowering
