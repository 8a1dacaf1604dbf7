import LispLowering.Source.Literal
import LispLowering.Source.Position

/-!
# Syntax trees

A program is a list of trees. A tree is a symbol, a literal or a list of trees, and each of them may
carry the position at which it was read.
-/

namespace LispLowering

inductive SExpr where
  | symbol (name : String) (position : Option Position)
  | literal (value : Literal) (position : Option Position)
  | list (items : List SExpr) (position : Option Position)
  deriving Inhabited

namespace SExpr

/-! ## Views -/

def position : SExpr → Option Position
  | .symbol _ p => p
  | .literal _ p => p
  | .list _ p => p

def place (p : Option Position) : SExpr → SExpr
  | .symbol name _ => .symbol name p
  | .literal value _ => .literal value p
  | .list items _ => .list items p

def symbol? : SExpr → Option String
  | .symbol name _ => some name
  | _ => none

def items? : SExpr → Option (List SExpr)
  | .list items _ => some items
  | _ => none

def head? : SExpr → Option String
  | .list (.symbol name _ :: _) _ => some name
  | _ => none

def isSymbol (name : String) (node : SExpr) : Bool := node.symbol? = some name

/-- The tree is a list whose leading symbol is `name`. -/
def isForm (name : String) (node : SExpr) : Bool := node.head? = some name

/-! ## Texts -/

mutual

def text : SExpr → String
  | .symbol name _ => name
  | .literal value _ => value.text
  | .list items _ => "(" ++ " ".intercalate (texts items) ++ ")"

def texts : List SExpr → List String
  | [] => []
  | item :: rest => text item :: texts rest

end

/-! ## Nesting -/

mutual

/-- How many lists are nested in a tree. -/
def depth : SExpr → Nat
  | .list items _ => depthItems items + 1
  | _ => 0

def depthItems : List SExpr → Nat
  | [] => 0
  | item :: rest => max (depth item) (depthItems rest)

end

end SExpr

end LispLowering
