import LispLowering.Text.Numeral

/-!
# Source positions

A position is a plain value: a node that inherits a position receives a copy of it.
-/

namespace LispLowering

/-- A place in a source text. Lines and columns are counted from one; the file is passed on as it is. -/
structure Position where
  line : Nat
  column : Nat
  file : Option String := none
  deriving DecidableEq, Inhabited

namespace Position

/-- Line and column, and the file in front if there is one. -/
def text (p : Position) : String :=
  let place := Text.decimal p.line ++ ":" ++ Text.decimal p.column
  match p.file with
  | some file => file ++ ":" ++ place
  | none => place

end Position

end LispLowering
