import LispLowering.TypeSyntax.Text

/-!
# Names with type parameters

A declared name may list type parameters, as in `name<T, U>`.
-/

namespace LispLowering

/-- A declared name and its type parameters. -/
structure GenericName where
  name : String
  params : List String
  deriving DecidableEq

/-- The name and the type parameters in a symbol. A symbol without closing bracket at its end, or
without a name in front, is a name as a whole. -/
def GenericName.ofSymbol (symbol : String) : GenericName :=
  match Text.divide? '<' symbol with
  | none => ⟨symbol, []⟩
  | some (name, rest) =>
    match Text.stripEnd? ">" rest with
    | none => ⟨symbol, []⟩
    | some inner =>
      if name = "" then ⟨symbol, []⟩
      else
        let params := (TypeExpr.piecesOutside ',' inner.toList).filter fun param => !param.isEmpty
        ⟨name, params.map String.ofList⟩

end LispLowering
