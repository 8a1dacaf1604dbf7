import LispLowering.Text.Numeral

/-!
# Decimals

A decimal is a natural number times a power of ten. Two layouts write it: plain notation, which never
has an exponent, and the notation of JSON texts.
-/

namespace LispLowering

/-- The decimal `digits · 10 ^ exponent`. -/
structure Decimal where
  digits : Nat
  exponent : Int
  deriving DecidableEq

namespace Decimal

/-- The decimal without up to `fuel` of the zeros at its end. -/
def dropZeros : Nat → Decimal → Decimal
  | 0, d => d
  | fuel + 1, d =>
    if d.digits ≠ 0 && d.digits % 10 = 0 then dropZeros fuel ⟨d.digits / 10, d.exponent + 1⟩ else d

/-- Digits with a point `places` digits from the right, and zeros in front where there are too few. -/
def pointText (digits : String) (places : Nat) : String :=
  let cs := (Text.padLeft (places + 1) '0' digits).toList
  String.ofList (cs.take (cs.length - places)) ++ "." ++ String.ofList (cs.drop (cs.length - places))

/-- Plain notation: zeros in place of an exponent. -/
def plain (d : Decimal) : String :=
  if 0 ≤ d.exponent then Text.decimal d.digits ++ Text.fill d.exponent.toNat '0'
  else pointText (Text.decimal d.digits) (-d.exponent).toNat

/-- The exponent of scientific notation, which always has a sign. -/
def exponentText (n : Int) : String := "e" ++ (if n < 0 then "-" else "+") ++ Text.decimal n.natAbs

/-- Scientific notation: one digit before the point, and no point after a single digit. -/
def scientific (d : Decimal) : String :=
  let cs := (Text.decimal d.digits).toList
  let fraction := if cs.length ≤ 1 then "" else "." ++ String.ofList (cs.drop 1)
  String.ofList (cs.take 1) ++ fraction ++ exponentText (cs.length - 1 + d.exponent)

/-- The notation of JSON texts. It is plain while the point lies at most sixteen digits after the first
digit or less than five zeros before it, with a fraction `.0` for a whole number. -/
def json (d : Decimal) : String :=
  let point : Int := (Text.decimal d.digits).length + d.exponent
  if -5 < point && point ≤ 16 then d.plain ++ (if 0 ≤ d.exponent then ".0" else "")
  else d.scientific

end Decimal

end LispLowering
