import LispLowering.Binary64.Basic
import LispLowering.Decimal

/-!
# Printing doubles

A double is printed with the fewest decimal digits that read back as the same double, and of those
with the digits nearest to it. Such a decimal is a point of the coarsest power-of-ten grid that meets
the interval of the reals that round to the double.
-/

namespace LispLowering

/-- Which of two equally near decimals is taken. -/
inductive Tie where
  | up
  | toEven
  deriving DecidableEq

namespace Binary64

/-! ## The rounding interval -/

/-- The reals that round to a positive double, in units of a quarter of its last place: the double
itself, the two ends, and whether the ends belong to it. -/
structure Interval where
  value : Nat
  low : Nat
  high : Nat
  closed : Bool

/-- The rounding interval of a finite value. Below a power of two the doubles lie twice as dense. -/
def interval (x : Binary64) : Interval where
  value := 4 * x.mantissa
  low := 4 * x.mantissa - (if x.fractionField = 0 && 1 < x.exponentField then 1 else 2)
  high := 4 * x.mantissa + 2
  closed := x.mantissa % 2 = 0

/-- Whether `a` lies in the interval when each of its units is `unit` long. -/
def Interval.holds (i : Interval) (a unit : Nat) : Bool :=
  if i.closed then i.low * unit ≤ a && a ≤ i.high * unit
  else i.low * unit < a && a < i.high * unit

/-! ## The coarsest grid -/

/-- The point of the grid `10 ^ exponent` that is in the interval and nearest to the value. Both are
measured in a common unit: `unit` of it make a unit of the interval, `step` of it a step of the grid. -/
def gridPoint? (tie : Tie) (i : Interval) (scale exponent : Int) : Option Nat :=
  let unit := Nat.pow 2 (scale - 2).toNat * Nat.pow 10 (-exponent).toNat
  let step := Nat.pow 2 (2 - scale).toNat * Nat.pow 10 exponent.toNat
  let below := i.value * unit / step
  let lower := i.holds (below * step) unit
  let upper := i.holds ((below + 1) * step) unit
  let twice := 2 * (i.value * unit % step)
  let nearerUpper :=
    match tie with
    | .up => decide (step ≤ twice)
    | .toEven => decide (step < twice) || decide (step = twice) && below % 2 = 1
  if upper && (!lower || nearerUpper) then some (below + 1)
  else if lower then some below
  else none

/-- The first hit among `count` grids, each ten times as fine as the one before. -/
def coarsest (tie : Tie) (i : Interval) (scale exponent : Int) : Nat → Decimal
  | 0 => ⟨0, exponent⟩
  | count + 1 =>
    match gridPoint? tie i scale exponent with
    | some digits => ⟨digits, exponent⟩
    | none => coarsest tie i scale (exponent - 1) count

/-- The shortest decimal that reads back as the absolute value of a finite, nonzero double. The first
grid lies above the value; seventeen digits always suffice, so that one of twenty grids is hit. -/
def shortest (tie : Tie) (x : Binary64) : Decimal :=
  let order : Int := x.mantissa.log2 + x.scale
  let first := (order + 1) * 30103 / 100000 + 1
  Decimal.dropZeros 2 (coarsest tie x.interval x.scale first 20)

/-! ## Texts -/

/-- The minus sign of a value whose sign bit is set. -/
def signText (x : Binary64) : String :=
  if x.signBit then "-" else ""

/-- Plain notation; a tie between two shortest decimals goes up. -/
def plain (x : Binary64) : String :=
  if x.isZero then x.signText ++ "0"
  else if x.isFinite then x.signText ++ (x.shortest .up).plain
  else if x.isInfinite then x.signText ++ "inf"
  else "NaN"

/-- The absolute value from which a whole number is printed in the general way. -/
def wholeLimit : Nat := Nat.pow 10 15

/-- The text of a number in source code: a whole number below the limit is written as an integer, and
`-0` as `0`. -/
def sourceText (x : Binary64) : String :=
  match x.whole? with
  | some n => if n.natAbs < wholeLimit then Text.signedDecimal n else x.plain
  | none => x.plain

/-- The text of a finite number in JSON; a tie goes to the even digit. -/
def jsonText (x : Binary64) : String :=
  x.signText ++ (if x.isZero then "0.0" else (x.shortest .toEven).json)

end Binary64

end LispLowering
