/-!
# Double-precision numbers

A number literal of the source language is an IEEE 754 binary64 value. It is kept as its 64 bits, so
that equality is decidable and says what a reader expects: `0` and `-0` differ, and a value that is
not a number equals itself. The finite values are read as `mantissa · 2 ^ scale`, in exact
arithmetic.
-/

namespace LispLowering

/-- A binary64 value, given by its bit pattern. -/
structure Binary64 where
  bits : UInt64
  deriving DecidableEq, Inhabited

namespace Binary64

/-! ## Fields -/

def signBit (x : Binary64) : Bool := Nat.pow 2 63 ≤ x.bits.toNat

def exponentField (x : Binary64) : Nat := x.bits.toNat / Nat.pow 2 52 % Nat.pow 2 11

def fractionField (x : Binary64) : Nat := x.bits.toNat % Nat.pow 2 52

/-- The value with the given sign whose other 63 bits are `magnitude`. -/
def ofMagnitude (negative : Bool) (magnitude : Nat) : Binary64 :=
  ⟨UInt64.ofNat ((if negative then Nat.pow 2 63 else 0) + magnitude)⟩

/-! ## Classes of values -/

/-- The magnitude bits of the infinities; larger magnitudes are not numbers. -/
def infinityMagnitude : Nat := 2047 * Nat.pow 2 52

def zero (negative : Bool) : Binary64 := ofMagnitude negative 0

def infinity (negative : Bool) : Binary64 := ofMagnitude negative infinityMagnitude

def notANumber (negative : Bool) : Binary64 := ofMagnitude negative (infinityMagnitude + Nat.pow 2 51)

/-- Neither an infinity nor outside the numbers. -/
def isFinite (x : Binary64) : Bool := x.exponentField ≠ 2047

def isInfinite (x : Binary64) : Bool := !x.isFinite && x.fractionField = 0

def isZero (x : Binary64) : Bool := x.exponentField = 0 && x.fractionField = 0

/-- A number, possibly infinite. -/
def isNumber (x : Binary64) : Bool := x.isFinite || x.isInfinite

def isNegative (x : Binary64) : Bool := x.isNumber && x.signBit && !x.isZero

def isPositive (x : Binary64) : Bool := x.isNumber && !x.signBit && !x.isZero

/-! ## The finite values, exactly -/

/-- The integer that a finite value's power of two multiplies. -/
def mantissa (x : Binary64) : Nat :=
  if x.exponentField = 0 then x.fractionField else Nat.pow 2 52 + x.fractionField

/-- The exponent of that power of two. -/
def scale (x : Binary64) : Int := (max x.exponentField 1 : Nat) - 1075

/-- The absolute value of a finite value, if it is a whole number. -/
def wholeMagnitude? (x : Binary64) : Option Nat :=
  if !x.isFinite then none
  else if 0 ≤ x.scale then some (x.mantissa * Nat.pow 2 x.scale.toNat)
  else
    let unit := Nat.pow 2 (-x.scale).toNat
    if x.mantissa % unit = 0 then some (x.mantissa / unit) else none

/-- The value, if it is a whole number; both zeros give `0`. -/
def whole? (x : Binary64) : Option Int :=
  x.wholeMagnitude?.map fun n => if x.signBit then -(n : Int) else n

end Binary64

end LispLowering
