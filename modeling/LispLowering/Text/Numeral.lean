import LispLowering.Text.Cut

/-!
# Numerals

Natural numbers and integers in decimal, and natural numbers in hexadecimal.
-/

namespace LispLowering.Text

def decimal (n : Nat) : String := String.ofList (Nat.toDigits 10 n)

/-- An integer in decimal digits, with a minus sign below zero. -/
def signedDecimal (n : Int) : String := (if n < 0 then "-" else "") ++ decimal n.natAbs

/-- A natural number in hexadecimal digits with small letters. -/
def lowerHex (n : Nat) : String := String.ofList (Nat.toDigits 16 n)

/-- A natural number in hexadecimal digits with capital letters. -/
def upperHex (n : Nat) : String := String.ofList ((Nat.toDigits 16 n).map Char.toUpper)

end LispLowering.Text
