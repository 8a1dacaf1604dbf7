import Mathlib
import LispLowering.Binary64.Shortest

/-!
# Whole numbers
-/

namespace LispLowering

open Nat

/-! ## Digits -/

namespace Text

theorem decimal_injective {m n : Nat} (h : decimal m = decimal n) : m = n := by
  have hdigits : Nat.toDigits 10 m = Nat.toDigits 10 n := String.ofList_injective h
  rw [← ofDigitChars_ten_toDigits (n := m), hdigits, ofDigitChars_ten_toDigits]

theorem isDigit_of_mem_decimal {n : Nat} {c : Char} (h : c ∈ (decimal n).toList) : c.isDigit = true := by
  rw [decimal, String.toList_ofList] at h
  exact isDigit_of_mem_toDigits (by decide) (by decide) h

theorem toList_signedDecimal (n : Int) :
    (signedDecimal n).toList = (if n < 0 then ['-'] else []) ++ (decimal n.natAbs).toList := by
  unfold signedDecimal
  split <;> simp

theorem minus_or_isDigit_of_mem_signedDecimal {n : Int} {c : Char} (h : c ∈ (signedDecimal n).toList) :
    c = '-' ∨ c.isDigit = true := by
  rw [toList_signedDecimal, List.mem_append] at h
  rcases h with h | h
  · left
    split at h <;> simp_all
  · exact .inr (isDigit_of_mem_decimal h)

theorem signedDecimal_injective {m n : Int} (h : signedDecimal m = signedDecimal n) : m = n := by
  have hminus : ∀ k, '-' ∉ (decimal k).toList := fun k hk => absurd (isDigit_of_mem_decimal hk) (by decide)
  have hdigits : ∀ {j k : Nat}, (decimal j).toList = (decimal k).toList → j = k :=
    fun h => decimal_injective (String.toList_injective h)
  have hlist := congrArg String.toList h
  simp only [toList_signedDecimal] at hlist
  by_cases hm : m < 0 <;> by_cases hn : n < 0 <;>
    simp only [hm, hn, ↓reduceIte, List.cons_append, List.nil_append, List.cons.injEq, true_and] at hlist
  · have habs := hdigits hlist
    omega
  · exact absurd (hlist ▸ List.mem_cons_self) (hminus _)
  · exact absurd (hlist ▸ List.mem_cons_self) (hminus _)
  · have habs := hdigits hlist
    omega

end Text

/-! ## Values -/

namespace Binary64

variable {x y : Binary64} {n : Nat} {k : Int}

/-- The exponent field, where the smallest values are taken for those of exponent one. -/
def exponent (x : Binary64) : Nat := max x.exponentField 1

theorem mantissa_eq_zero : x.mantissa = 0 ↔ x.isZero = true := by
  unfold mantissa isZero
  split <;> simp_all

theorem mantissa_bounds (x : Binary64) : x.mantissa < 2 ^ 53 ∧ (1 < x.exponent → 2 ^ 52 ≤ x.mantissa) := by
  have hfraction : x.fractionField < 2 ^ 52 := mod_lt _ (by decide)
  have hpow : Nat.pow 2 52 = 2 ^ 52 := rfl
  unfold mantissa exponent
  split <;> omega

theorem scaled_of_wholeMagnitude (h : x.wholeMagnitude? = some n) :
    n * 2 ^ 1075 = x.mantissa * 2 ^ x.exponent := by
  have hscale : x.scale = (x.exponent : Int) - 1075 := rfl
  have hpow : ∀ k, Nat.pow 2 k = 2 ^ k := fun _ => rfl
  unfold wholeMagnitude? at h
  simp only [hpow, hscale] at h
  split at h
  · cases h
  split at h
  · next hle =>
    cases h
    rw [mul_assoc, ← pow_add]
    congr 2
    omega
  · next hlt =>
    split at h
    · next hunit =>
      cases h
      have hsum : 2 ^ 1075 = 2 ^ (-((x.exponent : Int) - 1075)).toNat * 2 ^ x.exponent := by
        rw [← pow_add]
        congr 1
        omega
      rw [hsum, ← mul_assoc, Nat.div_mul_cancel (Nat.dvd_of_mod_eq_zero hunit)]
    · cases h

theorem wholeMagnitude?_eq_zero_iff (h : x.wholeMagnitude? = some n) : n = 0 ↔ x.isZero = true := by
  have hscaled := scaled_of_wholeMagnitude h
  rw [← mantissa_eq_zero]
  constructor
  · rintro rfl
    rw [Nat.zero_mul] at hscaled
    exact (Nat.mul_eq_zero.mp hscaled.symm).resolve_right (pow_ne_zero _ two_ne_zero)
  · intro hzero
    rw [hzero, Nat.zero_mul] at hscaled
    exact (Nat.mul_eq_zero.mp hscaled).resolve_right (pow_ne_zero _ two_ne_zero)

theorem exponent_le_of_scaled (h : x.mantissa * 2 ^ x.exponent = y.mantissa * 2 ^ y.exponent) :
    y.exponent ≤ x.exponent := by
  obtain ⟨hlt, -⟩ := mantissa_bounds x
  obtain ⟨-, hle⟩ := mantissa_bounds y
  by_contra hexp
  obtain ⟨d, hd⟩ : ∃ d, y.exponent = x.exponent + (d + 1) := ⟨y.exponent - x.exponent - 1, by omega⟩
  have hone : 1 ≤ x.exponent := le_max_right _ _
  rw [hd, pow_add, mul_left_comm, mul_comm x.mantissa] at h
  have hmantissa : x.mantissa = y.mantissa * 2 ^ (d + 1) := Nat.eq_of_mul_eq_mul_left (by positivity) h
  have htwice : 2 ^ 52 * 2 ^ 1 ≤ y.mantissa * 2 ^ (d + 1) :=
    Nat.mul_le_mul (hle (by omega)) (Nat.pow_le_pow_right (by decide) (by omega))
  omega

theorem eq_of_fields (hsign : x.signBit = y.signBit) (hexp : x.exponent = y.exponent)
    (hmantissa : x.mantissa = y.mantissa) : x = y := by
  have hbits : x.bits.toNat = y.bits.toNat := by
    have hx := x.bits.toNat_lt
    have hy := y.bits.toNat_lt
    have hpow : Nat.pow 2 63 = 2 ^ 63 ∧ Nat.pow 2 52 = 2 ^ 52 ∧ Nat.pow 2 11 = 2 ^ 11 := ⟨rfl, rfl, rfl⟩
    simp only [signBit, exponent, mantissa, exponentField, fractionField, hpow] at hsign hexp hmantissa
    rw [decide_eq_decide] at hsign
    split at hmantissa <;> split at hmantissa <;> omega
  exact congrArg Binary64.mk (UInt64.toNat_inj.mp hbits)

theorem wholeMagnitude?_of_whole (h : x.whole? = some k) :
    ∃ n : Nat, x.wholeMagnitude? = some n ∧ (if x.signBit then -(n : Int) else n) = k := by
  simpa [whole?, Option.bind_eq_some_iff] using h

theorem isFinite_of_whole (h : x.whole? = some k) : x.isFinite = true := by
  obtain ⟨n, hn, -⟩ := wholeMagnitude?_of_whole h
  unfold wholeMagnitude? at hn
  split at hn
  · cases hn
  · next hfinite => simpa using hfinite

theorem sign_of_whole (h : x.whole? = some k) :
    x.isNegative = decide (k < 0) ∧ x.isPositive = decide (0 < k) := by
  obtain ⟨n, hn, rfl⟩ := wholeMagnitude?_of_whole h
  have hz : x.isZero = decide (n = 0) := by
    rw [Bool.eq_iff_iff, ← wholeMagnitude?_eq_zero_iff hn]
    simp
  unfold isNegative isPositive isNumber
  rw [hz, isFinite_of_whole h]
  rcases Nat.eq_zero_or_pos n with rfl | hn
  · simp
  · cases x.signBit <;> simp [hn, hn.ne']

theorem eq_or_isZero_of_whole (hx : x.whole? = some k) (hy : y.whole? = some k) :
    x = y ∨ x.isZero = true ∧ y.isZero = true := by
  obtain ⟨m, hm, hmk⟩ := wholeMagnitude?_of_whole hx
  obtain ⟨n, hn, hnk⟩ := wholeMagnitude?_of_whole hy
  obtain rfl : m = n := by split at hmk <;> split at hnk <;> omega
  rcases Nat.eq_zero_or_pos m with hzero | hpos
  · right
    exact ⟨(wholeMagnitude?_eq_zero_iff hm).mp hzero, (wholeMagnitude?_eq_zero_iff hn).mp hzero⟩
  · left
    have hsign : x.signBit = y.signBit := by
      cases hsx : x.signBit <;> cases hsy : y.signBit <;> simp [hsx, hsy] at hmk hnk ⊢ <;> omega
    have hscaled := (scaled_of_wholeMagnitude hm).symm.trans (scaled_of_wholeMagnitude hn)
    have hexp := le_antisymm (exponent_le_of_scaled hscaled.symm) (exponent_le_of_scaled hscaled)
    rw [hexp] at hscaled
    exact eq_of_fields hsign hexp (eq_of_mul_eq_mul_right (by positivity) hscaled)

end Binary64

end LispLowering
