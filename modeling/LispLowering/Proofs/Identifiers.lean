import LispLowering.Proofs.Linking

/-!
# Identifiers are stable
-/

namespace LispLowering

open List String

namespace Symbol

/-! ## Characters -/

theorem isNameChar_of_mem_upperHex {n : Nat} : ∀ c ∈ (Text.upperHex n).toList, isNameChar c = true := by
  have hdigits : ∀ c ∈ Nat.toDigits 16 n, ∃ k < 16, c = Nat.digitChar k := by
    induction n using Nat.strong_induction_on with
    | _ n ih =>
      rw [Nat.toDigits_eq_if (by decide)]
      split
      · next hlt => exact forall_mem_singleton.mpr ⟨n, hlt, rfl⟩
      · refine forall_mem_append.mpr ⟨ih (n / 16) (by omega), ?_⟩
        exact forall_mem_singleton.mpr ⟨n % 16, Nat.mod_lt _ (by decide), rfl⟩
  have hupper : ∀ k < 16, isNameChar (Nat.digitChar k).toUpper = true := by decide
  rw [Text.upperHex, toList_ofList]
  refine forall_mem_map.mpr fun c hc => ?_
  obtain ⟨k, hk, rfl⟩ := hdigits c hc
  exact hupper k hk

theorem isNameChar_of_mem_spell (c : Char) : ∀ x ∈ spell c, isNameChar x = true := by
  unfold spell
  split
  case h_13 =>
    split
    · next hc => exact forall_mem_singleton.mpr hc
    · have hmarks : ∀ marks ∈ ["_U".toList, ['_']], ∀ x ∈ marks, isNameChar x = true :=
        fun marks hmarks => all_eq_true.mp (by revert marks; decide)
      rw [forall_mem_append, forall_mem_append]
      exact ⟨⟨hmarks _ (by simp), isNameChar_of_mem_upperHex⟩, hmarks _ (by simp)⟩
  all_goals exact all_eq_true.mp (by decide)

theorem isNameChar_of_mem_property (name : String) : ∀ c ∈ (property name).toList, isNameChar c = true := by
  rw [property, toList_ofList]
  exact forall_mem_flatMap.mpr fun c _ => isNameChar_of_mem_spell c

/-! ## Identifiers -/

theorem property_property (name : String) : property (property name) = property name :=
  property_eq_self_iff.mpr (isNameChar_of_mem_property name)

theorem property_eq_empty_iff {name : String} : property name = "" ↔ name = "" := by
  have hle := length_le_flatMap_spell name.toList
  rw [← toList_eq_nil_iff, ← toList_eq_nil_iff, property, toList_ofList]
  constructor
  · intro h
    rw [h] at hle
    exact length_eq_zero_iff.mp (Nat.le_zero.mp hle)
  · intro h
    rw [h]
    rfl

theorem isPlain_identifier (name : String) : IsPlain (identifier name) := by
  have hchars := isNameChar_of_mem_property name
  unfold identifier
  dsimp only
  split
  · have hword : ∀ word ∈ reserved, word.toList.head? ≠ some '_' := by decide
    refine ⟨?_, by simp [startsWithDigit], ?_⟩
    · rw [toList_append]
      exact forall_mem_append.mpr ⟨all_eq_true.mp (by decide), hchars⟩
    · refine Bool.eq_false_iff.mpr fun h => ?_
      rw [isReserved, contains_iff_mem] at h
      exact hword _ h (by simp)
  · next hfree =>
    rw [Bool.or_eq_true, not_or, Bool.not_eq_true, Bool.not_eq_true] at hfree
    exact ⟨hchars, hfree.1, hfree.2⟩

theorem isChain_of_forall {name : String} (h : ∀ c ∈ name.toList, isNameChar c = true) :
    isChain name = false := by
  unfold isChain
  split
  · rfl
  · next c rest heq =>
    have hdot : '.' ∉ rest := fun hmem =>
      absurd (h '.' (heq ▸ mem_cons_of_mem c hmem)) (by decide +kernel)
    simp [hdot]

end Symbol

/-- An identifier is empty only for the empty symbol. It holds only `_`, `$`, letters and digits, starts with no
digit and is no reserved word. Spelling it again changes nothing, and neither does spelling the property name
first. So the function that a name calls can be looked up by the name and by its identifier. -/
theorem identifier_stable (name : String) : (Symbol.identifier name = "" ↔ name = "") ∧
      (∀ c ∈ (Symbol.identifier name).toList, c = '_' ∨ c = '$' ∨ Text.isAlphanumeric c = true) ∧
      (∀ c ∈ (Symbol.identifier name).toList.head?, c.isDigit = false) ∧
      Symbol.identifier name ∉ Symbol.reserved ∧
      Symbol.identifier (Symbol.identifier name) = Symbol.identifier name ∧
      Symbol.property (Symbol.property name) = Symbol.property name ∧
      Symbol.identifier (Symbol.property name) = Symbol.identifier name ∧ (Symbol.isChain name = false →
        Lowering.declaredFunction? (Symbol.identifier name) = Lowering.declaredFunction? name) := by
  have hplain := Symbol.isPlain_identifier name
  have hstable : Symbol.identifier (Symbol.identifier name) = Symbol.identifier name :=
    Symbol.identifier_eq_self_iff.mpr hplain
  refine ⟨?_, fun c hc => ?_, fun c hc => ?_, ?_, hstable, Symbol.property_property name, ?_, fun hchain => ?_⟩
  · unfold Symbol.identifier
    dsimp only
    split
    · next hmarked =>
      refine iff_of_false (by simp) ?_
      rintro rfl
      exact absurd hmarked (by decide)
    · exact Symbol.property_eq_empty_iff
  · have hname := hplain.chars c hc
    simpa [Symbol.isNameChar, or_assoc] using hname
  · have hdigit := hplain.digit
    unfold Symbol.startsWithDigit at hdigit
    split at hdigit <;> simp_all
  · simpa [Symbol.isReserved] using hplain.word
  · simp only [Symbol.identifier, Symbol.property_property]
  · simp only [Lowering.declaredFunction?, hstable, Symbol.isChain_of_forall hplain.chars, hchain]

/-- A reserved word gets a mark. -/
theorem identifier_stable_reserved : Symbol.identifier "class" = "_class" ∧
      Lowering.declaredFunction? "_class" = Lowering.declaredFunction? "class" := by
  have h : Symbol.identifier "class" = "_class" := by decide +kernel
  obtain ⟨-, -, -, -, -, -, -, hcalled⟩ := identifier_stable "class"
  exact ⟨h, h ▸ hcalled (by decide)⟩

end LispLowering
