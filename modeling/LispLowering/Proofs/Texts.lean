import LispLowering.Proofs.Numbers
import LispLowering.Source.SExpr

/-!
# Texts of trees
-/

namespace LispLowering

open List

namespace Literal

/-! ## Strings -/

/-- The first character of an escaped string, and what is left. -/
def unescape : List Char → Option (Char × List Char)
  | '\\' :: 'n' :: rest => some ('\n', rest)
  | '\\' :: 't' :: rest => some ('\t', rest)
  | '\\' :: 'r' :: rest => some ('\r', rest)
  | '\\' :: c :: rest => some (c, rest)
  | '"' :: _ => none
  | c :: rest => some (c, rest)
  | [] => none

theorem unescape_escape (c : Char) (rest : List Char) : unescape (escape c ++ rest) = some (c, rest) := by
  unfold escape
  split
  case h_6 => simp_all [unescape]
  all_goals rfl

theorem escape_decompose {a b r s : List Char}
    (h : a.flatMap escape ++ '"' :: r = b.flatMap escape ++ '"' :: s) : a = b ∧ r = s := by
  have hquote : ∀ rest, unescape ('"' :: rest) = none := fun _ => rfl
  have hread := congrArg unescape h
  induction a generalizing b with
  | nil =>
    cases b with
    | nil => simpa using h
    | cons d b => simp [hquote, unescape_escape, append_assoc] at hread
  | cons c a ih =>
    cases b with
    | nil => simp [hquote, unescape_escape, append_assoc] at hread
    | cons d b =>
      simp only [flatMap_cons, append_assoc, unescape_escape, Option.some.injEq, Prod.mk.injEq] at hread
      obtain ⟨rfl, hrest⟩ := hread
      obtain ⟨rfl, rfl⟩ := ih hrest (congrArg unescape hrest)
      exact ⟨rfl, rfl⟩

end Literal

namespace SExpr

/-! ## Readable trees -/

/-- The characters by which texts are told apart. -/
def marks : List Char := [' ', '(', ')', '"']

/-- Texts of literals that are no strings. -/
def Taken (word : String) : Prop :=
  word ∈ ["null", "true", "false"] ∨ ∃ n : Int, word = Text.signedDecimal n

/-- Trees whose symbols are words of their own, and whose numbers are whole and below the limit. -/
inductive Readable : SExpr → Prop where
  | symbol {name : String} {p : Option Position} (hne : name ≠ "") (hmarks : ∀ c ∈ name.toList, c ∉ marks)
      (hfree : ¬Taken name) : Readable (.symbol name p)
  | literal {value : Literal} {p : Option Position}
      (hnumber : ∀ x, value = .number x → ∃ n, x.whole? = some n ∧ n.natAbs < Binary64.wholeLimit) :
      Readable (.literal value p)
  | list {items : List SExpr} {p : Option Position} (hitems : ∀ item ∈ items, Readable item) :
      Readable (.list items p)

/-- Trees that are equal up to positions; the two zeros are equal numbers. -/
inductive Same : SExpr → SExpr → Prop where
  | symbol {name : String} {p q : Option Position} : Same (.symbol name p) (.symbol name q)
  | literal {value : Literal} {p q : Option Position} : Same (.literal value p) (.literal value q)
  | zero {x y : Binary64} {p q : Option Position} (hx : x.isZero = true) (hy : y.isZero = true) :
      Same (.literal (.number x) p) (.literal (.number y) q)
  | list {items items' : List SExpr} {p q : Option Position} (h : List.Forall₂ Same items items') :
      Same (.list items p) (.list items' q)

/-! ## Words -/

/-- The text goes on to the next mark. -/
structure IsWord (word : List Char) : Prop where
  ne : word ≠ []
  free : ∀ c ∈ word, c ∉ marks

/-- What follows a tree within a text: nothing, the next item or the end of the list. -/
def Ends (rest : List Char) : Prop := ∀ c ∈ rest.head?, c = ' ' ∨ c = ')'

theorem IsWord.decompose {v w r s : List Char} (hv : IsWord v) (hw : IsWord w) (hr : Ends r) (hs : Ends s)
    (h : v ++ r = w ++ s) : v = w ∧ r = s := by
  have htake : ∀ {word rest : List Char}, IsWord word → Ends rest →
      (word ++ rest).takeWhile (fun c => !decide (c ∈ marks)) = word := by
    intro word rest hword hrest
    rw [List.takeWhile_append_of_pos (by simpa using hword.free)]
    cases rest with
    | nil => simp
    | cons c rest =>
      rcases hrest c rfl with rfl | rfl <;> simp [List.takeWhile, marks]
  have hvw : v = w := by
    rw [← htake hv hr, h, htake hw hs]
  subst hvw
  exact ⟨rfl, List.append_cancel_left h⟩

theorem IsWord.ne_mark {w r s : List Char} {c : Char} (hw : IsWord w) (hc : c ∈ marks) : w ++ r ≠ c :: s := by
  cases w with
  | nil => exact absurd rfl hw.ne
  | cons d w =>
    intro h
    cases h
    exact hw.free c (.head _) hc

theorem isWord_signedDecimal (n : Int) : IsWord (Text.signedDecimal n).toList := by
  have hfree : ∀ c ∈ marks, c ≠ '-' ∧ c.isDigit = false := by simp [marks]
  refine ⟨?_, fun c hc hmark => ?_⟩
  · rw [Text.toList_signedDecimal]
    simp [Text.decimal, Nat.toDigits_ne_nil]
  · obtain ⟨hminus, hdigit⟩ := hfree c hmark
    rcases Text.minus_or_isDigit_of_mem_signedDecimal hc with rfl | hc
    · exact hminus rfl
    · rw [hdigit] at hc
      cases hc

theorem signedDecimal_notMem (n : Int) : Text.signedDecimal n ∉ ["null", "true", "false"] := by
  have hletter : ∀ word ∈ ["null", "true", "false"], ∃ c ∈ word.toList, c ≠ '-' ∧ c.isDigit = false := by
    simp
  intro hword
  obtain ⟨c, hc, hminus, hdigit⟩ := hletter _ hword
  rcases Text.minus_or_isDigit_of_mem_signedDecimal hc with rfl | hc
  · exact hminus rfl
  · rw [hdigit] at hc
    cases hc

theorem Taken.isWord {word : String} (h : Taken word) : IsWord word.toList := by
  have hwords : ∀ word ∈ ["null", "true", "false"], word.toList ≠ [] ∧ ∀ c ∈ word.toList, c ∉ marks := by
    simp [marks]
  rcases h with h | ⟨n, rfl⟩
  · exact ⟨(hwords _ h).1, (hwords _ h).2⟩
  · exact isWord_signedDecimal n

/-! ## Leaves -/

/-- Literals that are words. -/
inductive Spelled : Literal → String → Prop where
  | word {value : Literal} (h : value ∈ [.null, .bool true, .bool false]) : Spelled value value.text
  | number {x : Binary64} {n : Int} (h : x.whole? = some n) : Spelled (.number x) (Text.signedDecimal n)

/-- Trees that are words. -/
inductive Leaf : SExpr → String → Prop where
  | symbol {name : String} {p : Option Position} (hword : IsWord name.toList) (hfree : ¬Taken name) :
      Leaf (.symbol name p) name
  | literal {value : Literal} {word : String} {p : Option Position} (h : Spelled value word) :
      Leaf (.literal value p) word

section Leaves

variable {value value' : Literal} {word : String} {t u : SExpr} {p q : Option Position} {r s : List Char}

theorem spelled_of_whole
    (hnumber : ∀ x, value = .number x → ∃ n, x.whole? = some n ∧ n.natAbs < Binary64.wholeLimit) :
    (∃ text, value = .string text) ∨ Spelled value value.text := by
  cases value with
  | null => exact .inr (.word (by decide))
  | bool value => exact .inr (.word (by cases value <;> decide))
  | number x =>
    obtain ⟨n, hwhole, hlimit⟩ := hnumber x rfl
    have htext : (Literal.number x).text = Text.signedDecimal n := by
      simp [Literal.text, Binary64.sourceText, hwhole, hlimit]
    rw [htext]
    exact .inr (.number hwhole)
  | string text => exact .inl ⟨text, rfl⟩

theorem Spelled.taken (h : Spelled value word) : Taken word := by
  have hwords : ∀ value ∈ [Literal.null, .bool true, .bool false], value.text ∈ ["null", "true", "false"] := by
    decide
  cases h with
  | word h => exact .inl (hwords _ h)
  | number => exact .inr ⟨_, rfl⟩

theorem Spelled.same (h : Spelled value word) (h' : Spelled value' word) :
    Same (.literal value p) (.literal value' q) := by
  have hwords : ∀ value ∈ [Literal.null, .bool true, .bool false], value.text ∈ ["null", "true", "false"] ∧
      ∀ value' ∈ [Literal.null, .bool true, .bool false], value'.text = value.text → value = value' := by
    decide
  cases h with
  | word h =>
    generalize htext : value.text = word at h'
    cases h' with
    | word h' => exact (hwords _ h).2 _ h' htext.symm ▸ .literal
    | number => exact absurd (htext ▸ (hwords _ h).1) (signedDecimal_notMem _)
  | number hx =>
    generalize htext : Text.signedDecimal _ = word at h'
    cases h' with
    | word h' => exact absurd (htext ▸ (hwords _ h').1) (signedDecimal_notMem _)
    | number hy =>
      obtain rfl := Text.signedDecimal_injective htext
      rcases Binary64.eq_or_isZero_of_whole hx hy with rfl | ⟨hx, hy⟩
      · exact .literal
      · exact .zero hx hy

theorem Leaf.isWord (h : Leaf t word) : IsWord word.toList := by
  cases h with
  | symbol hword => exact hword
  | literal h => exact h.taken.isWord

theorem Leaf.same (h : Leaf t word) (h' : Leaf u word) : Same t u := by
  cases h with
  | symbol _ hfree =>
    cases h' with
    | symbol => exact .symbol
    | literal h' => exact absurd h'.taken hfree
  | literal h =>
    cases h' with
    | symbol _ hfree => exact absurd h.taken hfree
    | literal h' => exact h.same h'

end Leaves

/-! ## Trees -/

section Trees

variable {t u : SExpr} {items items' : List SExpr} {text text' : String} {p q : Option Position} {r s : List Char}

/-- What follows the first item of a list. -/
def following (items : List SExpr) : List Char := items.flatMap fun item => ' ' :: item.text.toList

/-- What stands between the parentheses of a list. -/
def inside : List SExpr → List Char
  | [] => []
  | item :: rest => item.text.toList ++ following rest

theorem toList_intercalate_texts (items : List SExpr) : (" ".intercalate (texts items)).toList = inside items := by
  cases items with
  | nil => rfl
  | cons item rest =>
    induction rest generalizing item with
    | nil => simp [texts, inside, following]
    | cons next rest ih => simpa [texts, inside, following, String.intercalate_cons_cons] using ih next

theorem toList_text_list : (SExpr.text (.list items p)).toList ++ r = '(' :: (inside items ++ ')' :: r) := by
  rw [SExpr.text, String.toList_append, String.toList_append, toList_intercalate_texts]
  simp

theorem toList_text_string : (SExpr.text (.literal (.string text) p)).toList ++ r =
    '"' :: (text.toList.flatMap Literal.escape ++ '"' :: r) := by
  simp [SExpr.text, Literal.text, Literal.quote]

theorem Readable.view (h : Readable t) : Leaf t t.text ∨ (∃ text p, t = .literal (.string text) p) ∨
    ∃ items p, t = .list items p ∧ ∀ item ∈ items, Readable item := by
  cases h with
  | symbol hne hmarks hfree =>
    left
    exact .symbol ⟨by simpa using hne, hmarks⟩ hfree
  | literal hnumber =>
    rcases spelled_of_whole hnumber with ⟨text, rfl⟩ | hspelled
    · exact .inr (.inl ⟨text, _, rfl⟩)
    · exact .inl (.literal hspelled)
  | list hitems => exact .inr (.inr ⟨_, _, rfl, hitems⟩)

theorem Readable.not_ends (h : Readable t) : ¬Ends (t.text.toList ++ r) := by
  intro hends
  rcases h.view with hleaf | ⟨text, p, rfl⟩ | ⟨items, p, rfl, -⟩
  · obtain ⟨c, word, hword⟩ := List.exists_cons_of_ne_nil hleaf.isWord.ne
    have hmark := hleaf.isWord.free c (hword ▸ (.head _))
    rw [hword] at hends
    rcases hends c rfl with rfl | rfl <;> simp [marks] at hmark
  · rw [toList_text_string] at hends
    simpa using hends '"' rfl
  · rw [toList_text_list] at hends
    simpa using hends '(' rfl

/-- Where the text of the tree ends is clear, and no other tree has it. -/
def Separable (t : SExpr) : Prop :=
  ∀ {u : SExpr} {r s : List Char}, Readable u → Ends r → Ends s → t.text.toList ++ r = u.text.toList ++ s →
    Same t u ∧ r = s

theorem ends_following (items : List SExpr) (r : List Char) : Ends (following items ++ ')' :: r) := by
  cases items <;> simp [Ends, following]

theorem decompose_following (hitems : ∀ item ∈ items, Separable item) (hitems' : ∀ item ∈ items', Readable item)
    (h : following items ++ ')' :: r = following items' ++ ')' :: s) : List.Forall₂ Same items items' ∧ r = s := by
  induction items generalizing items' with
  | nil =>
    cases items' with
    | nil => exact ⟨.nil, by simpa [following] using h⟩
    | cons item' rest' => simp [following] at h
  | cons item rest ih =>
    cases items' with
    | nil => simp [following] at h
    | cons item' rest' =>
      rw [forall_mem_cons] at hitems hitems'
      have hcut : item.text.toList ++ (following rest ++ ')' :: r) =
          item'.text.toList ++ (following rest' ++ ')' :: s) := by
        simpa [following] using h
      obtain ⟨hsame, hrest⟩ := hitems.1 hitems'.1 (ends_following _ _) (ends_following _ _) hcut
      obtain ⟨hall, hrest⟩ := ih hitems.2 hitems'.2 hrest
      exact ⟨.cons hsame hall, hrest⟩

theorem decompose_inside (hitems : ∀ item ∈ items, Readable item ∧ Separable item)
    (hitems' : ∀ item ∈ items', Readable item) (h : inside items ++ ')' :: r = inside items' ++ ')' :: s) :
    List.Forall₂ Same items items' ∧ r = s := by
  have hempty : ∀ {item : SExpr} {rest : List SExpr} {r s : List Char}, Readable item →
      ')' :: r ≠ inside (item :: rest) ++ s := by
    intro item rest r s hitem h
    rw [inside, append_assoc] at h
    exact hitem.not_ends (h ▸ ends_following [] r)
  cases items with
  | nil =>
    cases items' with
    | nil => exact ⟨.nil, by simpa [inside] using h⟩
    | cons item' rest' => exact absurd h (hempty (hitems' item' (.head _)))
  | cons item rest =>
    cases items' with
    | nil => exact absurd h.symm (hempty (hitems item (.head _)).1)
    | cons item' rest' =>
      -- A blank before the first items makes them like the others.
      refine decompose_following (fun item hitem => (hitems item hitem).2) hitems' ?_
      simpa [inside, following] using h

theorem Leaf.separable (ht : Leaf t t.text) : Separable t := by
  intro u r s hu hr hs h
  have hword := ht.isWord
  rcases hu.view with hleaf | ⟨text, p, rfl⟩ | ⟨items, p, rfl, -⟩
  · obtain ⟨htext, hrest⟩ := hword.decompose hleaf.isWord hr hs h
    rw [← String.toList_injective htext] at hleaf
    exact ⟨ht.same hleaf, hrest⟩
  · exact absurd (h.trans toList_text_string) (hword.ne_mark (by simp [marks]))
  · exact absurd (h.trans toList_text_list) (hword.ne_mark (by simp [marks]))

theorem separable_string : Separable (.literal (.string text) p) := by
  intro u r s hu _ _ h
  rw [toList_text_string] at h
  rcases hu.view with hleaf | ⟨text', q, rfl⟩ | ⟨items, q, rfl, -⟩
  · exact absurd h.symm (hleaf.isWord.ne_mark (by simp [marks]))
  · rw [toList_text_string, List.cons.injEq] at h
    obtain ⟨htext, hrest⟩ := Literal.escape_decompose h.2
    rw [String.toList_injective htext]
    exact ⟨.literal, hrest⟩
  · simp [toList_text_list] at h

theorem Readable.separable (ht : Readable t) : Separable t := by
  induction ht with
  | symbol hne hmarks hfree =>
    apply Leaf.separable
    exact .symbol ⟨by simpa using hne, hmarks⟩ hfree
  | literal hnumber =>
    rcases spelled_of_whole hnumber with ⟨text, rfl⟩ | hspelled
    · exact separable_string
    · exact Leaf.separable (.literal hspelled)
  | list hitems ih =>
    -- The items of the list are told apart first: each of them is separable.
    intro u r s hu _ _ h
    rw [toList_text_list] at h
    rcases hu.view with hleaf | ⟨text, p, rfl⟩ | ⟨items', p, rfl, hitems'⟩
    · exact absurd h.symm (hleaf.isWord.ne_mark (by simp [marks]))
    · simp [toList_text_string] at h
    · rw [toList_text_list, List.cons.injEq] at h
      obtain ⟨hall, hrest⟩ := decompose_inside (fun item hitem => ⟨hitems item hitem, ih item hitem⟩) hitems' h.2
      exact ⟨.list hall, hrest⟩

end Trees

end SExpr

/-- Readable trees with one text are equal up to their positions. -/
theorem texts_uniquely_readable {t u : SExpr} (ht : t.Readable) (hu : u.Readable) (h : t.text = u.text) :
    t.Same u := by
  refine (ht.separable (r := []) (s := []) hu (by simp [SExpr.Ends]) (by simp [SExpr.Ends]) ?_).1
  rw [h]

/-- A call with a string that holds a quote and a parenthesis, and with a zero. -/
def quotedCall (p : Option Position) (negative : Bool) : SExpr :=
  .list [.symbol "f" p, .literal (.string "a\") b") p, .literal (.number (.zero negative)) p] p

theorem readable_quotedCall (p : Option Position) (negative : Bool) : (quotedCall p negative).Readable := by
  have hzero : ∀ negative, (Binary64.zero negative).whole? = some 0 := by decide +kernel
  refine .list (forall_mem_cons.mpr ⟨.symbol (by decide) (by simp [SExpr.marks]) ?_, ?_⟩)
  · rintro (hword | ⟨n, hnumeral⟩)
    · simp at hword
    · rcases Text.minus_or_isDigit_of_mem_signedDecimal (n := n) (c := 'f') (hnumeral ▸ by simp) with h | h <;>
        simp at h
  · refine forall_mem_cons.mpr ⟨.literal (by simp), forall_mem_singleton.mpr (.literal fun x hx => ?_)⟩
    cases hx
    exact ⟨0, hzero negative, by decide⟩

theorem texts_uniquely_readable_zero : (quotedCall none false).text = "(f \"a\\\") b\" 0)" ∧
      (quotedCall none false).Same (quotedCall (some ⟨1, 2, none⟩) true) :=
  ⟨by decide +kernel, texts_uniquely_readable (readable_quotedCall _ _) (readable_quotedCall _ _) (by decide +kernel)⟩

end LispLowering
