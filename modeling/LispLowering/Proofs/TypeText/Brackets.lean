import Mathlib
import LispLowering.TypeSyntax.Text

/-!
# Texts with matching brackets
-/

namespace LispLowering.TypeExpr

open Text List

variable {pieces : List (List Char)}

variable {c separator : Char}

/-! ## Matching brackets -/

def isPlain (c : Char) : Bool := !isOpening c && !isClosing c && c != '\n'

/-- The brackets of the text match, there is no line feed in it, and the barred characters do not stand
outside brackets. -/
inductive Nested : List Char → List Char → Prop where
  | nil (barred : List Char) : Nested barred []
  | char {barred rest : List Char} {c : Char} (hplain : isPlain c = true) (hbarred : c ∉ barred) :
      Nested barred rest → Nested barred (c :: rest)
  | group {barred inner rest : List Char} {o c : Char} (hopening : isOpening o = true)
      (hclosing : isClosing c = true) :
      Nested [] inner → Nested barred rest → Nested barred (o :: (inner ++ c :: rest))

theorem isOpening_of_isClosing (h : isClosing c = true) : isOpening c = false := by
  simp only [isClosing, Bool.or_eq_true, decide_eq_true_eq] at h
  rcases h with ((rfl | rfl) | rfl) | rfl <;> rfl

theorem isPlain_iff : isPlain c = true ↔ isOpening c = false ∧ isClosing c = false ∧ c ≠ '\n' := by
  simp [isPlain, and_assoc]

theorem isBalancedAt_opening (h : isOpening c = true) (depth : Nat) (rest : List Char) :
    isBalancedAt depth (c :: rest) = isBalancedAt (depth + 1) rest := by
  cases depth <;> simp [isBalancedAt, h]

theorem isBalancedAt_closing (h : isClosing c = true) (depth : Nat) (rest : List Char) :
    isBalancedAt (depth + 1) (c :: rest) = isBalancedAt depth rest := by
  simp [isBalancedAt, isOpening_of_isClosing h, h]

theorem isBalancedAt_plain (hopening : isOpening c = false) (hclosing : isClosing c = false)
    (depth : Nat) (rest : List Char) : isBalancedAt depth (c :: rest) = isBalancedAt depth rest := by
  cases depth <;> simp [isBalancedAt, hopening, hclosing]

namespace Nested

variable {barred barred' text text' : List Char}

theorem mono (h : Nested barred text) (hsub : barred' ⊆ barred) : Nested barred' text := by
  induction h with
  | nil => exact .nil _
  | char hplain hbarred _ ih => exact .char hplain (fun hmem => hbarred (hsub hmem)) (ih hsub)
  | group hopening hclosing hinner _ _ ih => exact .group hopening hclosing hinner (ih hsub)

theorem append (h : Nested barred text) (h' : Nested barred text') : Nested barred (text ++ text') := by
  induction h with
  | nil => exact h'
  | char hplain hbarred _ ih => exact .char hplain hbarred (ih h')
  | group hopening hclosing hinner _ _ ih =>
    rw [cons_append, append_assoc, cons_append]
    exact .group hopening hclosing hinner (ih h')

theorem of_plain (h : ∀ c ∈ text, isPlain c = true ∧ c ∉ barred) : Nested barred text := by
  induction text with
  | nil => exact .nil _
  | cons c rest ih =>
    obtain ⟨⟨hplain, hbarred⟩, hrest⟩ := forall_mem_cons.mp h
    exact .char hplain hbarred (ih hrest)

theorem spaces (h : ' ' ∉ barred) (n : Nat) : Nested barred (List.replicate n ' ') := by
  refine of_plain fun c hc => ?_
  rw [eq_of_mem_replicate hc]
  exact ⟨rfl, h⟩

theorem no_line_feed (h : Nested barred text) : '\n' ∉ text := by
  induction h with
  | nil => exact not_mem_nil
  | char hplain _ _ ih =>
    rw [mem_cons, not_or]
    exact ⟨(isPlain_iff.mp hplain).2.2.symm, ih⟩
  | group hopening hclosing _ _ ihInner ihRest =>
    simp only [mem_cons, mem_append, not_or]
    refine ⟨?_, ihInner, ?_, ihRest⟩
    · rintro rfl
      cases hopening
    · rintro rfl
      cases hclosing

theorem splitOutside_append (h : Nested barred text) {depth : Int} (hdepth : 0 ≤ depth)
    (hbarred : depth = 0 → separator ∈ barred) (rest : List Char) :
    splitOutside separator depth (text ++ rest) =
      text.foldr consPiece (splitOutside separator depth rest) := by
  induction h generalizing depth rest with
  | nil => rfl
  | @char barred text c hplain hc _ ih =>
    obtain ⟨hopening, hclosing, -⟩ := isPlain_iff.mp hplain
    have hdivides : ¬(c = separator ∧ depth = 0) := by
      rintro ⟨rfl, hzero⟩
      exact hc (hbarred hzero)
    rw [cons_append, splitOutside, hopening, hclosing, if_neg Bool.false_ne_true,
      if_neg Bool.false_ne_true, if_neg hdivides, ih hdepth hbarred]
    rfl
  | @group barred inner text o c hopening hclosing _ _ ihInner ihRest =>
    -- inside the group a bracket is open, so no character needs to be barred there
    have hinside : depth + 1 = 0 → separator ∈ ([] : List Char) := by omega
    rw [cons_append, splitOutside, if_pos hopening, append_assoc, cons_append,
      ihInner (by omega) hinside, splitOutside, isOpening_of_isClosing hclosing,
      if_neg Bool.false_ne_true, if_pos hclosing, add_sub_cancel_right, ihRest hdepth hbarred,
      foldr_cons, foldr_append, foldr_cons]

theorem isBalancedAt_append (h : Nested barred text) (depth : Nat) (rest : List Char) :
    isBalancedAt depth (text ++ rest) = isBalancedAt depth rest := by
  induction h generalizing depth rest with
  | nil => rfl
  | char hplain _ _ ih =>
    obtain ⟨hopening, hclosing, -⟩ := isPlain_iff.mp hplain
    rw [cons_append, isBalancedAt_plain hopening hclosing, ih]
  | group hopening hclosing _ _ ihInner ihRest =>
    rw [cons_append, isBalancedAt_opening hopening, append_assoc, cons_append, ihInner,
      isBalancedAt_closing hclosing, ihRest]

theorem isBalanced_eq (h : Nested barred text) : isBalanced text = true := by
  have hend := h.isBalancedAt_append 0 []
  rwa [append_nil] at hend

end Nested

/-! ## Blanks -/

/-- The text is not empty and has no blanks at its ends. -/
structure Solid (text : List Char) : Prop where
  head : ∃ c, text.head? = some c ∧ isBlank c = false
  last : ∃ c, text.getLast? = some c ∧ isBlank c = false

namespace Solid

variable {text text' : List Char}

theorem ne_nil (h : Solid text) : text ≠ [] := by
  rintro rfl
  obtain ⟨c, hc, -⟩ := h.head
  cases hc

theorem singleton (h : isBlank c = false) : Solid [c] := ⟨⟨c, rfl, h⟩, ⟨c, rfl, h⟩⟩

theorem append (h : Solid text) (h' : Solid text') (middle : List Char) :
    Solid (text ++ (middle ++ text')) := by
  obtain ⟨first, hfirst, hblank⟩ := h.head
  obtain ⟨last, hlast, hblank'⟩ := h'.last
  refine ⟨⟨first, ?_, hblank⟩, ⟨last, ?_, hblank'⟩⟩
  · rw [head?_append, hfirst]
    rfl
  · rw [getLast?_append, getLast?_append, hlast]
    rfl

theorem of_forall (hne : text ≠ []) (h : ∀ c ∈ text, isBlank c = false) : Solid text := by
  refine ⟨⟨text.head hne, head?_eq_some_head hne, h _ (head_mem hne)⟩,
    ⟨text.getLast hne, getLast?_eq_some_getLast hne, h _ (getLast_mem hne)⟩⟩

theorem dropWhile_head (h : ∃ c, text.head? = some c ∧ isBlank c = false) :
    text.dropWhile isBlank = text := by
  obtain ⟨c, hc, hblank⟩ := h
  cases text with
  | nil => cases hc
  | cons d rest =>
    cases hc
    rw [dropWhile_cons, hblank]
    rfl

theorem trimChars_append (h : Solid text) (n : Nat) : trimChars (text ++ List.replicate n ' ') = text := by
  have hhead : ∃ c, (text ++ List.replicate n ' ').head? = some c ∧ isBlank c = false := by
    obtain ⟨c, hc, hblank⟩ := h.head
    exact ⟨c, by rw [head?_append, hc]; rfl, hblank⟩
  have hlast : ∃ c, text.reverse.head? = some c ∧ isBlank c = false := by
    rw [head?_reverse]
    exact h.last
  have hspaces : ∀ c ∈ (List.replicate n ' ').reverse, isBlank c = true := by
    intro c hc
    rw [reverse_replicate] at hc
    rw [eq_of_mem_replicate hc]
    rfl
  -- the blanks behind the text come first when it is turned around
  rw [trimChars, dropWhile_head hhead, reverse_append, dropWhile_append_of_pos hspaces,
    dropWhile_head hlast, reverse_reverse]

theorem trimChars_eq (h : Solid text) : trimChars text = text := by
  have htrim := h.trimChars_append 0
  rwa [replicate_zero, append_nil] at htrim

end Solid

theorem trimChars_space_cons : trimChars (' ' :: text) = trimChars text := rfl

/-! ## Pieces -/

theorem foldr_consPiece (piece : List Char) :
    text.foldr consPiece (piece :: pieces) = (text ++ piece) :: pieces := by
  induction text with
  | nil => rfl
  | cons c rest ih =>
    rw [foldr_cons, ih]
    rfl

theorem consPiece_ne_nil : consPiece c pieces ≠ [] := by
  cases pieces <;> simp [consPiece]

theorem splitOutside_ne_nil (separator : Char) (depth : Int) (text : List Char) :
    splitOutside separator depth text ≠ [] := by
  cases text with
  | nil => simp [splitOutside]
  | cons c rest =>
    rw [splitOutside]
    split_ifs <;> simp [consPiece_ne_nil]

theorem Nested.piecesOutside_eq {barred text : List Char} (h : Nested barred text)
    (hsolid : Solid text) (hbarred : separator ∈ barred) : piecesOutside separator text = [text] := by
  have hsplit := h.splitOutside_append le_rfl (fun _ => hbarred) []
  rw [append_nil, splitOutside, foldr_consPiece, append_nil] at hsplit
  rw [piecesOutside, hsplit, map_singleton, hsolid.trimChars_eq]

def isSeparator (c : Char) : Bool := isPlain c && c != ' '

theorem piecesOutside_spaces (h : isSeparator separator = true) (n : Nat) (text : List Char) :
    piecesOutside separator (List.replicate n ' ' ++ text) = piecesOutside separator text := by
  induction n with
  | zero => rfl
  | succ n ih =>
    have hspace : ¬(' ' = separator ∧ (0 : Int) = 0) := by
      rintro ⟨rfl, -⟩
      cases h
    -- the space in front goes to the first piece, where it is taken off
    rw [← ih, replicate_succ, cons_append, piecesOutside, splitOutside,
      if_neg (by decide), if_neg (by decide), if_neg hspace, piecesOutside]
    cases hpieces : splitOutside separator 0 (List.replicate n ' ' ++ text) with
    | nil => exact absurd hpieces (splitOutside_ne_nil _ _ _)
    | cons piece pieces => rw [consPiece, map_cons, trimChars_space_cons, map_cons]

/-- The text consists of the texts with the separator between them, and any number of spaces around each
separator. -/
inductive Joined (separator : Char) : List (List Char) → List Char → Prop where
  | one (text : List Char) : Joined separator [text] text
  | more {texts : List (List Char)} {rest : List Char} (text : List Char) (m n : Nat) :
      Joined separator texts rest →
      Joined separator (text :: texts)
        (text ++ ((List.replicate m ' ' ++ separator :: List.replicate n ' ') ++ rest))

namespace Joined

variable {separator : Char} {texts : List (List Char)} {text barred : List Char}

theorem exists_of_ne_nil (separator : Char) (h : texts ≠ []) : ∃ text, Joined separator texts text := by
  induction texts with
  | nil => exact absurd rfl h
  | cons first texts ih =>
    cases texts with
    | nil => exact ⟨first, .one first⟩
    | cons second texts =>
      obtain ⟨rest, hrest⟩ := ih (cons_ne_nil _ _)
      exact ⟨_, .more first 0 0 hrest⟩

variable (h : Joined separator texts text)

include h

theorem ne_nil : texts ≠ [] := by
  cases h <;> exact cons_ne_nil _ _

theorem solid (hsolid : ∀ w ∈ texts, Solid w) : Solid text := by
  induction h with
  | one text => exact forall_mem_singleton.mp hsolid
  | more text m n _ ih =>
    obtain ⟨hfirst, hrest⟩ := forall_mem_cons.mp hsolid
    exact hfirst.append (ih hrest) _

theorem nested (hsep : isSeparator separator = true)
    (hbarred : separator ∉ barred) (hspace : ' ' ∉ barred) (hnested : ∀ w ∈ texts, Nested barred w) :
    Nested barred text := by
  induction h with
  | one text => exact forall_mem_singleton.mp hnested
  | more text m n _ ih =>
    obtain ⟨hfirst, hrest⟩ := forall_mem_cons.mp hnested
    obtain ⟨hplain, -⟩ := Bool.and_eq_true_iff.mp hsep
    have hmiddle := (Nested.spaces hspace m).append (.char hplain hbarred (.spaces hspace n))
    exact hfirst.append (hmiddle.append (ih hrest))

theorem length_le : ∀ w ∈ texts, w.length ≤ text.length := by
  induction h with
  | one text => exact forall_mem_singleton.mpr le_rfl
  | more text m n _ ih =>
    refine forall_mem_cons.mpr ⟨by simp, fun w hw => ?_⟩
    have hle := ih w hw
    simp only [length_append]
    omega

theorem length_lt (htexts : 2 ≤ texts.length) : ∀ w ∈ texts, w.length < text.length := by
  cases h with
  | one text => simp at htexts
  | more text m n hrest =>
    simp only [length_append, length_cons]
    refine forall_mem_cons.mpr ⟨by omega, fun w hw => ?_⟩
    have hle := hrest.length_le w hw
    omega

theorem piecesOutside_eq (hsep : isSeparator separator = true)
    (hbarred : separator ∈ barred) (hnested : ∀ w ∈ texts, Nested barred w)
    (hsolid : ∀ w ∈ texts, Solid w) : piecesOutside separator text = texts := by
  induction h with
  | one text =>
    exact (forall_mem_singleton.mp hnested).piecesOutside_eq (forall_mem_singleton.mp hsolid)
      hbarred
  | @more texts rest text m n _ ih =>
    obtain ⟨hnested, hnestedRest⟩ := forall_mem_cons.mp hnested
    obtain ⟨hsolid, hsolidRest⟩ := forall_mem_cons.mp hsolid
    obtain ⟨hplain, hspace⟩ := Bool.and_eq_true_iff.mp hsep
    obtain ⟨hopening, hclosing, -⟩ := isPlain_iff.mp hplain
    -- the first separator outside brackets is the one behind the first text and its spaces
    have hfirst : Nested [separator] (text ++ List.replicate m ' ') := by
      refine (hnested.mono (cons_subset.mpr ⟨hbarred, nil_subset _⟩)).append (.spaces ?_ m)
      rw [mem_singleton]
      exact (bne_iff_ne.mp hspace).symm
    have hsplit := hfirst.splitOutside_append le_rfl (fun _ => .head _)
      (separator :: (List.replicate n ' ' ++ rest))
    rw [splitOutside, hopening, hclosing, if_neg Bool.false_ne_true, if_neg Bool.false_ne_true,
      if_pos ⟨rfl, rfl⟩, foldr_consPiece, append_nil] at hsplit
    have htext : text ++ ((List.replicate m ' ' ++ separator :: List.replicate n ' ') ++ rest) =
        (text ++ List.replicate m ' ') ++ (separator :: (List.replicate n ' ' ++ rest)) := by
      simp only [append_assoc, cons_append]
    rw [htext, piecesOutside, hsplit, map_cons, hsolid.trimChars_append, ← piecesOutside,
      piecesOutside_spaces hsep, ih hnestedRest hsolidRest]

end Joined

end LispLowering.TypeExpr
