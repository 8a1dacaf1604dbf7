import LispLowering.Proofs.TypeText.Agreement

/-!
# Quoted texts as types
-/

namespace LispLowering.TypeExpr

open List

/-! ## Brackets that match -/

variable {text barred : List Char}

theorem exists_group {depth : Nat} (h : isBalancedAt (depth + 1) text = true) (hline : '\n' ∉ text) :
    ∃ inner c rest, text = inner ++ c :: rest ∧ isClosing c = true ∧ Nested [] inner ∧
      isBalancedAt depth rest = true := by
  induction hlength : text.length using Nat.strong_induction_on generalizing text depth with
  | _ length ih =>
    subst hlength
    cases text with
    | nil => simp [isBalancedAt] at h
    | cons c text =>
      obtain ⟨hc, hrest⟩ := not_or.mp (mt mem_cons.mpr hline)
      cases hopening : isOpening c with
      | true =>
        rw [isBalancedAt_opening hopening] at h
        obtain ⟨inner, close, rest, rfl, hclosing, hinner, hafter⟩ :=
          ih text.length (by simp) h hrest rfl
        have hline' : '\n' ∉ rest := fun hmem => hrest (by simp [hmem])
        obtain ⟨inner', close', rest', rfl, hclosing', hinner', hafter'⟩ :=
          ih rest.length (by simp; omega) hafter hline' rfl
        exact ⟨c :: (inner ++ close :: inner'), close', rest', by simp, hclosing',
          .group hopening hclosing hinner hinner', hafter'⟩
      | false =>
        cases hclosing : isClosing c with
        | true =>
          rw [isBalancedAt_closing hclosing] at h
          exact ⟨[], c, text, rfl, hclosing, .nil _, h⟩
        | false =>
          rw [isBalancedAt_plain hopening hclosing] at h
          obtain ⟨inner, close, rest, rfl, hclose, hinner, hafter⟩ :=
            ih text.length (by simp) h hrest rfl
          have hplain : isPlain c = true := isPlain_iff.mpr ⟨hopening, hclosing, Ne.symm hc⟩
          exact ⟨c :: inner, close, rest, rfl, hclose, .char hplain not_mem_nil hinner, hafter⟩

theorem length_foldr_consPiece (text : List Char) {pieces : List (List Char)} (h : pieces ≠ []) :
    (text.foldr consPiece pieces).length = pieces.length := by
  cases pieces with
  | nil => exact absurd rfl h
  | cons piece rest => rw [foldr_consPiece, length_cons, length_cons]

theorem nested_of_isBalanced (h : isBalanced text = true) (hline : '\n' ∉ text)
    (hwhole : ∀ separator ∈ barred, (splitOutside separator 0 text).length = 1) : Nested barred text := by
  rw [isBalanced] at h
  -- a group is passed over as a whole, so the induction is on the length
  induction hlength : text.length using Nat.strong_induction_on generalizing text with
  | _ length ih =>
    subst hlength
    cases text with
    | nil => exact .nil _
    | cons c text =>
      obtain ⟨hc, hrest⟩ := not_or.mp (mt mem_cons.mpr hline)
      cases hopening : isOpening c with
      | true =>
        rw [isBalancedAt_opening hopening] at h
        obtain ⟨inner, close, rest, rfl, hclosing, hinner, hafter⟩ := exists_group h hrest
        have hline' : '\n' ∉ rest := fun hmem => hrest (by simp [hmem])
        refine .group hopening hclosing hinner (ih rest.length (by simp; omega) hafter hline' ?_ rfl)
        intro separator hsep
        have hgroup : Nested [separator] (c :: (inner ++ [close])) :=
          .group hopening hclosing hinner (.nil _)
        have hsplit := hgroup.splitOutside_append le_rfl (fun _ => .head _) rest
        rw [← hwhole separator hsep, ← length_foldr_consPiece (c :: (inner ++ [close]))
          (splitOutside_ne_nil separator 0 rest), ← hsplit]
        simp
      | false =>
        cases hclosing : isClosing c with
        | true => simp [isBalancedAt, hopening, hclosing] at h
        | false =>
          rw [isBalancedAt_plain hopening hclosing] at h
          have hbarred : c ∉ barred := by
            intro hmem
            have hone := hwhole c hmem
            have hne := splitOutside_ne_nil c 0 text
            simp [splitOutside, hopening, hclosing, hne] at hone
          refine .char (isPlain_iff.mpr ⟨hopening, hclosing, Ne.symm hc⟩) hbarred
            (ih text.length (by simp) h hrest ?_ rfl)
          intro separator hsep
          have hdivides : ¬(c = separator ∧ (0 : Int) = 0) := fun hand => hbarred (hand.1 ▸ hsep)
          rw [← hwhole separator hsep, splitOutside, hopening, hclosing,
            if_neg Bool.false_ne_true, if_neg Bool.false_ne_true, if_neg hdivides]
          exact (length_foldr_consPiece [c] (splitOutside_ne_nil separator 0 text)).symm

/-! ## Leaves -/

/-- The text is not put together from other types, and it is passed over as a whole where it is part of a
text. -/
structure Leaf (text : List Char) : Prop where
  nested : Nested [',', '|', '&'] text
  solid : Solid text
  array : text.getLast? ≠ some ']'
  generic : generic? text = none

theorem Leaf.word (h : isTypeName text = true) : Leaf text :=
  ⟨nested_word h, solid_word h, getLast?_word h, generic?_word h⟩

theorem Leaf.ofCharsWithin (h : Leaf text) (fuel : Nat) : ofCharsWithin fuel text = ofLeaf text := by
  cases fuel with
  | zero => rw [TypeExpr.ofCharsWithin, h.solid.trimChars_eq]
  | succ fuel =>
    rw [TypeExpr.ofCharsWithin, h.solid.trimChars_eq]
    exact ofTrimmedWith_leaf (h.nested.piecesOutside_eq h.solid (by simp))
      (h.nested.piecesOutside_eq h.solid (by simp)) (arrayElement?_eq_none h.array) h.generic

section Leaves

variable {texts : List (List Char)} {text : List Char}

theorem ofText_of_solid (h : Solid text) : ∃ fuel, ofText (String.ofList text) =
    ofTrimmedWith (ofCharsWithin fuel) text := by
  rw [ofText, String.toList_ofList]
  cases hlength : text.length with
  | zero => exact absurd (eq_nil_of_length_eq_zero hlength) h.ne_nil
  | succ fuel => exact ⟨fuel, by rw [ofCharsWithin, h.trimChars_eq]⟩

theorem map_ofCharsWithin (h : ∀ w ∈ texts, Leaf w) (fuel : Nat) :
    texts.map (ofCharsWithin fuel) = texts.map ofLeaf :=
  map_congr_left fun w hw => (h w hw).ofCharsWithin fuel

theorem ofText_union (h : ∀ w ∈ texts, Leaf w) (hmany : 2 ≤ texts.length) (htext : Joined '|' texts text) :
    ofText (String.ofList text) = .union (texts.map ofLeaf) := by
  obtain ⟨fuel, hread⟩ := ofText_of_solid (htext.solid fun w hw => (h w hw).solid)
  rw [hread, ofTrimmedWith_union (htext.piecesOutside_eq rfl (by simp) (fun w hw => (h w hw).nested)
    fun w hw => (h w hw).solid) hmany, map_ofCharsWithin h]

theorem ofText_intersection (h : ∀ w ∈ texts, Leaf w) (hmany : 2 ≤ texts.length)
    (htext : Joined '&' texts text) : ofText (String.ofList text) = .intersection (texts.map ofLeaf) := by
  have hsolid := htext.solid fun w hw => (h w hw).solid
  have hbar : Nested ['|'] text := htext.nested rfl (by simp) (by simp)
    fun w hw => (h w hw).nested.mono (by simp)
  obtain ⟨fuel, hread⟩ := ofText_of_solid hsolid
  rw [hread, ofTrimmedWith_intersection (hbar.piecesOutside_eq hsolid (by simp))
    (htext.piecesOutside_eq rfl (by simp) (fun w hw => (h w hw).nested) fun w hw => (h w hw).solid) hmany,
    map_ofCharsWithin h]

theorem ofText_generic {name : String} (hname : isTypeName name.toList = true) (h : ∀ w ∈ texts, Leaf w)
    (htext : Joined ',' texts text) : ofText (String.ofList (name.toList ++ '<' :: (text ++ ['>']))) =
      .reference name (texts.map ofLeaf) := by
  have hinside : Nested [] text := htext.nested rfl not_mem_nil not_mem_nil
    fun w hw => (h w hw).nested.mono (nil_subset _)
  have hnested : Nested [',', '|', '&'] (name.toList ++ '<' :: (text ++ ['>'])) :=
    (nested_word hname).append (.group rfl rfl hinside (.nil _))
  have hsolid : Solid (name.toList ++ '<' :: (text ++ ['>'])) :=
    (solid_word hname).append (.singleton rfl) ('<' :: text)
  have hlast : (name.toList ++ '<' :: (text ++ ['>'])).getLast? ≠ some ']' := by
    rw [← cons_append, ← append_assoc, getLast?_concat]
    decide
  obtain ⟨fuel, hread⟩ := ofText_of_solid hsolid
  rw [hread, ofTrimmedWith_generic (hnested.piecesOutside_eq hsolid (by simp))
    (hnested.piecesOutside_eq hsolid (by simp)) (arrayElement?_eq_none hlast)
    (generic?_append hname (htext.solid fun w hw => (h w hw).solid).ne_nil hinside.no_line_feed)
    hinside.isBalanced_eq
    (htext.piecesOutside_eq rfl (by simp) (fun w hw => (h w hw).nested) fun w hw => (h w hw).solid),
    map_ofCharsWithin h, String.ofList_toList]

end Leaves

/-! ## Quotations -/

/-- The content between quotation marks. -/
def quotation (content : String) : List Char := '"' :: (content.toList ++ ['"'])

theorem solid_quotation (content : String) : Solid (quotation content) :=
  (Solid.singleton rfl).append (.singleton rfl) content.toList

theorem getLast?_quotation (content : String) : (quotation content).getLast? = some '"' := by
  rw [quotation, ← List.cons_append, List.getLast?_concat]

theorem ofLeaf_quotation (content : String) : ofLeaf (quotation content) = .literal (.string content) := by
  have hnumeral : Binary64.ofNumeral? (quotation content) = none := by
    simp [quotation, Binary64.ofNumeral?, Binary64.ofUnsigned?, Binary64.ofWord?, Binary64.fractionOf,
      ← String.toList_inj]
  have hquotation : quotation? (quotation content) = some content.toList :=
    List.isSuffixOf?_eq_some_iff_append_eq.mpr rfl
  rw [ofLeaf, if_neg (by simp [quotation]), if_neg (by simp [quotation]),
    if_neg (by simp [quotation, isTypeName, isNameStart]), hnumeral, hquotation]
  simp

theorem Leaf.quotation {content : String} (h : Nested [',', '|', '&'] (quotation content)) :
    Leaf (TypeExpr.quotation content) :=
  ⟨h, solid_quotation content, by simp [getLast?_quotation], rfl⟩

/-- The quoted content is read as the type of this string, by itself and next to names. -/
structure ReadsQuotation (content : String) : Prop where
  alone : ofText (String.ofList (quotation content)) = .literal (.string content)
  argument (name : String) (before after : List (List Char)) (text : List Char) :
    isTypeName name.toList = true → (∀ w ∈ before ++ after, isTypeName w = true) →
    Joined ',' (before ++ quotation content :: after) text →
    ofText (String.ofList (name.toList ++ '<' :: (text ++ ['>']))) =
      .reference name (before.map ofLeaf ++ .literal (.string content) :: after.map ofLeaf)
  union (before after : List (List Char)) (text : List Char) :
    before ++ after ≠ [] → (∀ w ∈ before ++ after, isTypeName w = true) →
    Joined '|' (before ++ quotation content :: after) text → ofText (String.ofList text) =
      .union (before.map ofLeaf ++ .literal (.string content) :: after.map ofLeaf)
  intersection (before after : List (List Char)) (text : List Char) :
    before ++ after ≠ [] → (∀ w ∈ before ++ after, isTypeName w = true) →
    Joined '&' (before ++ quotation content :: after) text → ofText (String.ofList text) =
      .intersection (before.map ofLeaf ++ .literal (.string content) :: after.map ofLeaf)

theorem ofLeaf_ne_reference (text : List Char) (name : String) (type : TypeExpr) :
    ofLeaf text ≠ .reference name [type] := by
  unfold ofLeaf
  repeat' split
  all_goals simp [named]

theorem whole_of_ofTrimmedWith {inner : List Char → TypeExpr} {type : TypeExpr}
    (h : ofTrimmedWith inner text = type) (hunion : type.isUnion = false)
    (hinter : type.isIntersection = false) :
    ∀ separator ∈ ['|', '&'], (splitOutside separator 0 text).length = 1 := by
  have hone {separator : Char}
      (hpieces : ∀ first second rest, piecesOutside separator text ≠ first :: second :: rest) :
      (splitOutside separator 0 text).length = 1 := by
    have hne := splitOutside_ne_nil separator 0 text
    rw [piecesOutside] at hpieces
    rcases hsplit : splitOutside separator 0 text with _ | ⟨first, _ | ⟨second, rest⟩⟩
    · exact absurd hsplit hne
    · rfl
    · exact absurd (by rw [hsplit]; rfl) (hpieces _ _ _)
  unfold ofTrimmedWith at h
  split at h
  · cases h
    cases hunion
  · next hbar =>
    split at h
    · cases h
      cases hinter
    · next hampersand => simp [hone hbar, hone hampersand]

theorem whole_of_argument {inner : List Char → TypeExpr} {type : TypeExpr} (hne : text ≠ [])
    (h : ofTrimmedWith inner ('A' :: '<' :: (text ++ ['>'])) = .reference "A" [type]) :
    isBalanced text = true ∧ '\n' ∉ text ∧ (splitOutside ',' 0 text).length = 1 := by
  have hgeneric : generic? ('A' :: '<' :: (text ++ ['>'])) =
      if '\n' ∈ text then none else some (['A'], text) := by
    have hsuffix : List.isSuffixOf? ['>'] (text ++ ['>']) = some text :=
      List.isSuffixOf?_eq_some_iff_append_eq.mpr rfl
    have hspan : ('A' :: '<' :: (text ++ ['>'])).span isNamePart = (['A'], '<' :: (text ++ ['>'])) := rfl
    have hname : isTypeName ['A'] = true := rfl
    simp only [generic?, hspan, hsuffix]
    simp [hname, hne]
  unfold ofTrimmedWith at h
  split at h
  · cases h
  · split at h
    · cases h
    · split at h
      · cases h
      · rw [hgeneric] at h
        by_cases hline : '\n' ∈ text
        · rw [if_pos hline] at h
          exact absurd h (ofLeaf_ne_reference _ _ _)
        · simp only [if_neg hline] at h
          split at h
          · next hbalanced =>
            have hlength := congrArg List.length (TypeExpr.reference.inj h).2
            exact ⟨hbalanced, hline, by simpa [piecesOutside] using hlength⟩
          · exact absurd h (ofLeaf_ne_reference _ _ _)

/-- A quoted text is read as the type of its content, by itself and next to names, exactly if its brackets match,
it is on one line and no separator stands outside its brackets. -/
theorem quotation_read_iff (content : String) :
    ReadsQuotation content ↔ Nested [',', '|', '&'] (quotation content) := by
  constructor
  · intro h
    -- the text alone is not split at the bars, and as an argument it is neither split nor cut short
    have hgeneric := h.argument "A" [] [] _ rfl (by simp) (.one _)
    have hsolid : Solid ('A' :: '<' :: (quotation content ++ ['>'])) :=
      (Solid.singleton rfl).append (.singleton rfl) ('<' :: quotation content)
    obtain ⟨fuel, halone⟩ := ofText_of_solid (solid_quotation content)
    obtain ⟨fuel', hread⟩ := ofText_of_solid hsolid
    have hwhole := whole_of_ofTrimmedWith (halone.symm.trans h.alone) rfl rfl
    obtain ⟨hbalanced, hline, hcomma⟩ :=
      whole_of_argument (solid_quotation content).ne_nil (hread.symm.trans hgeneric)
    exact nested_of_isBalanced hbalanced hline (List.forall_mem_cons.mpr ⟨hcomma, hwhole⟩)
  · intro h
    have hleaves {before after : List (List Char)} (hnames : ∀ w ∈ before ++ after, isTypeName w = true) :
        ∀ w ∈ before ++ quotation content :: after, Leaf w := by
      intro w hw
      rcases List.mem_append.mp hw with hbefore | hrest
      · exact .word (hnames w (List.mem_append_left _ hbefore))
      · rcases List.mem_cons.mp hrest with rfl | hafter
        · exact .quotation h
        · exact .word (hnames w (List.mem_append_right _ hafter))
    have hmap (before after : List (List Char)) : (before ++ quotation content :: after).map ofLeaf =
        before.map ofLeaf ++ .literal (.string content) :: after.map ofLeaf := by
      rw [List.map_append, List.map_cons, ofLeaf_quotation]
    have hmany {before after : List (List Char)} (hne : before ++ after ≠ []) :
        2 ≤ (before ++ quotation content :: after).length := by
      have hpos := List.length_pos_iff.mpr hne
      simp only [List.length_append, List.length_cons] at hpos ⊢
      omega
    constructor
    · rw [ofText, String.toList_ofList, (Leaf.quotation h).ofCharsWithin, ofLeaf_quotation]
    · intro name before after text hname hnames htext
      rw [ofText_generic hname (hleaves hnames) htext, hmap]
    · intro before after text hne hnames htext
      rw [ofText_union (hleaves hnames) (hmany hne) htext, hmap]
    · intro before after text hne hnames htext
      rw [ofText_intersection (hleaves hnames) (hmany hne) htext, hmap]

/-- Separators between matching brackets do no harm. -/
theorem quotation_read_bracketed : ReadsQuotation "a<b|c, d>" :=
  (quotation_read_iff _).mpr (nested_of_isBalanced rfl (by decide)
    (List.forall_mem_cons.mpr ⟨rfl, List.forall_mem_cons.mpr ⟨rfl, List.forall_mem_singleton.mpr rfl⟩⟩))

/-- A separator between the quotation marks divides the text. -/
theorem quotation_divided : ofText (String.ofList (quotation "a|b")) = .union [.raw "\"a", .raw "b\""] :=
  rfl

end LispLowering.TypeExpr
