import LispLowering.Proofs.TypeText.Brackets
import LispLowering.TypeSyntax.Form

/-!
# Types written as text and as trees
-/

namespace LispLowering

open List

namespace TypeExpr

/-! ## Ways of writing a type -/

def isUnion : TypeExpr → Bool
  | .union _ => true
  | _ => false

def isIntersection : TypeExpr → Bool
  | .intersection _ => true
  | _ => false

/-- The types that can be written as text and as trees. -/
inductive Common : TypeExpr → Prop where
  | name {name : String} (hname : isTypeName name.toList = true) (htrue : name ≠ "true")
      (hfalse : name ≠ "false") : Common (.reference name [])
  | generic {name : String} {args : List TypeExpr} (hname : isTypeName name.toList = true)
      (hhead : productions.lookup name = none) (hargs : args ≠ []) :
      (∀ arg ∈ args, Common arg) → Common (.reference name args)
  | bool (value : Bool) : Common (.literal (.bool value))
  | array {element : TypeExpr} (hunion : element.isUnion = false)
      (hinter : element.isIntersection = false) : Common element → Common (.array element)
  | intersection {members : List TypeExpr} (hmany : 2 ≤ members.length)
      (hunion : ∀ member ∈ members, member.isUnion = false)
      (hinter : ∀ member ∈ members, member.isIntersection = false) :
      (∀ member ∈ members, Common member) → Common (.intersection members)
  | union {members : List TypeExpr} (hmany : 2 ≤ members.length)
      (hunion : ∀ member ∈ members, member.isUnion = false) :
      (∀ member ∈ members, Common member) → Common (.union members)

def boolWord (value : Bool) : List Char := if value then "true".toList else "false".toList

/-- The text is written for the type. -/
inductive Written : TypeExpr → List Char → Prop where
  | name (name : String) : Written (.reference name []) name.toList
  | generic {name : String} {args : List TypeExpr} {texts : List (List Char)} {text : List Char} :
      List.Forall₂ Written args texts → Joined ',' texts text →
      Written (.reference name args) (name.toList ++ '<' :: (text ++ ['>']))
  | bool (value : Bool) : Written (.literal (.bool value)) (boolWord value)
  | array {element : TypeExpr} {text : List Char} :
      Written element text → Written (.array element) (text ++ ['[', ']'])
  | intersection {members : List TypeExpr} {texts : List (List Char)} {text : List Char} :
      List.Forall₂ Written members texts → Joined '&' texts text → Written (.intersection members) text
  | union {members : List TypeExpr} {texts : List (List Char)} {text : List Char} :
      List.Forall₂ Written members texts → Joined '|' texts text → Written (.union members) text

/-- The tree is spelled out for the type; a symbol in it may hold the text of a type. -/
inductive Spelled : TypeExpr → SExpr → Prop where
  | text {type : TypeExpr} {text : List Char} (p : Option Position) :
      Written type text → Spelled type (.symbol (String.ofList text) p)
  | generic {name : String} {args : List TypeExpr} {trees : List SExpr} (p q : Option Position)
      (hargs : args ≠ []) :
      List.Forall₂ Spelled args trees → Spelled (.reference name args) (.list (.symbol name q :: trees) p)
  | bool (value : Bool) (p : Option Position) :
      Spelled (.literal (.bool value)) (.literal (.bool value) p)
  | array {element : TypeExpr} {tree : SExpr} (p q : Option Position) :
      Spelled element tree → Spelled (.array element) (.list [.symbol "array" q, tree] p)
  | intersection {members : List TypeExpr} {trees : List SExpr} (p q : Option Position) :
      List.Forall₂ Spelled members trees →
      Spelled (.intersection members) (.list (.symbol "&" q :: trees) p)
  | union {members : List TypeExpr} {trees : List SExpr} (p q : Option Position) :
      List.Forall₂ Spelled members trees → Spelled (.union members) (.list (.symbol "|" q :: trees) p)

section Lists

variable {α β : Type} {R S : α → β → Prop} {as : List α} {bs : List β}

theorem forall₂_imp_mem (h : List.Forall₂ R as bs) (himp : ∀ a ∈ as, ∀ b ∈ bs, R a b → S a b) :
    List.Forall₂ S as bs := by
  induction h with
  | nil => exact .nil
  | cons hhead _ ih =>
    exact .cons (himp _ (.head _) _ (.head _) hhead)
      (ih fun a ha b hb => himp a (.tail _ ha) b (.tail _ hb))

theorem exists_of_forall₂ (h : List.Forall₂ R as bs) {b : β} (hb : b ∈ bs) : ∃ a ∈ as, R a b := by
  induction h with
  | nil => cases hb
  | cons hhead _ ih =>
    rcases mem_cons.mp hb with rfl | hb
    · exact ⟨_, .head _, hhead⟩
    · obtain ⟨a, ha, hab⟩ := ih hb
      exact ⟨a, .tail _ ha, hab⟩

theorem exists_forall₂ (h : ∀ a ∈ as, ∃ b, R a b) : ∃ bs, List.Forall₂ R as bs := by
  induction as with
  | nil => exact ⟨[], .nil⟩
  | cons a as ih =>
    obtain ⟨⟨b, hb⟩, hrest⟩ := forall_mem_cons.mp h
    obtain ⟨bs, hbs⟩ := ih hrest
    exact ⟨b :: bs, .cons hb hbs⟩

theorem ne_nil_of_many (h : 2 ≤ as.length) : as ≠ [] := ne_nil_of_length_pos (Nat.zero_lt_two.trans_le h)

theorem map_eq_of_forall₂ {f : β → α} (h : List.Forall₂ (fun a b => a = f b) as bs) : bs.map f = as := by
  rw [← forall₂_map_right_iff, forall₂_eq_eq_eq] at h
  exact h.symm

end Lists

/-! ## Names -/

variable {c : Char} {text : List Char} {t : TypeExpr}

theorem isPlain_of_isNamePart (h : isNamePart c = true) : isPlain c = true := by
  by_contra hplain
  simp only [isPlain, isOpening, isClosing, Bool.and_eq_true, Bool.not_eq_true', Bool.or_eq_false_iff,
    decide_eq_false_iff_not, bne_iff_ne, not_and_or, not_not] at hplain
  rcases hplain with ((((rfl | rfl) | rfl) | rfl) | ((rfl | rfl) | rfl) | rfl) | rfl <;> cases h

theorem not_separator_of_isNamePart (h : isNamePart c = true) : c ∉ [',', '|', '&'] := by
  intro hc
  simp only [mem_cons, not_mem_nil, or_false] at hc
  rcases hc with rfl | rfl | rfl <;> cases h

theorem isBlank_of_isNamePart (h : isNamePart c = true) : Text.isBlank c = false := by
  simp only [isNamePart, Bool.or_eq_true, decide_eq_true_eq] at h
  rcases h with ((h | rfl) | rfl) | rfl
  · simp only [Char.isAlphanum, Char.isAlpha, Char.isUpper, Char.isLower, Char.isDigit, Bool.or_eq_true,
      Bool.and_eq_true, decide_eq_true_eq, UInt32.le_iff_toNat_le, ge_iff_le, Char.toNat_val,
      Char.reduceToNat] at h
    simp only [Text.isBlank, Text.inRanges, Text.blankRanges, any_cons, any_nil, Bool.or_false,
      Bool.or_eq_false_iff, Bool.and_eq_false_iff, decide_eq_false_iff_not]
    omega
  all_goals rfl

theorem forall_isNamePart (h : isTypeName text = true) : ∀ c ∈ text, isNamePart c = true := by
  cases text with
  | nil => cases h
  | cons c rest =>
    simp only [isTypeName, Bool.and_eq_true, all_eq_true] at h
    refine forall_mem_cons.mpr ⟨?_, h.2⟩
    have hstart := h.1
    simp only [isNameStart, isNamePart, Char.isAlphanum, Bool.or_eq_true] at hstart ⊢
    tauto

theorem isTypeName_boolWord (value : Bool) : isTypeName (boolWord value) = true := by
  cases value <;> rfl

theorem nested_word (h : isTypeName text = true) : Nested [',', '|', '&'] text :=
  .of_plain fun c hc =>
    ⟨isPlain_of_isNamePart (forall_isNamePart h c hc), not_separator_of_isNamePart (forall_isNamePart h c hc)⟩

theorem solid_word (h : isTypeName text = true) : Solid text := by
  refine .of_forall ?_ fun c hc => isBlank_of_isNamePart (forall_isNamePart h c hc)
  rintro rfl
  cases h

/-! ## Separators outside brackets -/

/-- The separators that do not stand outside the brackets of the text of a type. -/
def barred : TypeExpr → List Char
  | .union _ => [',']
  | .intersection _ => [',', '|']
  | _ => [',', '|', '&']

theorem comma_subset_barred (t : TypeExpr) : [','] ⊆ t.barred := by
  cases t <;> simp [barred]

theorem bar_subset_barred (h : t.isUnion = false) : [',', '|'] ⊆ t.barred := by
  cases t with
  | union => cases h
  | _ => simp [barred]

theorem ampersand_subset_barred (hunion : t.isUnion = false) (hinter : t.isIntersection = false) :
    [',', '|', '&'] ⊆ t.barred := by
  cases t with
  | union => cases hunion
  | intersection => cases hinter
  | _ => simp [barred]

/-- The text has no blanks at its ends, its brackets match, and outside them are none of the separators that
are barred for the type. -/
structure Tidy (t : TypeExpr) (text : List Char) : Prop where
  nested : Nested t.barred text
  solid : Solid text

namespace Written

variable {members : List TypeExpr} {texts : List (List Char)} {separators : List Char}

theorem exists_joined (separator : Char) (hne : members ≠ []) (h : ∀ m ∈ members, ∃ text, Written m text) :
    ∃ texts text, List.Forall₂ Written members texts ∧ Joined separator texts text := by
  obtain ⟨texts, htexts⟩ := exists_forall₂ h
  have hne' : texts ≠ [] := by
    rintro rfl
    cases htexts
    exact hne rfl
  obtain ⟨text, htext⟩ := Joined.exists_of_ne_nil separator hne'
  exact ⟨texts, text, htexts, htext⟩

variable (htexts : List.Forall₂ Written members texts)
  (htidy : ∀ m ∈ members, ∀ text, Written m text → Tidy m text)

include htexts htidy

theorem nested_members
    (hsub : ∀ m ∈ members, separators ⊆ m.barred) : ∀ w ∈ texts, Nested separators w := by
  intro w hw
  obtain ⟨m, hm, hwritten⟩ := exists_of_forall₂ htexts hw
  exact (htidy m hm w hwritten).nested.mono (hsub m hm)

theorem solid_members : ∀ w ∈ texts, Solid w := by
  intro w hw
  obtain ⟨m, hm, hwritten⟩ := exists_of_forall₂ htexts hw
  exact (htidy m hm w hwritten).solid

end Written

namespace Common

variable {t : TypeExpr} {text : List Char}

theorem exists_written (h : Common t) : ∃ text, Written t text := by
  induction h with
  | name => exact ⟨_, .name _⟩
  | generic _ _ hargs _ ih =>
    obtain ⟨texts, text, htexts, htext⟩ := Written.exists_joined ',' hargs ih
    exact ⟨_, .generic htexts htext⟩
  | bool value => exact ⟨_, .bool value⟩
  | array _ _ _ ih =>
    obtain ⟨text, htext⟩ := ih
    exact ⟨_, .array htext⟩
  | intersection hmany _ _ _ ih =>
    obtain ⟨texts, text, htexts, htext⟩ := Written.exists_joined '&' (ne_nil_of_many hmany) ih
    exact ⟨text, .intersection htexts htext⟩
  | union hmany _ _ ih =>
    obtain ⟨texts, text, htexts, htext⟩ := Written.exists_joined '|' (ne_nil_of_many hmany) ih
    exact ⟨text, .union htexts htext⟩

theorem tidy (h : Common t) (hw : Written t text) : Tidy t text := by
  induction h generalizing text with
  | name hname =>
    cases hw with
    | name => exact ⟨nested_word hname, solid_word hname⟩
    -- a name is no generic type without arguments, for which there is no text
    | generic htexts htext =>
      cases htexts
      exact absurd rfl htext.ne_nil
  | generic hname _ hargs _ ih =>
    cases hw with
    | name => exact absurd rfl hargs
    | @generic name args texts text htexts htext =>
      -- between the angle brackets every separator is allowed
      have hinner : Nested [] text :=
        htext.nested rfl not_mem_nil not_mem_nil
          (Written.nested_members htexts (fun m hm _ => ih m hm) fun m _ => nil_subset _)
      exact ⟨(nested_word hname).append (.group rfl rfl hinner (.nil _)),
        (solid_word hname).append (.singleton rfl) ('<' :: text)⟩
  | bool value =>
    cases hw
    exact ⟨nested_word (isTypeName_boolWord value), solid_word (isTypeName_boolWord value)⟩
  | array hunion hinter _ ih =>
    cases hw with
    | array hwritten =>
      obtain ⟨hnested, hsolid⟩ := ih hwritten
      exact ⟨(hnested.mono (ampersand_subset_barred hunion hinter)).append
        (.group rfl rfl (.nil _) (.nil _)), hsolid.append (.singleton rfl) ['[']⟩
  -- its members are no unions, so a `|` is inside brackets in each of them
  | intersection _ hunion _ _ ih =>
    cases hw with
    | intersection htexts htext =>
      have hnested := Written.nested_members htexts (fun m hm _ => ih m hm)
        fun m hm => bar_subset_barred (hunion m hm)
      exact ⟨htext.nested rfl (by simp [barred]) (by simp [barred]) hnested,
        htext.solid (Written.solid_members htexts fun m hm _ => ih m hm)⟩
  | union _ _ _ ih =>
    cases hw with
    | union htexts htext =>
      have hnested := Written.nested_members htexts (fun m hm _ => ih m hm)
        fun m _ => comma_subset_barred m
      exact ⟨htext.nested rfl (by simp [barred]) (by simp [barred]) hnested,
        htext.solid (Written.solid_members htexts fun m hm _ => ih m hm)⟩

end Common

/-! ## One step of reading -/

section Step

variable {inner : List Char → TypeExpr} {text : List Char} {texts : List (List Char)}

theorem ofTrimmedWith_union (hpieces : piecesOutside '|' text = texts) (hmany : 2 ≤ texts.length) :
    ofTrimmedWith inner text = .union (texts.map inner) := by
  rw [ofTrimmedWith, hpieces]
  rcases texts with _ | ⟨first, _ | ⟨second, rest⟩⟩
  iterate 2 simp at hmany
  rfl

section

variable (hbar : piecesOutside '|' text = [text])

include hbar

theorem ofTrimmedWith_intersection (hpieces : piecesOutside '&' text = texts) (hmany : 2 ≤ texts.length) :
    ofTrimmedWith inner text = .intersection (texts.map inner) := by
  rw [ofTrimmedWith, hbar, hpieces]
  rcases texts with _ | ⟨first, _ | ⟨second, rest⟩⟩
  iterate 2 simp at hmany
  rfl

theorem ofTrimmedWith_array {element : List Char}
    (hampersand : piecesOutside '&' text = [text]) (harray : arrayElement? text = some element) :
    ofTrimmedWith inner text = .array (inner element) := by
  rw [ofTrimmedWith, hbar, hampersand, harray]

theorem ofTrimmedWith_generic {name args : List Char}
    (hampersand : piecesOutside '&' text = [text]) (harray : arrayElement? text = none)
    (hgeneric : generic? text = some (name, args)) (hbalanced : isBalanced args = true)
    (hpieces : piecesOutside ',' args = texts) :
    ofTrimmedWith inner text = .reference (String.ofList name) (texts.map inner) := by
  rw [ofTrimmedWith, hbar, hampersand, harray, hgeneric]
  simp only [hbalanced, hpieces, if_true]

theorem ofTrimmedWith_leaf
    (hampersand : piecesOutside '&' text = [text]) (harray : arrayElement? text = none)
    (hgeneric : generic? text = none) : ofTrimmedWith inner text = ofLeaf text := by
  rw [ofTrimmedWith, hbar, hampersand, harray, hgeneric]

end

theorem arrayElement?_append (hne : text ≠ []) (hbalanced : isBalanced text = true) :
    arrayElement? (text ++ ['[', ']']) = some text := by
  rw [arrayElement?, isSuffixOf?_eq_some_iff_append_eq.mpr rfl]
  simp [hne, hbalanced]

theorem arrayElement?_eq_none (h : text.getLast? ≠ some ']') : arrayElement? text = none := by
  have hsuffix : List.isSuffixOf? ['[', ']'] text = none := by
    rw [Option.eq_none_iff_forall_ne_some]
    intro element helement
    rw [← isSuffixOf?_eq_some_iff_append_eq.mp helement] at h
    simp at h
  rw [arrayElement?, hsuffix]
  rfl

theorem generic?_append {name args : List Char} (hname : isTypeName name = true) (hne : args ≠ [])
    (hline : '\n' ∉ args) : generic? (name ++ '<' :: (args ++ ['>'])) = some (name, args) := by
  have hspan : (name ++ '<' :: (args ++ ['>'])).span isNamePart = (name, '<' :: (args ++ ['>'])) := by
    rw [span_eq_takeWhile_dropWhile, takeWhile_append_of_pos (forall_isNamePart hname),
      dropWhile_append_of_pos (forall_isNamePart hname)]
    simp [isNamePart]
  have hsuffix : List.isSuffixOf? ['>'] (args ++ ['>']) = some args :=
    isSuffixOf?_eq_some_iff_append_eq.mpr rfl
  simp only [generic?, hspan, hsuffix]
  simp [hname, hne, hline]

theorem generic?_word (h : isTypeName text = true) : generic? text = none := by
  have hspan : text.span isNamePart = (text, []) := by
    have hparts := forall_isNamePart h
    rw [span_eq_takeWhile_dropWhile, takeWhile_eq_self_iff.mpr hparts, dropWhile_eq_nil_iff.mpr hparts]
  rw [generic?, hspan]

theorem getLast?_word (h : isTypeName text = true) : text.getLast? ≠ some ']' := by
  intro hlast
  have hpart := forall_isNamePart h _ (mem_of_getLast? hlast)
  cases hpart

theorem ofTrimmedWith_word (h : isTypeName text = true) : ofTrimmedWith inner text = ofLeaf text :=
  ofTrimmedWith_leaf ((nested_word h).piecesOutside_eq (solid_word h) (by decide))
    ((nested_word h).piecesOutside_eq (solid_word h) (by decide))
    (arrayElement?_eq_none (getLast?_word h)) (generic?_word h)

theorem ofLeaf_name {name : String} (hname : isTypeName name.toList = true) (htrue : name ≠ "true")
    (hfalse : name ≠ "false") : ofLeaf name.toList = .reference name [] := by
  rw [ofLeaf, if_neg (mt String.toList_inj.mp htrue), if_neg (mt String.toList_inj.mp hfalse),
    if_pos hname, String.ofList_toList]
  rfl

theorem ofLeaf_boolWord (value : Bool) : ofLeaf (boolWord value) = .literal (.bool value) := by
  cases value <;> rfl

theorem map_inner_eq (htexts : List.Forall₂ Written members texts)
    (hmembers : ∀ m ∈ members, Common m) (hlength : ∀ w ∈ texts, w.length < text.length)
    (hinner : ∀ t w, w.length < text.length → Common t → Written t w → inner w = t) :
    texts.map inner = members := by
  refine map_eq_of_forall₂ (forall₂_imp_mem htexts fun m hm w hw hwritten => ?_)
  exact (hinner m w (hlength w hw) (hmembers m hm) hwritten).symm

theorem ofTrimmedWith_written (h : Common t) (hw : Written t text)
    (hinner : ∀ t w, w.length < text.length → Common t → Written t w → inner w = t) :
    ofTrimmedWith inner text = t := by
  -- the reader looks for `|`, then `&`, then brackets at the end, then angle brackets; in each case the
  -- earlier ones are not found because the text is tidy
  obtain ⟨hnested, hsolid⟩ := h.tidy hw
  cases h with
  | name hname htrue hfalse =>
    cases hw with
    | name => rw [ofTrimmedWith_word hname, ofLeaf_name hname htrue hfalse]
    | generic htexts htext =>
      cases htexts
      exact absurd rfl htext.ne_nil
  | bool value =>
    cases hw
    rw [ofTrimmedWith_word (isTypeName_boolWord value), ofLeaf_boolWord]
  | @generic name args hname _ hargs hcommon =>
    cases hw with
    | name => exact absurd rfl hargs
    | @generic _ _ texts inside htexts htext =>
      have htidy : ∀ m ∈ args, ∀ w, Written m w → Tidy m w := fun m hm _ => (hcommon m hm).tidy
      have hcommas := Written.nested_members htexts htidy fun m _ => comma_subset_barred m
      have hsolidArgs := Written.solid_members htexts htidy
      have hinside : Nested [] inside := htext.nested rfl not_mem_nil not_mem_nil
        fun w hw => (hcommas w hw).mono (nil_subset _)
      -- it ends in an angle bracket, so it is no array
      have hlast : (name.toList ++ '<' :: (inside ++ ['>'])).getLast? ≠ some ']' := by
        rw [← cons_append, ← append_assoc, getLast?_concat]
        decide
      have hlength : ∀ w ∈ texts, w.length < (name.toList ++ '<' :: (inside ++ ['>'])).length := by
        intro w hw
        have hle := htext.length_le w hw
        simp only [length_append, length_cons]
        omega
      rw [ofTrimmedWith_generic (hnested.piecesOutside_eq hsolid (by simp [barred]))
        (hnested.piecesOutside_eq hsolid (by simp [barred])) (arrayElement?_eq_none hlast)
        (generic?_append hname (htext.solid hsolidArgs).ne_nil hinside.no_line_feed)
        hinside.isBalanced_eq
        (htext.piecesOutside_eq rfl (.head _) hcommas hsolidArgs),
        map_inner_eq htexts hcommon hlength hinner, String.ofList_toList]
  | @array element hunion hinter hcommon =>
    cases hw with
    | @array _ text hwritten =>
      obtain ⟨hnestedElement, hsolidElement⟩ := hcommon.tidy hwritten
      rw [ofTrimmedWith_array (hnested.piecesOutside_eq hsolid (by simp [barred]))
        (hnested.piecesOutside_eq hsolid (by simp [barred]))
        (arrayElement?_append hsolidElement.ne_nil hnestedElement.isBalanced_eq),
        hinner element text (by simp) hcommon hwritten]
  | @intersection members hmany hunion hinter hcommon =>
    cases hw with
    | intersection htexts htext =>
      have htidy : ∀ m ∈ members, ∀ w, Written m w → Tidy m w := fun m hm _ => (hcommon m hm).tidy
      have hseparators := Written.nested_members htexts htidy fun m hm =>
        ampersand_subset_barred (hunion m hm) (hinter m hm)
      rw [htexts.length_eq] at hmany
      rw [ofTrimmedWith_intersection (hnested.piecesOutside_eq hsolid (by simp [barred]))
        (htext.piecesOutside_eq rfl (by simp) hseparators (Written.solid_members htexts htidy)) hmany,
        map_inner_eq htexts hcommon (htext.length_lt hmany) hinner]
  | @union members hmany hunion hcommon =>
    cases hw with
    | union htexts htext =>
      have htidy : ∀ m ∈ members, ∀ w, Written m w → Tidy m w := fun m hm _ => (hcommon m hm).tidy
      have hseparators := Written.nested_members htexts htidy fun m hm => bar_subset_barred (hunion m hm)
      rw [htexts.length_eq] at hmany
      rw [ofTrimmedWith_union (htext.piecesOutside_eq rfl (by simp) hseparators
        (Written.solid_members htexts htidy)) hmany,
        map_inner_eq htexts hcommon (htext.length_lt hmany) hinner]

end Step

/-! ## Reading whole texts and trees -/

section Trees

variable {types : List TypeExpr} {trees : List SExpr}

theorem readAll_eq (h : List.Forall₂ (fun type tree => read tree = .ok type) types trees) :
    readAll trees = .ok types := by
  induction h with
  | nil => rfl
  | cons hhead _ ih =>
    rw [readAll, hhead, ih]
    rfl

theorem read_generic {name : String} (hhead : productions.lookup name = none)
    (htrees : readAll trees = .ok types) (p q : Option Position) :
    read (.list (.symbol name q :: trees) p) = .ok (.reference name types) := by
  simp only [read, SExpr.symbol?, hhead, htrees]
  rfl

theorem read_members (hne : trees ≠ []) (htrees : readAll trees = .ok types) (p q : Option Position) :
    read (.list (.symbol "&" q :: trees) p) = .ok (.intersection types) ∧
      read (.list (.symbol "|" q :: trees) p) = .ok (.union types) := by
  have hempty : trees.isEmpty = false := isEmpty_eq_false_iff.mpr hne
  have hheads : productions.lookup "&" = some .intersection ∧ productions.lookup "|" = some .union :=
    ⟨rfl, rfl⟩
  simp only [read, SExpr.symbol?, hheads, hempty, htrees]
  exact ⟨rfl, rfl⟩

theorem read_array {type : TypeExpr} {tree : SExpr} (htree : read tree = .ok type) (p q : Option Position) :
    read (.list [.symbol "array" q, tree] p) = .ok (.array type) := by
  have hhead : productions.lookup "array" = some .array := rfl
  simp only [read, SExpr.symbol?, hhead, htree]
  rfl

end Trees

namespace Common

variable {t : TypeExpr}

theorem ofCharsWithin_written (h : Common t) (hw : Written t text) {fuel : Nat}
    (hfuel : text.length ≤ fuel) : ofCharsWithin fuel text = t := by
  induction fuel generalizing t text with
  | zero => exact absurd (eq_nil_of_length_eq_zero (Nat.le_zero.mp hfuel)) (h.tidy hw).solid.ne_nil
  | succ fuel ih =>
    rw [ofCharsWithin, (h.tidy hw).solid.trimChars_eq]
    refine ofTrimmedWith_written h hw fun _ w _ hcommon hwritten => ?_
    exact ih hcommon hwritten (by omega)

theorem ofText_written (h : Common t) (hw : Written t text) : ofText (String.ofList text) = t := by
  rw [ofText, String.toList_ofList]
  exact h.ofCharsWithin_written hw le_rfl

theorem read_text (h : Common t) (hw : Written t text) (p : Option Position) :
    read (.symbol (String.ofList text) p) = .ok t := by
  rw [read, h.ofText_written hw]

theorem read_spelled (h : Common t) {tree : SExpr} (hs : Spelled t tree) : read tree = .ok t := by
  induction h generalizing tree with
  | name hname htrue hfalse =>
    cases hs with
    | text p hw => exact read_text (.name hname htrue hfalse) hw p
    | generic p q hargs => exact absurd rfl hargs
  | generic hname hhead hargs hcommon ih =>
    cases hs with
    | text p hw => exact read_text (.generic hname hhead hargs hcommon) hw p
    | generic p q _ htrees =>
      have hread := readAll_eq (forall₂_imp_mem htrees fun m hm _ _ => ih m hm)
      exact read_generic hhead hread p q
  | bool value =>
    cases hs with
    | text p hw => exact read_text (.bool value) hw p
    | bool p => rfl
  | array hunion hinter hcommon ih =>
    cases hs with
    | text p hw => exact read_text (.array hunion hinter hcommon) hw p
    | array p q htree => exact read_array (ih htree) p q
  | intersection hmany hunion hinter hcommon ih =>
    cases hs with
    | text p hw => exact read_text (.intersection hmany hunion hinter hcommon) hw p
    | intersection p q htrees =>
      have hread := readAll_eq (forall₂_imp_mem htrees fun m hm _ _ => ih m hm)
      rw [htrees.length_eq] at hmany
      exact (read_members (ne_nil_of_many hmany) hread p q).1
  | union hmany hunion hcommon ih =>
    cases hs with
    | text p hw => exact read_text (.union hmany hunion hcommon) hw p
    | union p q htrees =>
      have hread := readAll_eq (forall₂_imp_mem htrees fun m hm _ _ => ih m hm)
      rw [htrees.length_eq] at hmany
      exact (read_members (ne_nil_of_many hmany) hread p q).2

end Common

end TypeExpr

/-- **The texts and the trees of a type are read as the type.** This is so for names, generic types with
arguments, truth values, arrays of what is no union or intersection, intersections of two or more types that
are neither, and unions of two or more types that are no unions. There may be any number of spaces around the
separators of a text, and a tree may have positions anywhere. -/
theorem type_forms_agree {t : TypeExpr} (h : t.Common) : (∃ text, t.Written text) ∧
    (∀ text, t.Written text → TypeExpr.ofText (String.ofList text) = t) ∧
    ∀ tree, t.Spelled tree → TypeExpr.read tree = .ok t :=
  ⟨h.exists_written, fun _ => h.ofText_written, fun _ => h.read_spelled⟩

/-- `string | null`. -/
def nullableText : TypeExpr := .union [.named "string", .named "null"]

/-- `a.B& true`. -/
def restricted : TypeExpr := .intersection [.named "a.B", .literal (.bool true)]

/-- `Map<string | null,Array<a.B& true>[]>`. -/
def nestedType : TypeExpr := .reference "Map" [nullableText, .array (.reference "Array" [restricted])]

/-- A union and an array of a generic type as arguments, written as text and as a tree with a text in it. -/
theorem type_forms_agree_nested :
    nestedType.Common ∧ TypeExpr.ofText "Map<string | null,Array<a.B& true>[]>" = nestedType ∧
    TypeExpr.read (.list [.symbol "Map" none, .symbol "string|null" none,
      .list [.symbol "array" none, .list [.symbol "Array" none,
        .list [.symbol "&" none, .symbol "a.B" none, .literal (.bool true) none] none] none] none] none) =
      .ok nestedType := by
  have hnames : ∀ name ∈ ["string", "null", "a.B"], (TypeExpr.named name).Common := by
    simp only [forall_mem_cons, not_mem_nil, false_implies, implies_true, and_true]
    exact ⟨.name rfl (by decide) (by decide), .name rfl (by decide) (by decide),
      .name rfl (by decide) (by decide)⟩
  have hnullable : nullableText.Common :=
    .union (by decide) (by simp [TypeExpr.named, TypeExpr.isUnion]) (by simp [hnames])
  have hrestricted : restricted.Common :=
    .intersection (by decide) (by simp [TypeExpr.named, TypeExpr.isUnion])
      (by simp [TypeExpr.named, TypeExpr.isIntersection]) (by simp [hnames, TypeExpr.Common.bool])
  have hinner : (TypeExpr.reference "Array" [restricted]).Common :=
    .generic rfl rfl (by simp) (by simp [hrestricted])
  have hcommon : nestedType.Common :=
    .generic rfl rfl (by simp) (by simp [hnullable, TypeExpr.Common.array rfl rfl hinner])
  have hnullableText (m n : Nat) : nullableText.Written
      ("string".toList ++ ((List.replicate m ' ' ++ '|' :: List.replicate n ' ') ++ "null".toList)) :=
    .union (.cons (.name _) (.cons (.name _) .nil)) (.more _ m n (.one _))
  have hrestrictedText : restricted.Written "a.B& true".toList :=
    .intersection (.cons (.name _) (.cons (.bool true) .nil)) (.more _ 0 1 (.one _))
  have hinnerText : (TypeExpr.reference "Array" [restricted]).Written "Array<a.B& true>".toList :=
    .generic (.cons hrestrictedText .nil) (.one _)
  obtain ⟨-, texts, trees⟩ := type_forms_agree hcommon
  refine ⟨hcommon, texts _ ?_, trees _ ?_⟩
  · exact .generic (.cons (hnullableText 1 1) (.cons (.array hinnerText) .nil)) (.more _ 0 0 (.one _))
  · have hmembers : restricted.Spelled
        (.list [.symbol "&" none, .symbol "a.B" none, .literal (.bool true) none] none) :=
      .intersection _ _ (.cons (.text _ (.name _)) (.cons (.bool true none) .nil))
    exact .generic _ _ (by simp) (.cons (.text _ (hnullableText 0 0))
      (.cons (.array _ _ (.generic _ _ (by simp) (.cons hmembers .nil))) .nil))

end LispLowering
