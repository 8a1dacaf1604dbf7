import LispLowering.Proofs.WellFormedErrors

/-!
# Codes of malformed clauses
-/

namespace LispLowering

open Lowering List String

/-! ## Words in a quotation -/

/-- No occurrence of the word overlaps with `frame`, whatever follows. -/
def NoOverlap (word frame : List Char) : Prop :=
  ∀ tail ∈ frame.tails, tail ≠ [] → ¬tail <+: word ∧ ¬word <+: tail

instance (word frame : List Char) : Decidable (NoOverlap word frame) :=
  inferInstanceAs (Decidable (∀ tail ∈ frame.tails, _))

theorem NoOverlap.infix_append_iff {word frame : List Char} (h : NoOverlap word frame) (text : List Char) :
    word <:+: frame ++ text ↔ word <:+: text := by
  induction frame with
  | nil => rfl
  | cons c frame ih =>
    have htail : NoOverlap word frame := fun tail htail => h tail (.tail _ htail)
    have hhead : ¬word <+: c :: (frame ++ text) := by
      intro hword
      obtain ⟨hshort, hlong⟩ := h (c :: frame) (.head _) (cons_ne_nil _ _)
      rcases prefix_or_prefix_of_prefix hword (prefix_append (c :: frame) text) with hle | hle
      · exact hlong hle
      · exact hshort hle
    rw [cons_append, infix_cons_iff, or_iff_right hhead, ih htail]

theorem hasWord_iff {word text : List Char} : Text.hasWord word text = true ↔ word <:+: text := by
  induction text with
  | nil => simp [Text.hasWord, List.isEmpty_iff]
  | cons c rest ih =>
    rw [Text.hasWord, Bool.or_eq_true, isPrefixOf_iff_prefix, ih, infix_cons_iff]

/-- A text as it is compared with the words. -/
def folded (text : String) : List Char := text.toList.flatMap ErrorKind.foldChar

/-- The words for which the code of a malformed clause is another one. -/
def clauseWords : List (String × Nat) := ErrorKind.validation.keywords.dropLast

/-- The code of a malformed clause: that of the first word that occurs in it. -/
def clauseCode (clause : String) : Nat :=
  ((clauseWords.find? fun entry => Text.hasWord entry.1.toList (folded clause)).map
    Prod.snd).getD Code.invalidForm

/-- The two parts of a message around a quoted clause. None of the words overlaps with them, but the first part
says that something is invalid. -/
structure Frames (before after : String) : Prop where
  invalid : "invalid".toList <:+: folded before
  before : ∀ entry ∈ clauseWords, NoOverlap entry.1.toList (folded before)
  after : ∀ entry ∈ clauseWords, NoOverlap entry.1.toList.reverse (folded after).reverse

instance (before after : String) : Decidable (Frames before after) :=
  decidable_of_iff (_ ∧ _ ∧ _) ⟨fun h => ⟨h.1, h.2.1, h.2.2⟩, fun h => ⟨h.invalid, h.before, h.after⟩⟩

theorem Frames.inferCode {before after : String} (h : Frames before after) (clause : String) :
    ErrorKind.validation.inferCode (before ++ clause ++ after) = clauseCode clause := by
  have hfolded : (before ++ clause ++ after).toList.flatMap ErrorKind.foldChar =
      folded before ++ (folded clause ++ folded after) := by
    simp [folded]
  have hwords : ∀ entry ∈ clauseWords,
      Text.hasWord entry.1.toList (folded before ++ (folded clause ++ folded after)) =
        Text.hasWord entry.1.toList (folded clause) := by
    intro entry hentry
    rw [Bool.eq_iff_iff, hasWord_iff, hasWord_iff, (h.before entry hentry).infix_append_iff,
      ← reverse_infix, reverse_append, (h.after entry hentry).infix_append_iff,
      reverse_infix]
  have hinvalid : Text.hasWord "invalid".toList
      (folded before ++ (folded clause ++ folded after)) = true :=
    hasWord_iff.mpr (h.invalid.trans (prefix_append _ _).isInfix)
  have hkeywords : ErrorKind.validation.keywords = clauseWords ++ [("invalid", Code.invalidForm)] := rfl
  rw [ErrorKind.inferCode, hfolded, hkeywords, find?_append, find?_congr hwords, clauseCode]
  cases clauseWords.find? fun entry => Text.hasWord entry.1.toList (folded clause) with
  | some entry => rfl
  | none =>
    rw [Option.none_or, find?_singleton, if_pos hinvalid]
    rfl

theorem clauseCode_eq_invalidForm_iff (clause : String) : clauseCode clause = Code.invalidForm ↔
    ∀ entry ∈ clauseWords, ¬entry.1.toList <:+: folded clause := by
  rw [clauseCode]
  cases hfound : clauseWords.find? fun entry => Text.hasWord entry.1.toList (folded clause) with
  | none => simpa [hasWord_iff, find?_eq_none] using hfound
  | some entry =>
    have hother : ∀ entry ∈ clauseWords, entry.2 ≠ Code.invalidForm := by decide
    have hmem := mem_of_find?_eq_some hfound
    have hword : entry.1.toList <:+: folded clause := hasWord_iff.mp (by simpa using find?_some hfound)
    exact iff_of_false (hother entry hmem) fun hnone => hnone entry hmem hword

/-! ## Malformed clauses -/

/-- The fault refuses a malformed clause and quotes the text in its message. For pairs of bindings nothing is
quoted. -/
inductive Fault.Quotes : Fault → String → Prop where
  | condClause (clause : SExpr) : Quotes (.condClause clause) clause.text
  | switchClause (clause : SExpr) : Quotes (.switchClause clause) clause.text
  | forRange (range : SExpr) : Quotes (.forRange range) range.text
  | iterationBinding {form : String} (binding : SExpr) : form ∈ ["for-of", "for-await-of", "for-in"] →
      Quotes (.iterationBinding form binding) binding.text
  | loopBindings (bindings : SExpr) : Quotes (.loopBindings "loop" bindings) bindings.text
  | bindingPairs {form : String} : form ∈ ["let", "const", "var"] → Quotes (.bindingPairs form) ""
  | classMember (member : SExpr) : Quotes (.classMember member) member.text
  | enumCase (clause : SExpr) : Quotes (.enumCase clause) clause.text
  | enumCaseName (name : SExpr) : Quotes (.enumCaseName name) name.text
  | enumCaseValues (name : String) : Quotes (.enumCaseValues name) name
  | interfaceMember (member : SExpr) : Quotes (.interfaceMember member) member.text
  | interfaceMemberName (name : SExpr) : Quotes (.interfaceMemberName name) name.text

namespace Fault.Quotes

variable {fault : Fault} {clause : String}

theorem message (h : fault.Quotes clause) :
    ∃ before after, fault.message = before ++ clause ++ after ∧ Frames before after := by
  cases h with
  | condClause | switchClause | forRange => exact ⟨_, _, rfl, by decide +kernel⟩
  | iterationBinding binding hform =>
    have hframes : ∀ form ∈ ["for-of", "for-await-of", "for-in"],
        Frames ("Invalid " ++ quoted form ++ " binding ") ": expected (name collection)" := by
      decide +kernel
    exact ⟨_, _, rfl, hframes _ hform⟩
  | loopBindings => exact ⟨_, _, rfl, by decide +kernel⟩
  | bindingPairs hform =>
    have hframes : ∀ form ∈ ["let", "const", "var"],
        Frames ("Invalid binding list in " ++ quoted form ++ ": expected name/value pairs") "" := by
      decide +kernel
    exact ⟨_, "", by rw [append_empty, append_empty]; rfl, hframes _ hform⟩
  | classMember => exact ⟨_, "", append_empty.symm, by decide +kernel⟩
  | enumCase => exact ⟨_, _, rfl, by decide +kernel⟩
  | enumCaseName => exact ⟨_, "", append_empty.symm, by decide +kernel⟩
  | enumCaseValues =>
    have hquoted (before name after : String) :
        before ++ quoted name ++ after = before ++ "'" ++ name ++ ("'" ++ after) := by
      simp only [quoted, String.append_assoc]
    exact ⟨_, _, hquoted _ _ _, by decide +kernel⟩
  | interfaceMember => exact ⟨_, _, rfl, by decide +kernel⟩
  | interfaceMemberName => exact ⟨_, "", append_empty.symm, by decide +kernel⟩

theorem code (h : fault.Quotes clause) (p : Option Position) :
    (fault.place p).code = clauseCode clause := by
  obtain ⟨before, after, hmessage, hframes⟩ := h.message
  have hinferred : fault.code? = none ∧ fault.kind = .validation := by
    cases h <;> exact ⟨rfl, rfl⟩
  rw [Fault.place, hinferred.1, hinferred.2]
  show ErrorKind.validation.inferCode fault.message = clauseCode clause
  rw [hmessage, hframes.inferCode]

end Fault.Quotes

theorem Diagnostic.Raised.code_of_fault {P : Position → Prop} {e : Diagnostic} (h : e.Raised P)
    {fault : Fault} {p : Option Position} (hcause : fault.place p ∈ e.trail) :
    e.code = if e.cause.isNone then (fault.place p).code else Code.transformFailed := by
  induction h with
  | @fault other q _ =>
    rw [trail_of_cause_none (cause_fault other q), mem_singleton] at hcause
    rw [← hcause, cause_fault]
    rfl
  | reading other _ =>
    have hsame : fault.place p = ofSyntax other := mem_singleton.mp hcause
    have hnone := cause_fault fault p
    rw [hsame] at hnone
    cases hnone
  | @inForm d name q _ _ ih =>
    cases hloc : d.location with
    | some r =>
      rw [inForm_of_location_some hloc] at hcause ⊢
      exact ih hcause
    | none =>
      obtain ⟨before, heq⟩ := inForm_of_location_none hloc name q
      rw [heq]
      rfl

/-- Two failures of malformed clauses have the same code exactly if the same word comes first in the quoted
texts, be it in the diagnostics themselves or, where these are wrappers, in their causes. The code is that of a
malformed form exactly if no word occurs in the text. -/
theorem clause_codes_agree_iff {c c' d d' : Context} {t t' : SExpr} {e e' : Diagnostic}
    (h : lower t c = .error e d) (h' : lower t' c' = .error e' d') {fault fault' : Fault}
    {clause clause' : String} (hquotes : fault.Quotes clause) (hquotes' : fault'.Quotes clause')
    {p p' : Option Position} (hcause : fault.place p ∈ e.trail) (hcause' : fault'.place p' ∈ e'.trail)
    (hwrapped : e.cause.isNone = e'.cause.isNone) :
    ((fault.place p).code = (fault'.place p').code ↔ clauseCode clause = clauseCode clause') ∧
    (e.code = e'.code ↔ (e.cause.isNone = true → clauseCode clause = clauseCode clause')) ∧
    (clauseCode clause = Code.invalidForm ↔ ∀ entry ∈ clauseWords, ¬entry.1.toList <:+: folded clause) := by
  have hcode := (lower_raised (S := fun _ => True) (fun _ _ _ _ => trivial) (fun _ _ _ _ => trivial)
    h).code_of_fault hcause
  have hcode' := (lower_raised (S := fun _ => True) (fun _ _ _ _ => trivial) (fun _ _ _ _ => trivial)
    h').code_of_fault hcause'
  rw [hquotes.code] at hcode ⊢
  rw [hquotes'.code, ← hwrapped] at hcode'
  refine ⟨by rw [hquotes'.code], ?_, clauseCode_eq_invalidForm_iff clause⟩
  rw [hcode, hcode']
  cases e.cause.isNone <;> simp

/-- `(cond name)`, with a clause that is no list. -/
def malformedCond (name : String) : SExpr :=
  .list [.symbol "cond" none, .symbol name (some ⟨1, 7, none⟩)] (some ⟨1, 1, none⟩)

theorem lower_malformedCond (name : String) : ∃ d, lower (malformedCond name) (Context.start "" {}) =
      .error ((Fault.condClause (.symbol name (some ⟨1, 7, none⟩))).place (some ⟨1, 7, none⟩)) d :=
  ⟨_, rfl⟩

/-- Two clauses without words give the same code. -/
theorem clause_codes_agree_symbols : ∃ e e' d d',
    lower (malformedCond "x") (Context.start "" {}) = .error e d ∧
    lower (malformedCond "y") (Context.start "" {}) = .error e' d' ∧ e.code = e'.code := by
  obtain ⟨d, hx⟩ := lower_malformedCond "x"
  obtain ⟨d', hy⟩ := lower_malformedCond "y"
  have hagree := clause_codes_agree_iff hx hy (.condClause _) (.condClause _)
    (.head _) (.head _) rfl
  exact ⟨_, _, d, d', hx, hy, hagree.1.mpr (by decide)⟩

/-- A name that is one of the words changes the code. -/
theorem clause_code_of_word : ∃ e e' d d', lower (malformedCond "x") (Context.start "" {}) = .error e d ∧
    lower (malformedCond "requires") (Context.start "" {}) = .error e' d' ∧
    e.code = Code.invalidForm ∧ e'.code = Code.formArity := by
  obtain ⟨d, hx⟩ := lower_malformedCond "x"
  obtain ⟨d', hrequires⟩ := lower_malformedCond "requires"
  exact ⟨_, _, d, d', hx, hrequires, by decide, by decide⟩

end LispLowering
