import LispLowering.Proofs.Provenance.Traversal

/-!
# Well-formed diagnostics
-/

namespace LispLowering

open Lowering List

variable {d : Diagnostic}

/-! ## Codes -/

/-- The code belongs to the kind. -/
abbrev ErrorKind.Owns (kind : ErrorKind) (code : Nat) : Prop := code / 1000 = kind.baseCode / 1000

theorem ErrorKind.owns_keyword (kind : ErrorKind) : ∀ entry ∈ kind.keywords, kind.Owns entry.2 := by
  cases kind <;> decide

theorem ErrorKind.owns_inferCode (kind : ErrorKind) (message : String) :
    kind.Owns (kind.inferCode message) := by
  unfold inferCode
  dsimp only
  split
  · next entry code hfound => exact kind.owns_keyword (_, code) (mem_of_find?_eq_some hfound)
  · rfl

theorem ErrorKind.eq_transform_of_owns {kind : ErrorKind} (h : kind.Owns Code.transformFailed) :
    kind = .transform := by
  revert h
  cases kind <;> decide

theorem Fault.owns_code {fault : Fault} {code : Nat} (h : fault.code? = some code) :
    fault.kind.Owns code := by
  cases fault with
  | linkage linkage node => cases linkage <;> cases h <;> (simp only [kind]; decide)
  | _ => cases h <;> (simp only [kind]; decide)

namespace Diagnostic

/-- The code belongs to the kind of the diagnostic. -/
abbrev InRange (d : Diagnostic) : Prop := d.kind.Owns d.code

theorem inRange_fault (fault : Fault) (p : Option Position) : (fault.place p).InRange := by
  unfold Fault.place
  split
  · next code hcode => exact Fault.owns_code hcode
  · exact ErrorKind.owns_inferCode _ _

theorem inRange_ofSyntax (fault : SyntaxFault) : (ofSyntax fault).InRange := by
  show ErrorKind.parsing.Owns (areaCode fault.area)
  cases fault.area <;> rfl

theorem code_fault_ne (fault : Fault) (p : Option Position) :
    (fault.place p).code ≠ Code.transformFailed := by
  intro hcode
  have hkind : (fault.place p).kind = fault.kind := by
    unfold Fault.place
    split <;> rfl
  have hrange := inRange_fault fault p
  rw [InRange, hkind, hcode] at hrange
  have htransform : fault.kind = .transform := ErrorKind.eq_transform_of_owns hrange
  cases fault with
  | loopUnderflow =>
    cases hcode
  | notCallable head node => cases hcode
  | _ => cases htransform

theorem code_ofSyntax_ne (fault : SyntaxFault) : (ofSyntax fault).code ≠ Code.transformFailed := by
  show areaCode fault.area ≠ Code.transformFailed
  cases fault.area <;> decide

/-! ## Wrappers -/

/-- The diagnostic consists of wrappers around a root. A wrapper has the code of a failed form, and its
cause has no location. The root has another code. -/
inductive WrapsOf (root : Diagnostic) : List Diagnostic → Diagnostic → Prop where
  | root : root.code ≠ Code.transformFailed → WrapsOf root [] root
  | wrapper {inner outer : Diagnostic} {wrappers : List Diagnostic} :
      outer.code = Code.transformFailed → outer.cause = some (.diagnostic inner) →
      inner.location = none → WrapsOf root wrappers inner → WrapsOf root (outer :: wrappers) outer

theorem trail_of_cause_none (h : d.cause = none) : d.trail = [d] := by
  obtain ⟨kind, code, message, location, cause, excerpt, reported⟩ := d
  cases h
  rfl

theorem cause_fault (fault : Fault) (p : Option Position) : (fault.place p).cause = none := by
  unfold Fault.place
  split <;> rfl

theorem inForm_of_location_none (h : d.location = none) (name : String)
    (p : Option Position) : ∃ before, d.inForm name p =
      ⟨.transform, Code.transformFailed, before ++ d.message, p, some (.diagnostic d), none, false⟩ := by
  refine ⟨"Failed to transform " ++ name ++ ": ", ?_⟩
  unfold inForm
  rw [h]
  rfl

theorem inForm_of_location_some {q : Position} (h : d.location = some q)
    (name : String) (p : Option Position) : d.inForm name p = d := by
  unfold inForm
  rw [h]

namespace Raised

variable {P : Position → Prop} {e : Diagnostic}

theorem inRange (h : e.Raised P) : ∀ inner ∈ e.trail, inner.InRange := by
  induction h with
  | @fault fault p _ =>
    rw [trail_of_cause_none (cause_fault fault p)]
    exact forall_mem_singleton.mpr (inRange_fault fault p)
  | reading fault _ => exact forall_mem_singleton.mpr (inRange_ofSyntax fault)
  | @inForm d name p _ _ ih =>
    cases hloc : d.location with
    | some q => rwa [inForm_of_location_some hloc]
    | none =>
      obtain ⟨before, heq⟩ := inForm_of_location_none hloc name p
      have hwrapper : ErrorKind.transform.Owns Code.transformFailed := by decide
      rw [heq]
      exact forall_mem_cons.mpr ⟨hwrapper, ih⟩

theorem wrapsOf (h : e.Raised P) : ∃ root wrappers, WrapsOf root wrappers e ∧
    (∃ before, e.message = before ++ root.message) ∧
    ∀ wrapper ∈ wrappers, ∃ before, wrapper.message = before ++ root.message := by
  induction h with
  | @fault fault p _ =>
    exact ⟨_, [], .root (code_fault_ne fault p), ⟨"", String.empty_append.symm⟩, nofun⟩
  | reading fault _ =>
    exact ⟨_, [], .root (code_ofSyntax_ne fault), ⟨"", String.empty_append.symm⟩, nofun⟩
  | @inForm d name p _ _ ih =>
    cases hloc : d.location with
    | some q => rwa [inForm_of_location_some hloc]
    | none =>
      obtain ⟨root, wrappers, hwraps, ⟨before, hmessage⟩, hwrappers⟩ := ih
      obtain ⟨start, heq⟩ := inForm_of_location_none hloc name p
      have hends : ∃ before, (d.inForm name p).message = before ++ root.message := by
        refine ⟨start ++ before, ?_⟩
        rw [heq, String.append_assoc, ← hmessage]
      refine ⟨root, d.inForm name p :: wrappers, .wrapper ?_ ?_ hloc hwraps, hends,
        forall_mem_cons.mpr ⟨hends, hwrappers⟩⟩
      · rw [heq]
      · rw [heq]

end Raised

theorem location_inForm (d : Diagnostic) (name : String) (p : Position) :
    (d.inForm name (some p)).location.isSome = true := by
  cases hloc : d.location with
  | some q => rw [inForm_of_location_some hloc, hloc, Option.isSome_some]
  | none =>
    obtain ⟨before, heq⟩ := inForm_of_location_none hloc name (some p)
    rw [heq, Option.isSome_some]

end Diagnostic

/-! ## The diagnostics of lowering -/

theorem lower_raised {S : Position → Prop} {c d : Context} {t : SExpr}
    (ht : ∀ u ∈ t.subtrees, Known S u.position) (hc : ∀ frame ∈ c.loops, Known S frame.firstRecur)
    (h : lower t c = .error e d) : e.Raised S := by
  have hends := (lower_sourced (w := .within S fun _ => True)).lowers True t
    (SExpr.suits_within fun u hu => ⟨ht u hu, trivial⟩) c
  rw [h] at hends
  cases hends with
  | error _ _ hraised => exact hraised hc

theorem lower_form_location {c d : Context} {name : String} {q : Option Position} {args : List SExpr}
    {p : Position} (h : lower (.list (.symbol name q :: args) (some p)) c = .error e d) :
    e.location.isSome = true := by
  have hform : lower (.list (.symbol name q :: args) (some p)) c = inForm name (some p)
    (lowerNamed (lowerWithin (SExpr.depthItems (.symbol name q :: args)))
      (.list (.symbol name q :: args) (some p)) name q args) c := rfl
  rw [hform] at h
  unfold inForm at h
  split at h
  · cases h
  · cases h
    exact Diagnostic.location_inForm _ name p

/-- Every diagnostic of lowering is well formed, in every state: its code and those of its causes belong to
their kinds; for a form with a symbol at its head and a position it has a location; and it consists of
wrappers around a root, such that the message of every wrapper ends in that of the root. -/
theorem diagnostic_wellFormed (c d : Context) (t : SExpr) (e : Diagnostic) (h : lower t c = .error e d) :
    (∀ inner ∈ e.trail, inner.code / 1000 = inner.kind.baseCode / 1000) ∧
    (∀ name q args p, t = .list (.symbol name q :: args) (some p) → e.location.isSome = true) ∧
    ∃ root wrappers, Diagnostic.WrapsOf root wrappers e ∧
      ∀ wrapper ∈ wrappers, ∃ before, wrapper.message = before ++ root.message := by
  have hraised := lower_raised (S := fun _ => True) (fun _ _ _ _ => trivial) (fun _ _ _ _ => trivial) h
  obtain ⟨root, wrappers, hwraps, -, hwrappers⟩ := hraised.wrapsOf
  refine ⟨hraised.inRange, ?_, root, wrappers, hwraps, hwrappers⟩
  rintro name q args p rfl
  exact lower_form_location h

/-- `(do (recur))` with a position at the outer list only. -/
def misplacedJump : SExpr :=
  .list [.symbol "do" none, .list [.symbol "recur" none] none] (some ⟨1, 1, none⟩)

/-- Both forms wrap the diagnostic, and the outer one gives it a location. -/
theorem diagnostic_wellFormed_misplacedJump : ∃ e d,
    lower misplacedJump (Context.start "" {}) = .error e d ∧ e.code = Code.transformFailed ∧
    (∀ inner ∈ e.trail, inner.code / 1000 = inner.kind.baseCode / 1000) ∧ e.location.isSome = true ∧
    ∃ root wrappers, Diagnostic.WrapsOf root wrappers e ∧
      ∀ wrapper ∈ wrappers, ∃ before, wrapper.message = before ++ root.message := by
  have hfails : lower misplacedJump (Context.start "" {}) = .error _ _ := rfl
  obtain ⟨hrange, hloc, hwraps⟩ := diagnostic_wellFormed _ _ _ _ hfails
  exact ⟨_, _, hfails, rfl, hrange, hloc _ _ _ _ rfl, hwraps⟩

end LispLowering
