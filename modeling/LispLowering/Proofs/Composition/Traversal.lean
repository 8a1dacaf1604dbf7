import LispLowering.Proofs.Scoping.Traversal

/-!
# What trees are made of
-/

namespace LispLowering

open Lowering

variable {args : List SExpr} {q : Option Position} {special : SpecialForm}

def Comparison.self : Comparison := lower_notes.compare Lowering.lower .full (.full _ _)

namespace Lowering

variable {c d : Context} {node : Node} {name : String} {p : Option Position}

theorem lower_special_ok
    {lowered : Option Node} (hmeaning : HeadMeaning.ofName name = .special special)
    (h : Lowering.lower (.list (.symbol name q :: args) p) c = .ok lowered d) :
    ∃ node, lowerSpecial Lowering.lower ⟨.list (.symbol name q :: args) p, name, args⟩ special c =
      .ok node d ∧ lowered = some (node.orPlace p) := by
  rw [lower_list] at h
  have h := inForm_ok h
  unfold lowerNamed at h
  rw [hmeaning] at h
  obtain ⟨node, hnode, rfl⟩ := map_ok h
  exact ⟨node, hnode, rfl⟩

theorem lower_special
    (hmeaning : HeadMeaning.ofName name = .special special)
    (h : lowerSpecial Lowering.lower ⟨.list (.symbol name q :: args) p, name, args⟩ special c = .ok node d)
    : Lowering.lower (.list (.symbol name q :: args) p) c = .ok (some (node.orPlace p)) d := by
  rw [lower_list]
  simp only [lowerList, inForm, lowerNamed, hmeaning, bind, EStateM.bind, h]
  rfl

/-! ## Trees -/

theorem lower_transparent : Transparent Lowering.lower := lower_notes.agree

def lowerBelow (n : Nat) : Lowerer := fun t =>
  if t.depth < n then Lowering.lower t else Lower.refuse (Fault.recurPosition.place none)

theorem lowerBelow_transparent (n : Nat) : Transparent (lowerBelow n) := by
  intro t
  unfold lowerBelow
  split
  · exact lower_transparent t
  · exact .fault _ _ rfl

theorem lowerBelow_notes (n : Nat) : Lowerer.Notes (lowerBelow n) fun t => t.notedWithin t.depth where
  agree := lowerBelow_transparent n
  scopes := fun {tree c d result} hrun => by
    unfold lowerBelow at hrun
    split at hrun
    · exact lower_notes.scopes hrun
    · cases hrun
  leaf := lower_notes.leaf

theorem lower_list_below (items : List SExpr) (p : Option Position) :
    Lowering.lower (.list items p) = lowerList (lowerBelow (SExpr.depth (.list items p))) items p := by
  let P := lower_notes.compare (lowerBelow (SExpr.depth (.list items p)))
    (.fullOn (SExpr.hereditary_depth_le (SExpr.depthItems items))) (.full _ _)
  have hP : P.Agrees := fun t ht => by
    have hbelow : t.depth < SExpr.depth (.list items p) := Nat.lt_succ_of_le ht
    show Agree _ (Lowering.lower t) (lowerBelow _ t)
    rw [lowerBelow, if_pos hbelow]
    exact lower_transparent t
  rw [lower_list]
  exact (hP.list p fun t ht => SExpr.depth_le_depthItems ht).eq

theorem lower_composition (t : SExpr) : Composition (lowerBelow t.depth) t (Lowering.lower t) := by
  cases t with
  | literal value p =>
    intro c node d hrun
    cases hrun
    exact ⟨false, [], {}, .nil, by simp, rfl, nofun, .built (.hold rfl .nil)⟩
  | symbol name p =>
    intro c node d hrun
    obtain ⟨target, htarget, rfl⟩ := map_ok hrun
    obtain ⟨hcore, hsusp, hreference⟩ := Idle.ofExcept _ c target d htarget
    refine ⟨false, [], {}, ?_, by simp [hsusp], rfl, nofun,
      .built (.widen (reference_referred hreference).built)⟩
    rw [hcore]
    exact .nil
  | list items p =>
    rw [lower_list_below]
    let P := (lowerBelow_notes (SExpr.depth (.list items p))).compare Lowering.lower .full (.full _ _)
    exact lowerList_composition (P := P) (lowerBelow_transparent _) items p fun _ _ => trivial

theorem lower_logs_atom {t : SExpr} (ht : t.items? = none) : Logs [] (Lowering.lower t) := by
  cases t with
  | literal value p => exact .pure _
  | symbol name p => exact .map (.ofExcept _) _
  | list items p => cases ht

theorem lower_logs_within {n : Nat} {t : SExpr} (hn : t.depth ≤ n) :
    Logs (t.actsWithin n) (Lowering.lower t) := by
  induction n generalizing t with
  | zero =>
    cases t with
    | list items p => cases hn
    | symbol | literal => exact lower_logs_atom rfl
  | succ n ih =>
    -- a form lowers only trees of a lower depth, for which the fuel that is left is enough
    have hbelow : Logger (SExpr.actsWithin n) (lowerBelow t.depth) := by
      intro u
      unfold lowerBelow
      split
      · next hu =>
        have h := ih (t := u) (by omega)
        cases u with
        | list items p => simpa [SExpr.partAt, Part.acts, Place.outward] using h
        | symbol | literal => exact lower_logs_atom rfl
      · exact .refuse _
    cases t with
    | symbol | literal => exact lower_logs_atom rfl
    | list items p =>
      rw [lower_list_below]
      let P := (lowerBelow_notes (SExpr.depth (.list items p))).compare Lowering.lower .full (.full _ _)
      exact lowerList_logs P items p (fun _ _ => trivial) (lowerBelow_transparent _) _ hbelow

theorem lower_logs (t : SExpr) : Logs t.acts (Lowering.lower t) :=
  lower_logs_within (Nat.le_refl _)

theorem lowerBody_logs (ts : List SExpr) :
    Logs (ts.flatMap SExpr.acts) (lowerBody Lowering.lower ts) := by
  induction ts with
  | nil => exact .pure []
  | cons t rest ih =>
    have hfirst : Logs t.acts (lowerStatement Lowering.lower t) := .map (lower_logs t) _
    exact .bind hfirst fun _ _ _ _ => .map ih _

theorem lower_induction {N : SExpr → Lower (Option Node) → Prop} (hrefuse : ∀ t e, N t (Lower.refuse e))
    (hstep : ∀ lower, Transparent lower → (∀ t, N t (lower t)) → ∀ t m, Composition lower t m → N t m)
    (t : SExpr) : N t (Lowering.lower t) := by
  induction hn : t.depth using Nat.strong_induction_on generalizing t with
  | h n ih =>
    subst hn
    refine hstep (lowerBelow t.depth) (lowerBelow_transparent _) (fun u => ?_) t _ (lower_composition t)
    unfold lowerBelow
    split
    · next hu => exact ih u.depth hu u rfl
    · exact hrefuse u _

end Lowering

end LispLowering
