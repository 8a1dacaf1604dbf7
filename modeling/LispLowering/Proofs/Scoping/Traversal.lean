import LispLowering.Proofs.Composition.Forms

/-!
# Trees along their scripts
-/

namespace LispLowering

open Lowering SExpr RegistryView List

variable {α : Type} {c d : Context} {tree t : SExpr}
  {P : Comparison}

/-! ## Agreement of the whole -/

/-- The two ways of lowering agree on all trees that are compared. -/
def Comparison.Agrees (P : Comparison) : Prop := ∀ t, P.trees t → Agree P.view (P.first t) (P.second t)

theorem Follows.agree {s : Script} {R : α → Prop} {m m' : Lower α}
    (h : Follows P s R m m') (hP : P.Agrees) : Agree P.view m m' :=
  fun c c' hc => (h c c' hc fun _ _ htree d d' hd _ => hP _ htree d d' hd).1

theorem Comparison.Agrees.list (hP : P.Agrees) {items : List SExpr}
    (p : Option Position) (hitems : ∀ t ∈ items, P.trees t) :
    Agree P.view (lowerList P.first items p) (lowerList P.second items p) :=
  (lowerList_follows P items p hitems).agree hP

theorem Shown.fullOn (hT : Hereditary T) : Shown full T :=
  ⟨hT, fun _ _ _ => trivial, fun _ _ _ => trivial⟩

theorem Shown.full : Shown full fun _ => True := .fullOn hereditary_true

theorem Declares.full (T : SExpr → Prop) (lower : Lowerer) : Declares full T lower :=
  fun _ _ _ _ _ _ _ _ _ _ _ => trivial

theorem After.eq {d' : Context} (h : After full c c d d') : d' = d := by
  obtain ⟨r, s, l, hr, rfl⟩ := h.twin.eq_with
  obtain ⟨δ, hd, hd'⟩ := h.waits
  cases hr
  have hs : s = d.suspension := hd'.trans hd.symm
  have hl : l = d.declarations := h.tries.eq rfl
  rw [hs, hl]

theorem Outcome.eq {x x' : EStateM.Result Diagnostic Context α} (h : Outcome full c c x x') : x' = x := by
  cases h with
  | ok hafter => rw [hafter.eq]
  | error _ hafter => rw [hafter.eq]

theorem Agree.eq {m m' : Lower α} (h : Agree full m m') : m = m' :=
  funext fun c => (h c c (.self c)).eq.symm

/-! ## Trees -/

theorem SExpr.notedWithin_leaf (fuel : Nat) (h : tree.items? = none) : tree.notedWithin fuel = [] := by
  cases fuel with
  | zero => rfl
  | succ fuel =>
    cases tree with
    | symbol | literal => rfl
    | list _ _ => cases h

theorem lowerWithin_leaf (fuel : Nat) (h : tree.items? = none) :
    Steady (fun _ => True) (lowerWithin fuel tree) := by
  cases tree with
  | symbol name p =>
    cases fuel <;> exact .bind (.ofExcept (reference_faultless _ _)) fun _ _ => .pure trivial
  | literal value p => cases fuel <;> exact .pure trivial
  | list items p => cases h

/-- A way of lowering agrees with itself, and a tree extends the scopes by the names that are noted. -/
structure Lowerer.Notes (lower : Lowerer) (noted : SExpr → List String) : Prop where
  agree : ∀ t, Agree full (lower t) (lower t)
  scopes : ∀ {tree : SExpr} {c d : Context} {result : Option Node},
    lower tree c = .ok result d → d.scopes = Scopes.extend c.scopes (noted tree)
  leaf : ∀ {tree : SExpr}, tree.items? = none → noted tree = []

/-- A way of lowering, compared with another one. -/
def Lowerer.Notes.compare {lower : Lowerer} {noted : SExpr → List String} (h : lower.Notes noted)
    (second : Lowerer) {V : RegistryView} {T : SExpr → Prop} (hshown : Shown V T)
    (hdeclares : Declares V T lower) : Comparison :=
  ⟨lower, second, noted, V, T, h.scopes, h.leaf, hshown, hdeclares⟩

theorem lowerWithin_notes (fuel : Nat) : Lowerer.Notes (lowerWithin fuel) (notedWithin fuel) := by
  have hleaf (fuel : Nat) {tree : SExpr} (h : tree.items? = none) {c d : Context}
      {result : Option Node} (hrun : lowerWithin fuel tree c = .ok result d) :
      d.scopes = Scopes.extend c.scopes (tree.notedWithin fuel) := by
    rw [notedWithin_leaf fuel h, Scopes.extend_nil]
    exact ((lowerWithin_leaf fuel h).ends c result d hrun).1
  induction fuel with
  | zero =>
    refine ⟨fun t => ?_, fun {tree c d result} hrun => ?_, notedWithin_leaf 0⟩
    · cases t with
      | list items p => exact .pure _
      | _ => exact (lowerWithin_leaf 0 rfl).agree _
    · cases tree with
      | list items p =>
        rw [notedWithin, Scopes.extend_nil]
        exact congrArg Context.scopes (pure_ok hrun).2
      | _ => exact hleaf 0 rfl hrun
  | succ fuel ih =>
    -- one way of lowering, compared with itself
    let P := ih.compare (lowerWithin fuel) .full (.full _ _)
    have hP : P.Agrees := fun t _ => ih.agree t
    refine ⟨fun t => ?_, fun {tree c d result} hrun => ?_, notedWithin_leaf (fuel + 1)⟩
    · cases t with
      | list items p => exact hP.list p fun _ _ => trivial
      | _ => exact (lowerWithin_leaf (fuel + 1) rfl).agree _
    · cases tree with
      | list items p =>
        exact ((lowerList_follows P items p (fun _ _ => trivial) c c (.self c) fun visit _ _ d d' hd _ =>
          hP visit.1 trivial d d' hd).2 result d hrun).1
      | _ => exact hleaf (fuel + 1) rfl hrun

/-! ## Fuel -/

namespace Lowering

theorem lowerWithin_eq (n m : Nat) (t : SExpr) (hn : t.depth ≤ n) (hm : t.depth ≤ m) :
    lowerWithin n t = lowerWithin m t := by
  induction n generalizing m t with
  | zero =>
    cases t with
    | list items p => simp [SExpr.depth] at hn
    | _ => cases m <;> rfl
  | succ n ih =>
    cases t with
    | list items p =>
      cases m with
      | zero => simp [SExpr.depth] at hm
      | succ m =>
        -- the items are nested less deep, so the fuel that is left suffices for each of them
        have hT : Hereditary fun t => t.depth ≤ n ∧ t.depth ≤ m := fun items p h item hitem =>
          ⟨hereditary_depth_le n items p h.1 item hitem, hereditary_depth_le m items p h.2 item hitem⟩
        let P := (lowerWithin_notes n).compare (lowerWithin m) (.fullOn hT) (.full _ _)
        have hP : P.Agrees := fun t ht => by
          show Agree _ (lowerWithin n t) (lowerWithin m t)
          rw [← ih m t ht.1 ht.2]
          exact (lowerWithin_notes n).agree t
        refine (hP.list p fun t hitem => ?_).eq
        have hdepth := depth_le_depthItems hitem
        simp only [SExpr.depth] at hn hm
        exact ⟨by omega, by omega⟩
    | _ => cases m <;> rfl

theorem lowerWithin_eq_lower {n : Nat} (h : t.depth ≤ n) : lowerWithin n t = Lowering.lower t :=
  lowerWithin_eq n t.depth t h (Nat.le_refl _)

theorem lower_list (items : List SExpr) (p : Option Position) :
    Lowering.lower (.list items p) = lowerList Lowering.lower items p := by
  let P := (lowerWithin_notes (depthItems items)).compare Lowering.lower
    (.fullOn (hereditary_depth_le (depthItems items))) (.full _ _)
  have hP : P.Agrees := fun t ht => by
    show Agree _ (lowerWithin (depthItems items) t) (Lowering.lower t)
    rw [← lowerWithin_eq_lower ht]
    exact (lowerWithin_notes _).agree t
  exact (hP.list p fun t ht => depth_le_depthItems ht).eq

/-! ## Trees and programs -/

theorem lower_notes : Lowerer.Notes Lowering.lower fun t => t.notedWithin t.depth where
  agree := fun t => (lowerWithin_notes t.depth).agree t
  scopes := (lowerWithin_notes _).scopes
  leaf := notedWithin_leaf _

variable {V : RegistryView} {T : SExpr → Prop}

variable (hT : Shown V T) (hdeclares : Declares V T Lowering.lower)

include hT hdeclares

theorem lower_agree (ht : T t) : Agree V (Lowering.lower t) (Lowering.lower t) := by
  induction hdepth : t.depth using Nat.strong_induction_on generalizing t with
  | _ depth ih =>
    cases t with
    | list items p =>
      rw [lower_list]
      let inside (t : SExpr) : Prop := T t ∧ t.depth < depth
      have hshown : Shown V inside :=
        { hereditary := fun items p h item hitem =>
            ⟨hT.hereditary items p h.1 item hitem, by
              have := depth_le_depthItems hitem
              have := h.2
              simp only [SExpr.depth] at this
              omega⟩
          called := fun name p h => hT.called name p h.1
          declared := fun name p h => hT.declared name p h.1 }
      have hinside : Declares V inside Lowering.lower :=
        fun spec c d targets name registry hparams =>
          hdeclares spec c d targets name registry fun t ht => (hparams t ht).1
      let P := lower_notes.compare Lowering.lower hshown hinside
      have hP : P.Agrees := fun t ht => ih t.depth ht.2 ht.1 rfl
      refine hP.list p fun t hitem => ⟨hT.hereditary items p ht t hitem, ?_⟩
      have := depth_le_depthItems hitem
      simp only [SExpr.depth] at hdepth
      omega
    | _ => exact (lowerWithin_leaf _ rfl).agree V

theorem lowerTopLevel_agree (ht : T t) : Agree V (lowerTopLevel t) (lowerTopLevel t) :=
  .bind (lower_agree hT hdeclares ht) fun _ => .pure _

theorem lowerProgram_agree {forms : List SExpr} (hforms : ∀ t ∈ forms, T t) :
    Agree V (lowerProgram forms) (lowerProgram forms) :=
  .bind (.each fun t ht => lowerTopLevel_agree hT hdeclares (hforms t ht)) fun _ => .pure _

end Lowering

/-! ## What is lowered with a tree -/

/-- The step depends on how the tree is lowered in the state `d`: it would end otherwise if this tree were
lowered otherwise in this state. -/
def DependsOn {α : Type} (step : Lowerer → Lower α) (lower : Lowerer) (c : Context) (tree : SExpr)
    (d : Context) : Prop :=
  ∃ other : Lowerer, (∀ t e, ¬(t = tree ∧ e = d) → other t e = lower t e) ∧ step other c ≠ step lower c

theorem DependsOn.visit {fuel : Nat} {items : List SExpr} {p : Option Position}
    (h : DependsOn (fun lower => lowerList lower items p) (lowerWithin fuel) c tree d) :
    (tree, d.scopes) ∈ (SExpr.list items p).script.visits (notedWithin fuel) c.scopes := by
  obtain ⟨other, hother, hends⟩ := h
  -- otherwise both ways agree wherever the script goes
  by_contra hvisit
  let P := (lowerWithin_notes fuel).compare other .full (.full _ _)
  refine hends (lowerList_follows P items p (fun _ _ => trivial) c c (.self c)
    fun visit hmem _ e e' he hscopes => ?_).1.eq
  show Outcome _ e e' (lowerWithin fuel visit.1 e) (other visit.1 e')
  rw [hother visit.1 e']
  · exact (lowerWithin_notes fuel).agree visit.1 e e' he
  · rintro ⟨htree, rfl⟩
    refine hvisit ?_
    have hsame : e'.scopes = e.scopes := by rw [he.same]
    rw [← htree, hsame, hscopes]
    exact hmem

/-- While the tree is lowered from the state `c`, another tree is lowered in the state `d`. -/
inductive Reaches : Nat → SExpr → Context → SExpr → Context → Prop where
  | here (fuel : Nat) (tree : SExpr) (c : Context) : Reaches fuel tree c tree c
  | inside {fuel : Nat} {items : List SExpr} {p : Option Position} {c d e : Context}
      {tree other : SExpr} :
      DependsOn (fun lower => lowerList lower items p) (lowerWithin fuel) c tree d →
      Reaches fuel tree d other e → Reaches (fuel + 1) (.list items p) c other e

theorem Script.site_of_visit {noted lexical : SExpr → List String} (s : Script) {around : Scopes}
    (target : Scopes) {scopes : Scopes} (h : (tree, scopes) ∈ s.visits noted around) :
    ∃ names, ⟨tree, scopes, names⟩ ∈ s.sites noted lexical around target := by
  induction s generalizing around target with
  | done => cases h
  | visit _ _ rest ih =>
    rcases mem_cons.mp h with heq | hrest
    · cases heq
      exact ⟨target, .head _⟩
    · exact (ih _ hrest).imp fun _ => .tail _
  | bind _ _ ih | unnoted _ _ ih | act _ _ ih => exact ih _ h
  | scope _ _ _ ihInner ihRest | block _ _ ihInner ihRest =>
    rcases mem_append.mp h with hinner | hrest
    · exact (ihInner _ hinner).imp fun _ => mem_append_left _
    · exact (ihRest _ hrest).imp fun _ => mem_append_right _

theorem SExpr.mem_sitesWithin_self (fuel : Nat) (tree : SExpr) (noted lexical : Scopes) :
    ⟨tree, noted, lexical⟩ ∈ tree.sitesWithin fuel noted lexical := by
  cases fuel <;> exact .head _

theorem Reaches.site {fuel : Nat} {other : SExpr} (h : Reaches fuel tree c other d) (target : Scopes) :
    ∃ names, ⟨other, d.scopes, names⟩ ∈ tree.sitesWithin fuel c.scopes target := by
  induction h generalizing target with
  | here fuel tree c => exact ⟨target, tree.mem_sitesWithin_self fuel c.scopes target⟩
  | inside hdepends _ ih =>
    obtain ⟨between, hsite⟩ := Script.site_of_visit _ target hdepends.visit
    obtain ⟨names, hnames⟩ := ih between
    exact ⟨names, .tail _ (mem_flatMap.mpr ⟨_, hsite, hnames⟩)⟩

end LispLowering
