import LispLowering.Proofs.Composition.Traversal
import LispLowering.Proofs.Jumps
import LispLowering.Proofs.Session

/-!
# Lowered nodes are well-sorted
-/

namespace LispLowering

open Lowering Slot AllFit RegistryView List Built

variable {lower : Lowerer} {stored : Node → Prop} {leaves : List Leaf} {δ : Suspension} {node : Node}
  {c d : Context}

/-! ## Nodes of forms -/

theorem Composed.wellSorted {guards : Node → Prop} (h : Composed guards leaves δ node)
    (hleaves : ∀ leaf ∈ leaves, leaf.WellSorted) : WellSorted node := by
  induction h with
  | built hnode => exact (hnode.wellSorted hleaves).sorted
  | guarded _ hblock hheld => exact .hold rfl rfl ((BuiltAll.cons hblock hheld).wellSorted hleaves)
  | wrapped hbody =>
    have hfit := hbody.wellSorted (forall_mem_append.mpr ⟨hleaves, by simp [Leaf.WellSorted]⟩)
    exact (wrapped_fits (all_iff.mp hfit) _ _).sorted
  | loop hdeclared hbody =>
    have hfit := all_iff.mp (hbody.wellSorted hleaves)
    obtain ⟨hdecls, hstmts⟩ := forall_mem_append.mp hfit
    have htargets : ∀ n ∈ List.map LoopVariable.target _, expression.Fits n :=
      forall_mem_map.mpr fun binding hbinding =>
        (hdeclared binding hbinding).target_fits
          (hdecls _ (mem_map_of_mem hbinding)).sorted
    refine (wrapped_fits (loopStatements_fits hdecls (closedBody_fits ?_)) _ _).sorted
    exact bodyWithJumps_fits htargets (.inl rfl) (returningAll_fits hstmts)
  | move hkind _ ih => exact (ih hleaves).move hkind

theorem catchEarlyReturn_fits (key : String) (p : Option Position) {body : List Node}
    (h : ∀ s ∈ body, statement.Fits s) : ∀ s ∈ catchEarlyReturn key p body, statement.Fits s := by
  have hcaught : Built [] .expression ((Node.ident caughtName).place p) := (ident _).place p
  have hmark := (hcaught.index ((string key).place p)).place p
  have hleave := ((hcaught.member "value").place p).returned p
  have hleaves : ∀ leaf ∈ [Leaf.mark .returns], leaf.WellSorted := by simp [Leaf.WellSorted]
  have hblock : statement.Fits ((Node.block body).place p) := ⟨rfl, .hold rfl rfl (all_iff.mpr h)⟩
  refine forall_mem_singleton.mpr ⟨rfl, .hold rfl rfl (cons_iff.mpr
    ⟨hblock, cons_iff.mpr ⟨wellSorted ?_ hleaves, .nil⟩⟩)⟩
  refine .hold rfl (.skip hcaught (.one (place (block ?_) p)))
  refine .before (.hold rfl ?_) (.one (.hold rfl (.one hcaught)))
  exact .skip (.hold rfl (.skip hcaught (.one hmark))) (.one hleave)

theorem enclose_fits (spec : FunctionSpec) {params statements : List Node} (k : Core)
    (hparams : ∀ n ∈ params, expression.Fits n) (hstmts : ∀ s ∈ statements, statement.Fits s) :
    AllFit (spec.enclose params statements k).slots := by
  have hreturned : ∀ s ∈ spec.returned statements, statement.Fits s := by
    unfold FunctionSpec.returned
    split
    · exact returningAll_fits hstmts
    · exact hstmts
  refine append_iff.mpr ⟨all_iff.mpr hparams, all_iff.mpr ?_⟩
  show ∀ s ∈ (if k.earlyReturn then _ else _), statement.Fits s
  split
  · exact catchEarlyReturn_fits _ _ hreturned
  · exact hreturned

/-! ## Defaults of declared functions -/

abbrev Registry.Sorted (registry : Registry) : Prop := registry.StoresOnly expression.Fits

theorem Registry.Sorted.extend {registry registry' : Registry} {targets : List Node}
    (h : registry.Sorted) (htargets : AllFit (expression.all targets))
    (hstores : ∀ default, registry'.Stores default → registry.Stores default ∨
      ∃ target ∈ targets, defaultOf? target = some default) : registry'.Sorted := by
  refine Registry.StoresOnly.extend h (fun target htarget _ hheld => ?_) hstores
  exact (all_iff.mp htargets target htarget).sorted.held _ hheld

/-! ## Events -/

/-- A step that succeeds keeps the defaults well-sorted and gives a well-sorted node, if any. -/
def LowersSorted (m : Lower (Option Node)) : Prop :=
  ∀ c node d, m c = .ok node d → c.registry.Sorted → d.registry.Sorted ∧ ∀ n ∈ node, WellSorted n

theorem lowerValue_sorted (hl : Transparent lower) {t : SExpr} (hlower : LowersSorted (lower t)) (hc : c.suspension = {}) (h : lowerValue lower t c = .ok node d)
    (hsorted : c.registry.Sorted) : d.registry.Sorted ∧ expression.Fits node := by
  obtain ⟨c', d', lowered, δ, hrun, -, -, hcore, hcore', -, hnode⟩ := lowerValue_ok hl hc h
  have hreg : c'.registry = c.registry := by simpa using congrArg Core.registry hcore
  have hreg' : d'.registry = d.registry := by simpa using congrArg Core.registry hcore'
  obtain ⟨hd, hlowered⟩ := hlower c' lowered d' hrun (hreg ▸ hsorted)
  refine ⟨hreg' ▸ hd, ?_⟩
  cases lowered with
  | some result =>
    rw [hnode]
    exact asExpression_fits (hlowered result rfl) δ
  | none =>
    obtain ⟨p, rfl⟩ := hnode
    exact ⟨rfl, .hold rfl rfl .nil⟩

/-- What the events of a form rest on: trees are lowered to well-sorted nodes, and the defaults that
are used are well-sorted. -/
structure SortedSource (lower : Lowerer) (stored : Node → Prop) : Prop where
  transparent : Transparent lower
  lowers : ∀ t, LowersSorted (lower t)
  stored : ∀ default, stored default → expression.Fits default

mutual

theorem Step.sorted {k k' : Core} {event : Event} {δ : Suspension}
    (hs : SortedSource lower stored) (h : Step lower stored k event δ k') (hk : k.registry.Sorted) :
    k'.registry.Sorted ∧ ∀ leaf ∈ event.leaves, leaf.WellSorted := by
  match h with
  | .value hc hrun =>
    obtain ⟨hd, hnode⟩ := lowerValue_sorted hs.transparent (hs.lowers _) hc hrun hk
    exact ⟨hd, by simpa [Event.leaves, Leaf.WellSorted] using hnode⟩
  | .plain _ _ hrun =>
    obtain ⟨hd, hnode⟩ := hs.lowers _ _ _ _ hrun hk
    exact ⟨hd, by simpa [Event.leaves, Leaf.WellSorted] using hnode⟩
  | .function hparams _ htargets hshaped hstores hbody _ hstmts =>
    -- the defaults of the function are stored before its body is lowered
    obtain ⟨hk₁, hleaves⟩ := hparams.sorted hs hk
    have hinside := hk₁.extend (htargets.wellSorted hleaves) hstores
    obtain ⟨hk₂, hleaves'⟩ := hbody.sorted hs hinside
    simp only [Event.leaves, mem_singleton, forall_eq]
    exact ⟨hk₂, enclose_fits _ _ (all_iff.mp (hshaped.wellSorted hleaves))
      (all_iff.mp (hstmts.wellSorted hleaves'))⟩
  | .stored hdefault =>
    exact ⟨hk, by simpa [Event.leaves, Leaf.WellSorted] using hs.stored _ hdefault⟩
  | .awaits | .yields | .jumps | .returns _ _ | .escapes _ _ =>
    exact ⟨hk, by simp [Event.leaves, Leaf.WellSorted]⟩
  | .object _ => exact ⟨hk, by simp [Event.leaves, Leaf.WellSorted]⟩

theorem Run.sorted {k k' : Core} {events : List Event} {δ : Suspension}
    (hs : SortedSource lower stored) (h : Run lower stored k events δ k') (hk : k.registry.Sorted) :
    k'.registry.Sorted ∧ ∀ leaf ∈ events.flatMap Event.leaves, leaf.WellSorted := by
  match h with
  | .nil => exact ⟨hk, by simp⟩
  | .cons hstep hrest =>
    obtain ⟨hk', hleaves⟩ := hstep.sorted hs hk
    obtain ⟨hk'', hleaves'⟩ := hrest.sorted hs hk'
    rw [flatMap_cons, forall_mem_append]
    exact ⟨hk'', hleaves, hleaves'⟩

end

theorem lower_sorted (t : SExpr) : LowersSorted (Lowering.lower t) := by
  refine lower_induction (N := fun _ m => LowersSorted m) (fun t e c node d hrun => ?_) ?_ t
  · cases hrun
  intro lower hl hlower t m hm c node d hrun hc
  obtain ⟨looped, events, δ, hevents, -, -, -, hnode⟩ := hm c node d hrun
  obtain ⟨hd, hleaves⟩ := hevents.sorted ⟨hl, hlower, hc⟩ (by simpa using hc)
  refine ⟨by simpa using hd, fun n hn => ?_⟩
  cases hn
  exact hnode.wellSorted hleaves

/-! ## Sessions -/

/-- The view in which registries grow by well-sorted defaults. -/
def RegistryView.sorting : RegistryView :=
  { full with
    grows := fun r s => r.Sorted → s.Sorted
    grows_refl := fun _ h => h
    grows_trans := fun hrs hst h => hst (hrs h) }

theorem Shown.sorting : Shown sorting fun _ => True := { Shown.full with }

theorem Declares.sorting : Declares sorting (fun _ => True) Lowering.lower := by
  intro spec c d targets name registry _ _ hrun hgrows hdeclare hc
  have hperforms : Comparison.self.Performs c.registry.Stores _
      (lowerParamTargets · 0 spec.params.params) _ := lowerParamTargets_performs 0 fun _ _ => trivial
  obtain ⟨events, δ, hevents, -, -, htargets, -⟩ := hperforms.makes lower_transparent c targets d hrun
  obtain ⟨hd, hleaves⟩ := hevents.sorted ⟨lower_transparent, lower_sorted, hc⟩ hc
  exact hd.extend (htargets.wellSorted hleaves) fun _ => Registry.stores_of_declare hdeclare

theorem Agree.sorted {α : Type} {m : Lower α} (h : Agree sorting m m)
    (hc : c.registry.Sorted) : (endState (m c)).registry.Sorted :=
  h.grows rfl hc

theorem Context.sorted_after (hc : c.registry.Sorted) (request : Request) :
    (c.after request).registry.Sorted := by
  have hagree : Agree sorting request.perform request.perform := by
    cases request with
    | form tree => exact .map (lower_agree .sorting .sorting trivial) _
    | program forms => exact .map (lowerProgram_agree .sorting .sorting fun _ _ => trivial) _
  exact hagree.sorted hc

theorem Context.sorted_afterAll (hc : c.registry.Sorted) (history : List Request) :
    (c.afterAll history).registry.Sorted := by
  induction history generalizing c with
  | nil => exact hc
  | cons request rest ih => exact ih (c.sorted_after hc request)

/-- An answer is well-sorted: a program holds statements. -/
def Answer.WellSorted : Answer → Prop
  | .node node => ∀ n ∈ node, LispLowering.WellSorted n
  | .program lowered => ∀ s ∈ lowered.body, statement.Fits s

theorem lowerTopLevel_sorted {t : SExpr} (h : lowerTopLevel t c = .ok node d)
    (hc : c.registry.Sorted) : d.registry.Sorted ∧ statement.Fits node := by
  obtain ⟨lowered, hrun, rfl⟩ := map_ok h
  obtain ⟨hd, hlowered⟩ := lower_sorted t c lowered d hrun hc
  have hnode : LispLowering.WellSorted (lowered.getD (Node.null.place t.position)) := by
    cases lowered with
    | none => exact .hold rfl rfl .nil
    | some n => exact hlowered n rfl
  exact ⟨hd, (asStatement (.node _)).wellSorted (by simpa [Leaf.WellSorted] using hnode)⟩

theorem lowerProgram_sorted {forms : List SExpr} {body : List Node}
    (h : Lower.each lowerTopLevel forms c = .ok body d) (hc : c.registry.Sorted) :
    ∀ s ∈ body, statement.Fits s := by
  induction forms generalizing c body with
  | nil =>
    obtain ⟨rfl, rfl⟩ := pure_ok h
    simp
  | cons form rest ih =>
    obtain ⟨first, c', hfirst, h⟩ := bind_ok h
    obtain ⟨others, hothers, rfl⟩ := map_ok h
    obtain ⟨hc', hsorted⟩ := lowerTopLevel_sorted hfirst hc
    exact forall_mem_cons.mpr ⟨hsorted, ih hothers hc'⟩

/-- Every answer of a session is well-sorted, whatever was asked before and whether it failed. -/
theorem lowered_wellSorted (directory : String) (options : Options) (history : List Request)
    (request : Request) (answer : Answer) (d : Context)
    (h : request.perform ((Context.start directory options).afterAll history) = .ok answer d) :
    answer.WellSorted := by
  have hstart : (Context.start directory options).registry.Sorted := by
    rintro default ⟨name, entry, index, hentry, -⟩
    cases hentry
  have hc := Context.sorted_afterAll hstart history
  generalize (Context.start directory options).afterAll history = c at h hc
  cases request with
  | form tree =>
    obtain ⟨lowered, hrun, rfl⟩ := map_ok h
    exact (lower_sorted tree c lowered d hrun hc).2
  | program forms =>
    obtain ⟨lowered, hrun, rfl⟩ := map_ok h
    obtain ⟨body, hbody, rfl⟩ := map_ok hrun
    exact lowerProgram_sorted hbody hc

/-- A session in which a function is declared whose default is a statement, and in which a second form
fails. -/
def failedSession : List Request :=
  let attempt : SExpr := .list [.symbol "try" none, .symbol "y" none,
    .list [.symbol "catch" none, .symbol "e" none, .symbol "z" none] none] none
  let params : SExpr := .list [.symbol "vector" none, .symbol "x" none, .symbol "=" none, attempt] none
  [.form (.list [.symbol "fn" none, .symbol "f" none, params, .symbol "x" none] none),
    .form (.list [.symbol "recur" none] none)]

/-- The call that follows is completed from the default. -/
theorem lowered_wellSorted_call : ∃ answer d, (Request.form (.list [.symbol "f" none] none)).perform
      ((Context.start "" {}).afterAll failedSession) = .ok answer d ∧ answer.WellSorted :=
  ⟨_, _, rfl, lowered_wellSorted "" {} failedSession (.form (.list [.symbol "f" none] none)) _ _ rfl⟩

end LispLowering
