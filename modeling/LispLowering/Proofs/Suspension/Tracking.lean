import LispLowering.Proofs.Jumps
import LispLowering.Proofs.Composition.Traversal

/-!
# Tracking what code waits for
-/

namespace LispLowering

open Lowering Scan List SExpr

variable {lower : Lowerer} {stored : Node → Prop} {t : SExpr}

/-! ## Trees that wait -/

/-- The tree waits for something, outside of the functions in it. -/
inductive SExpr.Suspends : SExpr → Prop where
  | await {t : SExpr} : .act .await ∈ t.parts → Suspends t
  | yield {t : SExpr} : .act .yield ∈ t.parts → Suspends t
  | part {t u : SExpr} {place : Place} : .tree place u ∈ t.parts → place ≠ .inner → Suspends u →
      Suspends t

def Part.Suspends : Part → Prop
  | .tree place u => place ≠ .inner ∧ u.Suspends
  | .act .await | .act .yield => True
  | .act _ => False

theorem SExpr.suspends_iff : t.Suspends ↔ ∃ part ∈ t.parts, part.Suspends := by
  constructor
  · intro h
    cases h with
    | await hact => exact ⟨_, hact, trivial⟩
    | yield hact => exact ⟨_, hact, trivial⟩
    | part hpart hplace hu => exact ⟨_, hpart, hplace, hu⟩
  · rintro ⟨part, hpart, hsuspends⟩
    match part with
    | .tree place u => exact .part hpart hsuspends.1 hsuspends.2
    | .act .await => exact .await hpart
    | .act .yield => exact .yield hpart

theorem SExpr.not_suspends_atom (h : t.items? = none) : ¬t.Suspends := by
  rw [suspends_iff, parts_atom h]
  simp

/-- The part is no default of a parameter that waits for something. -/
def Part.IsPrompt : Part → Prop
  | .tree .default u => ¬u.Suspends
  | _ => True

/-- No default of a parameter waits for anything, at any depth. -/
abbrev SExpr.Prompt (t : SExpr) : Prop := t.Everywhere Part.IsPrompt

abbrev Part.Prompt (part : Part) : Prop := part.Everywhere Part.IsPrompt

/-! ## Waiting in the target -/

abbrev Scan.awaiting : Scan := outside .awaits

abbrev Scan.yielding : Scan := outside .yields

def Awaits (nodes : List Node) : Prop := ∃ n ∈ nodes, awaiting.Finds n

def Yields (nodes : List Node) : Prop := ∃ n ∈ nodes, yielding.Finds n

abbrev Registry.Prompt (registry : Registry) : Prop :=
  registry.StoresOnly fun default => ¬awaiting.Finds default ∧ ¬yielding.Finds default

/-! ## Notes -/

/-- What is noted for code that awaits and yields as said. Where something is delegated to that yields,
the code need not await itself. -/
structure Suspension.Tracks (δ : Suspension) (awaits yields : Prop) : Prop where
  awaits_of : awaits → δ.awaits = true
  yields_iff : yields ↔ δ.yields = true
  of_awaits : δ.awaits = true → awaits ∨ yields

namespace Suspension.Tracks

variable {δ δ' : Suspension} {awaits yields awaits' yields' : Prop}

theorem none (hawaits : ¬awaits) (hyields : ¬yields) : Tracks {} awaits yields :=
  ⟨fun h => absurd h hawaits, ⟨fun h => absurd h hyields, nofun⟩, nofun⟩

theorem congr (h : δ.Tracks awaits yields) (hawaits : awaits' ↔ awaits) (hyields : yields' ↔ yields) :
    δ.Tracks awaits' yields' := by
  rw [propext hawaits, propext hyields]
  exact h

theorem union (h : δ.Tracks awaits yields) (h' : δ'.Tracks awaits' yields') :
    (δ.union δ').Tracks (awaits ∨ awaits') (yields ∨ yields') where
  awaits_of := by
    simp only [Suspension.union, Bool.or_eq_true]
    exact Or.imp h.awaits_of h'.awaits_of
  yields_iff := by
    simp only [Suspension.union, Bool.or_eq_true]
    exact or_congr h.yields_iff h'.yields_iff
  of_awaits := by
    simp only [Suspension.union, Bool.or_eq_true]
    rintro (hδ | hδ)
    · exact (h.of_awaits hδ).imp .inl .inl
    · exact (h'.of_awaits hδ).imp .inr .inr

end Suspension.Tracks

theorem tracks_wrapped (body : List Node) (δ : Suspension) (p : Option Position) :
    δ.Tracks (awaiting.Finds (Node.wrapped body δ p)) (yielding.Finds (Node.wrapped body δ p)) := by
  have hleaves (mark : Mark) : (outside mark).Finds (Node.wrapped body δ p) ↔
      ∃ leaf ∈ δ.leaves, (outside mark).FindsAt leaf := by
    simp [finds_wrapped, outside]
  rw [hleaves, hleaves]
  obtain ⟨awaits, yields⟩ := δ
  cases yields with
  | true =>
    have hleaf : ∃ leaf ∈ [Leaf.mark .yields], yielding.FindsAt leaf := ⟨_, .head _, rfl⟩
    refine ⟨?_, ⟨fun _ => rfl, fun _ => hleaf⟩, fun _ => .inr hleaf⟩
    simp [Suspension.leaves, FindsAt, outside]
  | false =>
    cases awaits with
    | true =>
      have hleaf : ∃ leaf ∈ [Leaf.mark .awaits], awaiting.FindsAt leaf := ⟨_, .head _, rfl⟩
      refine ⟨fun _ => rfl, ?_, fun _ => .inl hleaf⟩
      simp [Suspension.leaves, FindsAt, outside]
    | false => exact .none (by simp [Suspension.leaves]) (by simp [Suspension.leaves])

/-! ## Events -/

/-- What is noted in a run that leaves leaves behind for parts of a form. Only parts that wait for
something give rise to a note. -/
structure Tracked (parts : List Part) (leaves : List Leaf) (δ : Suspension) (k : Core) : Prop where
  registry : k.registry.Prompt
  tracks : δ.Tracks (∃ leaf ∈ leaves, awaiting.FindsAt leaf)
    (∃ leaf ∈ leaves, yielding.FindsAt leaf)
  suspends : δ ≠ {} → ∃ part ∈ parts, part.Suspends

def LowersTracked (t : SExpr) (m : Lower (Option Node)) : Prop :=
  t.Prompt → ∀ c node d, c.suspension = {} → m c = .ok node d → c.registry.Prompt →
    d.registry.Prompt ∧ d.suspension.Tracks (Awaits node.toList) (Yields node.toList) ∧
      (d.suspension ≠ {} → t.Suspends)

/-- What the events of a form rest on. -/
structure TrackedSource (lower : Lowerer) (stored : Node → Prop) : Prop where
  transparent : Transparent lower
  lowers : ∀ t, LowersTracked t (lower t)
  stored : ∀ default, stored default → ¬awaiting.Finds default ∧ ¬yielding.Finds default

variable {k : Core} {parts : List Part} {leaves : List Leaf} {δ : Suspension}

theorem Tracked.nil (h : k.registry.Prompt) : Tracked [] [] {} k :=
  ⟨h, .none (by simp) (by simp), fun h => absurd rfl h⟩

theorem Tracked.quiet {leaf : Leaf} (h : k.registry.Prompt) (hawaits : ¬awaiting.FindsAt leaf)
    (hyields : ¬yielding.FindsAt leaf) : Tracked parts [leaf] {} k :=
  ⟨h, .none (by simpa using hawaits) (by simpa using hyields), fun h => absurd rfl h⟩

theorem Tracked.append {parts' : List Part} {leaves' : List Leaf} {δ' : Suspension} {k' : Core}
    (h : Tracked parts leaves δ k) (h' : Tracked parts' leaves' δ' k') :
    Tracked (parts ++ parts') (leaves ++ leaves') (δ.union δ') k' := by
  refine ⟨h'.registry, ?_, fun hne => ?_⟩
  · simp only [mem_append, or_and_right, exists_or]
    exact h.tracks.union h'.tracks
  · simp only [mem_append, or_and_right, exists_or]
    by_cases hδ : δ = {}
    · refine .inr (h'.suspends ?_)
      rintro rfl
      exact hne (by rw [hδ]; rfl)
    · exact .inl (h.suspends hδ)

theorem exists_mem_partAt_suspends {place : Place} (hplace : place ≠ .inner) (h : t.Suspends) :
    ∃ part ∈ t.partAt place, part.Suspends := by
  cases t with
  | list items p => exact ⟨_, .head _, hplace, h⟩
  | symbol | literal => exact absurd h (not_suspends_atom rfl)

theorem lowerValue_tracked (hs : TrackedSource lower stored) (ht : t.Prompt) {c d : Context}
    {node : Node} (hc : c.suspension = {}) (h : lowerValue lower t c = .ok node d)
    (hprompt : c.registry.Prompt) : Tracked (t.partAt .value) [.value node] d.suspension d.core := by
  obtain ⟨c', d', lowered, δ, hrun, hc', hd', hcore, hcore', hδ, hnode⟩ :=
    lowerValue_ok hs.transparent hc h
  have hreg : c'.registry = c.registry := by simpa using congrArg Core.registry hcore
  have hreg' : d'.registry = d.core.registry := by simpa using congrArg Core.registry hcore'
  obtain ⟨hprompt', htracks, hsuspends⟩ := hs.lowers t ht c' lowered d' hc' hrun (hreg ▸ hprompt)
  rw [hreg'] at hprompt'
  rw [hd'] at htracks hsuspends
  -- nothing is noted for a tree that is no list, and the wrapper of a list does what is noted
  have hδ : δ = d.suspension := by
    cases hitems : t.items? with
    | some items => simpa [hitems] using hδ
    | none =>
      have hnone : d.suspension = {} := by
        by_contra hne
        exact not_suspends_atom hitems (hsuspends hne)
      simpa [hitems, hnone] using hδ
  refine ⟨hprompt', ?_, fun hne => exists_mem_partAt_suspends (by decide) (hsuspends hne)⟩
  simp only [mem_singleton, exists_eq_left, FindsAt]
  subst hδ
  cases lowered with
  | none =>
    obtain ⟨p, rfl⟩ := hnode
    have hnull : Built [] .expression (Node.null.place p) := .hold rfl .nil
    exact htracks.congr (by simp [hnull.finds_iff, Awaits]) (by simp [hnull.finds_iff, Yields])
  | some result =>
    obtain rfl := hnode
    rcases asExpression_cases result d.suspension with ⟨-, hwrapped⟩ | ⟨hvalue, -⟩
    · rw [hwrapped]
      exact tracks_wrapped _ _ _
    · exact htracks.congr (by simp [hvalue _ awaiting.search, Awaits])
        (by simp [hvalue _ yielding.search, Yields])

theorem Tracked.eq_empty (h : Tracked parts leaves δ k) (hparts : ∀ part ∈ parts, ¬part.Suspends) :
    δ = {} := by
  by_contra hne
  obtain ⟨part, hpart, hsuspends⟩ := h.suspends hne
  exact hparts part hpart hsuspends

theorem Tracked.nodes_prompt {slot : Slot} {nodes : List Node} (h : Tracked parts leaves {} k)
    (hnodes : BuiltAll leaves (slot.all nodes)) : ∀ n ∈ nodes, ¬awaiting.Finds n ∧ ¬yielding.Finds n := by
  have hleaf {scan : Scan} {n : Node} (hn : n ∈ nodes) (hfinds : scan.Finds n) :
      ∃ leaf ∈ leaves, scan.FindsAt leaf :=
    (hnodes.finds_iff scan).mp (findsAmong_all.mpr ⟨n, hn, hfinds⟩)
  intro n hn
  constructor
  · intro hfinds
    cases h.tracks.awaits_of (hleaf hn hfinds)
  · intro hfinds
    cases h.tracks.yields_iff.mp (hleaf hn hfinds)

theorem Registry.Prompt.extend {registry registry' : Registry} {targets : List Node} (h : registry.Prompt)
    (htargets : ∀ n ∈ targets, ¬awaiting.Finds n ∧ ¬yielding.Finds n)
    (hstores : ∀ default, registry'.Stores default → registry.Stores default ∨
      ∃ target ∈ targets, defaultOf? target = some default) : registry'.Prompt := by
  apply Registry.StoresOnly.extend h _ hstores
  intro target htarget default hheld
  obtain ⟨hawaits, hyields⟩ := htargets target htarget
  exact ⟨fun h => hawaits (.slot hheld h), fun h => hyields (.slot hheld h)⟩

/-- What is asked of the parts of a function, where its defaults are lowered like values and its body
like statements. -/
structure PromptFunction (spec : FunctionSpec) : Prop where
  defaults : ∀ part ∈ Place.value.all spec.params.defaults, part.Prompt
  values : ∀ part ∈ Place.value.all spec.params.defaults, ¬part.Suspends
  body : ∀ part ∈ Place.statement.all spec.body, part.Prompt

theorem PromptFunction.of_parts {spec : FunctionSpec}
    (h : ∀ part ∈ functionParts spec.params spec.body, part.Prompt) : PromptFunction spec := by
  rw [functionParts, forall_mem_append] at h
  obtain ⟨hdefaults, hbody⟩ := h
  have hprompt : ∀ t ∈ spec.params.defaults, ¬t.Suspends :=
    forall_of_all hdefaults (fun _ => not_suspends_atom) fun _ => id
  refine ⟨everywhere_all (fun _ => trivial) (everywhere_of_all hdefaults), ?_,
    everywhere_all (fun _ => trivial) (everywhere_of_all hbody)⟩
  intro part hpart hsuspends
  obtain ⟨t, ht, rfl⟩ := Place.mem_all hpart
  exact hprompt t ht hsuspends.2

mutual

theorem Step.tracked (hs : TrackedSource lower stored) {k k' : Core} {event : Event}
    {δ : Suspension} (h : Step lower stored k event δ k') (hk : k.registry.Prompt)
    (hparts : ∀ part ∈ event.parts, part.Prompt) :
    Tracked event.parts event.leaves δ k' := by
  match h with
  | .value hc hrun => exact lowerValue_tracked hs (everywhere_of_partAt hparts) hc hrun hk
  | @Step.plain _ _ _ _ place tree node hplace hc hrun =>
    obtain ⟨hreg, htracks, hsuspends⟩ :=
      hs.lowers tree (everywhere_of_partAt hparts) _ node _ hc hrun hk
    refine ⟨hreg, htracks.congr ?_ ?_, fun hne => ?_⟩
    · simp [Event.leaves, Awaits, FindsAt]
    · simp [Event.leaves, Yields, FindsAt]
    · have hvisible : place ≠ .inner := by rcases hplace with rfl | ⟨rfl, -⟩ <;> decide
      exact exists_mem_partAt_suspends hvisible (hsuspends hne)
  | @Step.function _ _ k k₁ k₂ spec events events' _ _ targets params statements registry hrun hdefaults
      htargets hshaped hstores hrun' hbody hstmts =>
    -- nothing is noted for the defaults, and the notes of the body stay inside the function
    have hspec : PromptFunction spec :=
      .of_parts fun part hpart => hparts part (spec.functionParts_subset hpart)
    have htracked := hrun.tracked hs hk (hdefaults ▸ hspec.defaults)
    rw [hdefaults] at htracked
    cases htracked.eq_empty hspec.values
    have hreg : registry.Prompt := htracked.registry.extend (htracked.nodes_prompt htargets) hstores
    have htracked' := hrun'.tracked hs hreg (hbody ▸ hspec.body)
    exact .quiet htracked'.registry (outside_not_findsIn _ _) (outside_not_findsIn _ _)
  | .stored hdefault =>
    obtain ⟨hawaits, hyields⟩ := hs.stored _ hdefault
    exact .quiet hk hawaits hyields
  | .awaits =>
    have hleaf : ∃ leaf ∈ [Leaf.mark .awaits], awaiting.FindsAt leaf := ⟨_, .head _, rfl⟩
    refine ⟨hk, ⟨fun _ => rfl, ?_, fun _ => .inl hleaf⟩, fun _ => ⟨_, .head _, trivial⟩⟩
    simp [Event.leaves, FindsAt, outside]
  | .yields =>
    have hleaf : ∃ leaf ∈ [Leaf.mark .yields], yielding.FindsAt leaf := ⟨_, .head _, rfl⟩
    refine ⟨hk, ⟨?_, ⟨fun _ => rfl, fun _ => hleaf⟩, nofun⟩, fun _ => ⟨_, .head _, trivial⟩⟩
    simp [Event.leaves, FindsAt, outside]
  | .jumps => exact ⟨hk, .none nofun nofun, fun h => absurd rfl h⟩
  | .returns _ _ =>
    exact .quiet hk (not_outside_marks Mark.noConfusion) (not_outside_marks Mark.noConfusion)
  | .escapes _ _ =>
    exact .quiet hk (not_outside_marks Mark.noConfusion) (not_outside_marks Mark.noConfusion)
  | @Step.object _ _ _ args entries hkeys =>
    refine ⟨hk, .none ?_ ?_, fun h => absurd rfl h⟩
    · cases entries <;> simp [Event.leaves, NodeKind.marks, FindsAt, outside]
    · cases entries <;> simp [Event.leaves, NodeKind.marks, FindsAt, outside]

theorem Run.tracked (hs : TrackedSource lower stored) {k k' : Core} {events : List Event}
    {δ : Suspension} (h : Run lower stored k events δ k') (hk : k.registry.Prompt)
    (hparts : ∀ part ∈ events.flatMap Event.parts, part.Prompt) :
    Tracked (events.flatMap Event.parts) (events.flatMap Event.leaves) δ k' := by
  match h with
  | .nil => exact .nil hk
  | .cons hstep hrest =>
    rw [flatMap_cons, forall_mem_append] at hparts
    have hfirst := hstep.tracked hs hk hparts.1
    exact hfirst.append (hrest.tracked hs hfirst.registry hparts.2)

end

/-! ## Nodes of forms -/

theorem Composed.tracks {guards : Node → Prop} {node : Node} (h : Composed guards leaves δ node)
    (hδ : δ.Tracks (∃ leaf ∈ leaves, awaiting.FindsAt leaf) (∃ leaf ∈ leaves, yielding.FindsAt leaf)) :
    δ.Tracks (awaiting.Finds node) (yielding.Finds node) := by
  induction h with
  | built hnode => exact hδ.congr (hnode.finds_iff _) (hnode.finds_iff _)
  | @guarded leaves leaves' _ block handler finalizer p _ hblock hheld =>
    have hfinds (scan : Scan) : scan.Finds ⟨.tryStatement block (some handler) finalizer, p⟩ ↔
        ∃ leaf ∈ leaves ++ leaves', scan.FindsAt leaf := by
      rw [scan.finds_iff, ← (BuiltAll.cons hblock hheld).finds_iff scan]
      simp [NodeKind.marks, NodeKind.slots, NodeKind.definition?, Slot.all]
    exact hδ.congr (hfinds _) (hfinds _)
  | wrapped | loop => exact tracks_wrapped _ _ _
  | move hkind _ ih =>
    exact (ih hδ).congr (awaiting.search.move hkind) (yielding.search.move hkind)

theorem lower_tracked (t : SExpr) : LowersTracked t (Lowering.lower t) := by
  refine lower_induction (N := LowersTracked) (fun t e _ c node d _ hrun => ?_) ?_ t
  · cases hrun
  intro lower hl hlower t m hm ht c node d hc hrun hprompt
  obtain ⟨looped, events, δ, hevents, hδ, hparts, -, hnode⟩ := hm c node d hrun
  have htracked := hevents.tracked ⟨hl, hlower, hprompt⟩ (by simpa using hprompt)
    (hparts ▸ everywhere_iff.mp ht)
  rw [hc, Suspension.empty_union] at hδ
  rw [hparts] at htracked
  subst hδ
  refine ⟨by simpa using htracked.registry, ?_, fun hne => suspends_iff.mpr (htracked.suspends hne)⟩
  cases node with
  | none =>
    subst hnode
    exact htracked.tracks.congr (by simp [Awaits]) (by simp [Yields])
  | some node => exact (hnode.tracks htracked.tracks).congr (by simp [Awaits]) (by simp [Yields])

end LispLowering
