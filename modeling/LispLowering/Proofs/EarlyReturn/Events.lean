import LispLowering.Proofs.EarlyReturn.Leaving

/-!
# How events leave functions
-/

namespace LispLowering

open Lowering Scan Place SExpr

variable {lower : Lowerer} {stored : Node → Prop} {key : String} {deep : Bool} {t : SExpr}
  {events : List Event} {registry : Registry} {spec : FunctionSpec} {ts : List SExpr}

/-! ## Events -/

def Core.isWrapped (k : Core) : Bool := k.wrapperDepth ≠ 0

/-- What a run through parts does about leaving functions: the innermost function is left early exactly
if one of the parts does so, and outside of functions there is nothing to leave. -/
structure Leaving (key : String) (parts : List Part) (k k' : Core) : Prop where
  registry : k'.registry.Harmless key
  early : k'.earlyReturn = true ↔ k.earlyReturn = true ∨ ∃ part ∈ parts, part.LeavesEarly k.isWrapped
  inside : (∃ part ∈ parts, part.LeavesEarly true) → k.functionDepth ≠ 0

/-- What is found in a leaf of a run through parts: a marked object that is not caught comes from a
part that leaves the function early, and a `return` is not inside of a wrapper. -/
structure LeafLeaving (key : String) (parts : List Part) (k : Core) (leaf : Leaf) : Prop where
  uncaught : (Scan.uncaught key).FindsAt leaf → ∃ part ∈ parts, part.LeavesEarly k.isWrapped
  returns : Scan.returns.FindsAt leaf → k.wrapperDepth = 0 ∧ ∃ part ∈ parts, part.LeavesEarly true

def LowersLeaving (key : String) (t : SExpr) (m : Lower (Option Node)) : Prop :=
  t.Orderly key → ∀ c node d, m c = .ok node d → c.options.earlyReturnKey = key →
    c.registry.Harmless key →
    Leaving key t.parts c.core d.core ∧ ∀ n ∈ node, LeafLeaving key t.parts c.core (.node n)

/-- What the events of a form rest on. -/
structure LeavingSource (key : String) (lower : Lowerer) (stored : Node → Prop) : Prop where
  transparent : Transparent lower
  lowers : ∀ t, LowersLeaving key t (lower t)
  stored : ∀ default, stored default → ¬Scan.returns.Finds default ∧ ¬(Scan.uncaught key).Finds default

variable {parts parts' : List Part} {k k' : Core} {leaf : Leaf}

theorem LeafLeaving.none (huncaught : ¬(Scan.uncaught key).FindsAt leaf)
    (hreturns : ¬Scan.returns.FindsAt leaf) : LeafLeaving key parts k leaf :=
  ⟨fun h => absurd h huncaught, fun h => absurd h hreturns⟩

theorem LeafLeaving.mono (h : parts ⊆ parts') (hleaf : LeafLeaving key parts k leaf) :
    LeafLeaving key parts' k leaf where
  uncaught := fun hfinds => (hleaf.uncaught hfinds).imp fun _ => And.imp_left (h ·)
  returns := fun hfinds => (hleaf.returns hfinds).imp_right (Exists.imp fun _ => And.imp_left (h ·))

section

variable (hwrapped : (∃ part ∈ parts, part.LeavesEarly k.isWrapped) ↔
    ∃ part ∈ parts', part.LeavesEarly k.isWrapped)
  (hdeep : (∃ part ∈ parts, part.LeavesEarly true) ↔ ∃ part ∈ parts', part.LeavesEarly true)

include hwrapped hdeep

theorem LeafLeaving.congr (hleaf : LeafLeaving key parts k leaf) : LeafLeaving key parts' k leaf where
  uncaught := fun hfinds => hwrapped.mp (hleaf.uncaught hfinds)
  returns := fun hfinds => (hleaf.returns hfinds).imp_right hdeep.mp

theorem Leaving.congr (h : Leaving key parts k k') : Leaving key parts' k k' where
  registry := h.registry
  early := by rw [h.early, hwrapped]
  inside := fun hparts => h.inside (hdeep.mpr hparts)

end

theorem Leaving.act {k : Core} (h : k.registry.Harmless key) {act : Act} (hact : act ≠ .leave) :
    Leaving key [.act act] k k := by
  have hnone (deep : Bool) : ¬(Part.act act).LeavesEarly deep := by
    cases act with
    | leave => exact absurd rfl hact
    | _ => exact id
  exact ⟨h, by simp [hnone], by simp [hnone]⟩

theorem Leaving.refl (h : k.registry.Harmless key) : Leaving key [] k k := ⟨h, by simp, by simp⟩

theorem Leaving.trans {k'' : Core} (h : Leaving key parts k k') (h' : Leaving key parts' k' k'')
    (hwrapper : k'.wrapperDepth = k.wrapperDepth) (hfun : k'.functionDepth = k.functionDepth) :
    Leaving key (parts ++ parts') k k'' where
  registry := h'.registry
  early := by
    have hwrapped : k'.isWrapped = k.isWrapped := by rw [Core.isWrapped, Core.isWrapped, hwrapper]
    rw [h'.early, h.early, hwrapped]
    simp only [List.mem_append, or_and_right, exists_or, or_assoc]
  inside := by
    simp only [List.mem_append, or_and_right, exists_or]
    rintro (hparts | hparts)
    · exact h.inside hparts
    · rw [← hfun]
      exact h'.inside hparts

section

variable (hs : LeavingSource key lower stored)

include hs

theorem lowerValue_leaving (ht : t.Orderly key) {c d : Context} {node : Node} (hc : c.suspension = {})
    (h : lowerValue lower t c = .ok node d) (hkey : c.options.earlyReturnKey = key)
    (hharmless : c.registry.Harmless key) : Leaving key (t.partAt .value) c.core d.core ∧
      LeafLeaving key (t.partAt .value) c.core (.value node) := by
  obtain ⟨c', d', lowered, δ, hrun, -, -, hcore, hcore', -, hnode⟩ := lowerValue_ok hs.transparent hc h
  have hopts : c'.options = c.options := by simpa using congrArg Core.options hcore
  have hreg : c'.registry = c.registry := by simpa using congrArg Core.registry hcore
  have hreg' : d'.core.registry = d.core.registry := by simpa using congrArg Core.registry hcore'
  have hfun : c'.core.functionDepth = c.core.functionDepth := by
    simpa using congrArg Core.functionDepth hcore
  have hearly : c'.core.earlyReturn = c.core.earlyReturn := by
    simpa using congrArg Core.earlyReturn hcore
  have hearly' : d'.core.earlyReturn = d.core.earlyReturn := by
    simpa using congrArg Core.earlyReturn hcore'
  -- a list is lowered inside of a wrapper, and nothing else has a `return` in it
  have hdeep (h : t.LeavesEarly true) : c'.core.isWrapped = true := by
    cases hitems : t.items? with
    | none => exact absurd h (not_leavesEarly_atom hitems)
    | some items =>
      rw [hcore, hitems]
      simp [Core.isWrapped, Core.deepen]
  have hparts (deep : Bool) : (∃ part ∈ t.partAt .value, part.LeavesEarly deep) ↔ t.LeavesEarly true := by
    simp [exists_mem_partAt, isWrapped]
  have hwrapped : (∃ part ∈ t.parts, part.LeavesEarly c'.core.isWrapped) ↔ t.LeavesEarly true := by
    rw [← leavesEarly_iff]
    exact ⟨.deepen, fun h => by rwa [hdeep h]⟩
  obtain ⟨hleaving, hleaves⟩ := hs.lowers t ht c' lowered d' hrun (hopts ▸ hkey)
    (hreg ▸ hharmless)
  refine ⟨⟨hreg' ▸ hleaving.registry, ?_, ?_⟩, ?_⟩
  · rw [hparts, ← hearly', ← hearly, ← hwrapped]
    exact hleaving.early
  · rw [hparts, leavesEarly_iff]
    intro h
    exact hfun ▸ hleaving.inside h
  · cases lowered with
    | none =>
      obtain ⟨p, rfl⟩ := hnode
      have hnull : Built [] .expression (Node.null.place p) := .hold rfl .nil
      exact .none (by simp [FindsAt, hnull.finds_iff]) (by simp [FindsAt, hnull.finds_iff])
    | some result =>
      have hresult := hleaves result rfl
      have huncaught (h : (Scan.uncaught key).Finds result) : t.LeavesEarly true :=
        hwrapped.mp (hresult.uncaught h)
      have hreturns : ¬Scan.returns.Finds result := by
        intro h
        obtain ⟨hzero, hleaves⟩ := hresult.returns h
        have hpos := hdeep (leavesEarly_iff.mpr hleaves)
        rw [Core.isWrapped, hzero] at hpos
        cases hpos
      subst hnode
      rcases asExpression_cases result δ with ⟨-, hvalue⟩ | ⟨hvalue, -⟩
      · rw [hvalue]
        refine ⟨fun h => (hparts _).mpr (huncaught ?_), fun h => ?_⟩
        · have hwithin := within_of_wrapped (S := (Scan.uncaught key).search)
            uncaught_not_awaits uncaught_not_yields h
          exact (exists_mem_returning uncaught_ignores result).mp (findsIn_wrapping.mp hwithin).2
        · exact absurd (within_of_wrapped (S := Scan.returns.search) returns_not_awaits
            returns_not_yields h) (outside_not_findsIn _ _)
      · refine ⟨fun h => (hparts _).mpr (huncaught ((hvalue _ (search _)).mp h)), fun h => ?_⟩
        exact absurd ((hvalue _ (search _)).mp h) hreturns

end

theorem Registry.Harmless.extend {registry' : Registry} {targets : List Node}
    (h : registry.Harmless key)
    (htargets : ∀ target ∈ targets, ¬Scan.returns.Finds target ∧ ¬(Scan.uncaught key).Finds target)
    (hstores : ∀ default, registry'.Stores default → registry.Stores default ∨
      ∃ target ∈ targets, defaultOf? target = some default) : registry'.Harmless key := by
  refine Registry.StoresOnly.extend h (fun target htarget _ hheld => ?_) hstores
  obtain ⟨hreturns, huncaught⟩ := htargets target htarget
  exact ⟨fun h => hreturns (.slot hheld h), fun h => huncaught (.slot hheld h)⟩

theorem harmless_of_leaves {leaves : List Leaf} {slot : Slot} {nodes : List Node}
    (hparts : ∀ deep, ¬∃ part ∈ parts, part.LeavesEarly deep)
    (hleaves : ∀ leaf ∈ leaves, LeafLeaving key parts k leaf) (h : BuiltAll leaves (slot.all nodes)) :
    ∀ n ∈ nodes, ¬Scan.returns.Finds n ∧ ¬(Scan.uncaught key).Finds n := by
  have hleaf {scan : Scan} {n : Node} (hn : n ∈ nodes) (hfinds : scan.Finds n) :
      ∃ leaf ∈ leaves, scan.FindsAt leaf :=
    (h.finds_iff scan).mp (findsAmong_all.mpr ⟨n, hn, hfinds⟩)
  refine fun n hn => ⟨fun hfinds => ?_, fun hfinds => ?_⟩
  · obtain ⟨leaf, hmem, hfinds⟩ := hleaf hn hfinds
    exact hparts true ((hleaves leaf hmem).returns hfinds).2
  · obtain ⟨leaf, hmem, hfinds⟩ := hleaf hn hfinds
    exact hparts _ ((hleaves leaf hmem).uncaught hfinds)

theorem enclose_caught {params statements : List Node}
    (hkey : k.options.earlyReturnKey = key) (hparams : ∀ n ∈ params, ¬(Scan.uncaught key).Finds n)
    (hstmts : ∀ s ∈ statements, (Scan.uncaught key).Finds s → k.earlyReturn = true) :
    ¬(Scan.uncaught key).FindsIn (spec.enclose params statements k) := by
  rintro (⟨-, param, hparam, hfinds⟩ | ⟨huncaught, hbody⟩)
  · exact hparams param hparam hfinds
  · by_cases hearly : k.earlyReturn = true
    · apply huncaught
      exact ⟨spec.position, spec.returned statements, by simp [FunctionSpec.enclose,
        FunctionSpec.function, hearly, hkey, catchEarlyReturn_eq]⟩
    · have hreturned : ∃ s ∈ spec.returned statements, (Scan.uncaught key).Finds s := by
        simpa [FunctionSpec.enclose, FunctionSpec.function, hearly] using hbody
      have hfinds : ∃ s ∈ statements, (Scan.uncaught key).Finds s := by
        unfold FunctionSpec.returned at hreturned
        split at hreturned
        · exact (exists_mem_returningAll uncaught_ignores statements).mp hreturned
        · exact hreturned
      obtain ⟨s, hs, hfinds⟩ := hfinds
      exact hearly (hstmts s hs hfinds)

theorem exists_mem_all_statement :
    (∃ part ∈ statement.all ts, part.LeavesEarly deep) ↔ ∃ t ∈ ts, t.LeavesEarly deep := by
  have hpart (t : SExpr) :
      (∃ part ∈ t.partAt .statement, part.LeavesEarly deep) ↔ t.LeavesEarly deep := by
    simp [exists_mem_partAt, isWrapped]
  simp only [all, List.mem_flatMap]
  constructor
  · rintro ⟨part, ⟨t, ht, hmem⟩, hleaves⟩
    exact ⟨t, ht, (hpart t).mp ⟨part, hmem, hleaves⟩⟩
  · rintro ⟨t, ht, hleaves⟩
    obtain ⟨part, hmem, hleaves⟩ := (hpart t).mpr hleaves
    exact ⟨part, ⟨t, ht, hmem⟩, hleaves⟩

theorem Leaving.early_inside
    (h : Leaving key (statement.all ts) (k.inside registry) k') :
    k'.earlyReturn = true ↔ ∃ t ∈ ts, t.LeavesEarly false := by
  have hinside : (k.inside registry).isWrapped = false := rfl
  have hiff := h.early
  rw [hinside, exists_mem_all_statement] at hiff
  simpa [Core.inside] using hiff

theorem function_leaving {k₁ k₂ : Core} {leaves leaves' : List Leaf}
    {params statements : List Node} (hkey : k₂.options.earlyReturnKey = key)
    (hspec : OrderlyFunction key spec) (hleaving : Leaving key (Place.value.all spec.params.defaults) k k₁)
    (hleaves : ∀ leaf ∈ leaves, LeafLeaving key (Place.value.all spec.params.defaults) k leaf)
    (hparams : BuiltAll leaves (Slot.expression.all params))
    (hleaving' : Leaving key (statement.all spec.body) (k₁.inside registry) k₂)
    (hleaves' : ∀ leaf ∈ leaves', LeafLeaving key (statement.all spec.body) (k₁.inside registry) leaf)
    (hstmts : BuiltAll leaves' (Slot.statement.all statements)) :
    Leaving key spec.parts k { k₁ with registry := k₂.registry } ∧
      LeafLeaving key spec.parts k (.function (spec.enclose params statements k₂)) := by
  refine ⟨⟨hleaving'.registry, ?_, fun h => absurd h (hspec.functions true)⟩, .none ?_ ?_⟩
  · have hearly := hleaving.early
    simp only [hspec.values, hspec.functions, or_false] at hearly ⊢
    exact hearly
  · refine enclose_caught hkey
      (fun n hn => (harmless_of_leaves hspec.values hleaves hparams n hn).2) ?_
    intro s hs hfinds
    obtain ⟨leaf, hleaf, hfinds⟩ :=
      (hstmts.finds_iff _).mp (findsAmong_all.mpr ⟨s, hs, hfinds⟩)
    exact hleaving'.early.mpr (.inr ((hleaves' leaf hleaf).uncaught hfinds))
  · exact outside_not_findsIn _ _

mutual

theorem Step.leaving (hs : LeavingSource key lower stored) {k k' : Core} {event : Event}
    {δ : Suspension} (h : Step lower stored k event δ k') (hkey : k.options.earlyReturnKey = key)
    (hk : k.registry.Harmless key) (hparts : ∀ part ∈ event.parts, part.Orderly key) :
    Leaving key event.parts k k' ∧ ∀ leaf ∈ event.leaves, LeafLeaving key event.parts k leaf := by
  match h with
  | .value hc hrun =>
    obtain ⟨hleaving, hleaf⟩ := lowerValue_leaving hs (everywhere_of_partAt hparts) hc hrun hkey hk
    simp only [Event.leaves, List.mem_singleton, forall_eq]
    exact ⟨hleaving, hleaf⟩
  | @Step.plain _ _ c _ place tree _ hplace _ hrun =>
    obtain ⟨hleaving, hleaves⟩ := hs.lowers tree (everywhere_of_partAt hparts) _ _ _ hrun hkey hk
    -- in a loop the statements are wrapped already
    have hiff (deep : Bool) (hdeep : place = .looped → deep = true) :
        (∃ part ∈ tree.parts, part.LeavesEarly deep) ↔
          ∃ part ∈ tree.partAt place, part.LeavesEarly deep := by
      rw [exists_mem_partAt, ← leavesEarly_iff]
      rcases hplace with rfl | ⟨rfl, -⟩
      · simp [isWrapped]
      · simp [isWrapped, hdeep]
    have hwrapped : place = .looped → c.core.isWrapped = true := by
      rintro rfl
      rcases hplace with h | h
      · cases h
      · exact decide_eq_true h.2
    refine ⟨hleaving.congr (hiff _ hwrapped) (hiff _ fun _ => rfl), ?_⟩
    simp only [Event.leaves, List.forall_mem_map, Option.mem_toList]
    exact fun n hn => (hleaves n hn).congr (hiff _ hwrapped) (hiff _ fun _ => rfl)
  | @Step.function _ _ k k₁ k₂ spec events events' _ _ targets params statements registry hrun hdefaults
      htargets hshaped hstores hrun' hbody hstmts =>
    have hspec : OrderlyFunction key spec :=
      .of_parts fun part hpart => hparts part (spec.functionParts_subset hpart)
    obtain ⟨hleaving, hleaves⟩ := hrun.leaving hs hkey hk (hdefaults ▸ hspec.defaults)
    rw [hdefaults] at hleaving hleaves
    have hreg : registry.Harmless key :=
      hleaving.registry.extend (harmless_of_leaves hspec.values hleaves htargets) hstores
    have hkey₁ : k₁.options.earlyReturnKey = key := by rw [(hrun.surroundings hs.transparent).1, hkey]
    have hkey₂ : k₂.options.earlyReturnKey = key := by
      rw [(hrun'.surroundings hs.transparent).1]
      exact hkey₁
    obtain ⟨hleaving', hleaves'⟩ := hrun'.leaving hs hkey₁ hreg (hbody ▸ hspec.body)
    rw [hbody] at hleaving' hleaves'
    simp only [Event.leaves, List.mem_singleton, forall_eq]
    exact function_leaving hkey₂ hspec hleaving hleaves hshaped hleaving' hleaves' hstmts
  | .stored hdefault =>
    obtain ⟨hreturns, huncaught⟩ := hs.stored _ hdefault
    simp only [Event.leaves, List.mem_singleton, forall_eq]
    exact ⟨.refl hk, .none huncaught hreturns⟩
  | .awaits =>
    simp only [Event.leaves, List.mem_singleton, forall_eq]
    exact ⟨.act hk Act.noConfusion, .none uncaught_not_awaits returns_not_awaits⟩
  | .yields =>
    simp only [Event.leaves, List.mem_singleton, forall_eq]
    exact ⟨.act hk Act.noConfusion, .none uncaught_not_yields returns_not_yields⟩
  | .returns (k := k) hwrapper hfun =>
    have hwrapped : k.isWrapped = false := by simp [Core.isWrapped, hwrapper]
    simp only [Event.leaves, List.mem_singleton, forall_eq]
    refine ⟨⟨hk, ?_, fun _ => hfun⟩, ?_⟩
    · simp [Event.parts, Part.LeavesEarly, hwrapped]
    · exact ⟨fun h => absurd h uncaught_ignores.returns, fun _ => ⟨hwrapper, _, .head _, rfl⟩⟩
  | .escapes (k := k) hwrapper hfun =>
    have hwrapped : k.isWrapped = true := by simp [Core.isWrapped, hwrapper]
    have hleaves : ∃ part ∈ [Part.act .leave], part.LeavesEarly k.isWrapped := ⟨_, .head _, hwrapped⟩
    simp only [Event.leaves, List.mem_singleton, forall_eq]
    refine ⟨⟨hk, ?_, fun _ => hfun⟩, fun _ => hleaves, ?_⟩
    · exact ⟨fun _ => .inr hleaves, fun _ => rfl⟩
    · exact fun h => absurd h (not_outside_marks Mark.noConfusion)
  | @Step.object _ _ _ args entries hkeys =>
    have hargs : (Part.act (.object args)).Orderly key := hparts _ (.head _)
    refine ⟨.act hk Act.noConfusion, ?_⟩
    simp only [Event.leaves, List.forall_mem_map]
    intro mark hmark
    obtain rfl : mark = .object entries := by
      cases entries with
      | nil => simp [NodeKind.marks] at hmark
      | cons entry rest => simpa [NodeKind.marks] using hmark
    refine .none ?_ (not_outside_marks Mark.noConfusion)
    rintro ⟨_, hmark, entry, hentry, name, value, shorthand, hkind, hname⟩
    cases hmark
    obtain ⟨arg, harg, hdirect⟩ := hkeys entry hentry name value shorthand hkind key hname
    exact hargs arg harg hdirect
  | .jumps => exact ⟨.act hk Act.noConfusion, List.forall_mem_nil _⟩

theorem Run.leaving (hs : LeavingSource key lower stored) {k k' : Core} {events : List Event}
    {δ : Suspension} (h : Run lower stored k events δ k') (hkey : k.options.earlyReturnKey = key)
    (hk : k.registry.Harmless key) (hparts : ∀ part ∈ events.flatMap Event.parts, part.Orderly key) :
    Leaving key (events.flatMap Event.parts) k k' ∧ ∀ leaf ∈ events.flatMap Event.leaves,
        LeafLeaving key (events.flatMap Event.parts) k leaf := by
  match h with
  | .nil => exact ⟨.refl hk, by simp⟩
  | @Run.cons _ _ k k₁ _ event _ _ _ hstep hrest =>
    rw [List.flatMap_cons, List.forall_mem_append] at hparts
    obtain ⟨hopts, hwrapper, hfun⟩ := hstep.surroundings hs.transparent
    have hwrapped : k₁.isWrapped = k.isWrapped := by rw [Core.isWrapped, Core.isWrapped, hwrapper]
    obtain ⟨hfirst, hleaves⟩ := hstep.leaving hs hkey hk hparts.1
    obtain ⟨hothers, hleaves'⟩ := hrest.leaving hs (hopts ▸ hkey) hfirst.registry hparts.2
    rw [List.flatMap_cons, List.flatMap_cons, List.forall_mem_append]
    refine ⟨hfirst.trans hothers hwrapper hfun, fun leaf hleaf => ?_, fun leaf hleaf => ?_⟩
    · exact (hleaves leaf hleaf).mono (List.subset_append_left _ _)
    · have hmono := (hleaves' leaf hleaf).mono (List.subset_append_right event.parts _)
      exact ⟨fun h => hwrapped ▸ hmono.uncaught h, fun h => hwrapper ▸ hmono.returns h⟩

end

theorem leavesEarly_of_isEnclosed {part : Part} (hpart : part.isEnclosed = true)
    (h : part.LeavesEarly true) : part.LeavesEarly deep := by
  cases part with
  | act act => cases hpart
  | tree place u =>
    refine h.imp_right fun h => ?_
    rw [h.1] at hpart
    cases hpart

theorem Composition.leaving (hl : Transparent lower) (hlower : ∀ t, LowersLeaving key t (lower t))
    {m : Lower (Option Node)} (hm : Composition lower t m) : LowersLeaving key t m := by
  intro ht c node d hrun hkey hc
  obtain ⟨deep, events, δ, hevents, -, hparts, hdeep, hnode⟩ := hm c node d hrun
  obtain ⟨hleaving, hleaves⟩ := hevents.leaving ⟨hl, hlower, hc⟩ (by simpa using hkey)
    (by simpa using hc) (hparts ▸ everywhere_iff.mp ht)
  rw [hparts] at hleaving hleaves
  -- a loop leaves the same functions inside of its wrapper as outside
  have hiff : (∃ part ∈ t.parts, part.LeavesEarly (c.core.deepen deep).isWrapped) ↔
      ∃ part ∈ t.parts, part.LeavesEarly c.core.isWrapped := by
    cases deep with
    | false => exact Iff.rfl
    | true =>
      have hpart {part : Part} {deep deep' : Bool} (hpart : part ∈ t.parts)
          (h : part.LeavesEarly deep) : part.LeavesEarly deep' :=
        leavesEarly_of_isEnclosed (hdeep rfl part hpart) h.deepen
      exact exists_congr fun _ => and_congr_right fun hmem => ⟨hpart hmem, hpart hmem⟩
  refine ⟨⟨by simpa using hleaving.registry, ?_, by simpa using hleaving.inside⟩, fun n hn => ?_⟩
  · have hearly := hleaving.early
    rw [hiff] at hearly
    simpa using hearly
  · cases hn
    constructor
    · intro hfinds
      obtain ⟨leaf, hleaf, hfinds⟩ := hnode.exists_leaf uncaught_not_awaits
        uncaught_not_yields (fun h => absurd h uncaught_ignores.returns) hfinds
      exact hiff.mp ((hleaves leaf hleaf).uncaught hfinds)
    · intro hfinds
      obtain ⟨leaf, hleaf, hfinds⟩ := hnode.exists_leaf returns_not_awaits
        returns_not_yields (fun _ _ => id) hfinds
      obtain ⟨hdepth, hreturns⟩ := (hleaves leaf hleaf).returns hfinds
      refine ⟨?_, hreturns⟩
      cases deep with
      | false => exact hdepth
      | true => simp [Core.deepen] at hdepth

theorem lower_leaving (key : String) (t : SExpr) : LowersLeaving key t (Lowering.lower t) := by
  refine lower_induction (N := LowersLeaving key) (fun t e _ c _ d hrun => ?_) ?_ t
  · cases hrun
  · exact fun _ hl hlower t m hm => hm.leaving hl hlower

end LispLowering
