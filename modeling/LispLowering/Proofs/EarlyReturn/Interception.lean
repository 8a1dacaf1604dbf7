import LispLowering.Proofs.EarlyReturn.Completeness

/-!
# Interception of early returns
-/

namespace LispLowering

open Lowering SExpr Scan List

variable {lower : Lowerer} {stored : Node → Prop} {key : String} {deep : Bool} {t u : SExpr}
  {node : Node} {f : Function}
  {c : Context} {spec : FunctionSpec}

/-! ## Interception in the target -/

/-- A marked object that no function in the node catches is in the block of a `try` statement with a
handler. -/
inductive Intercepted (key : String) : Node → Prop where
  | guard {node block : Node} : node.kind.guarded? = some block → (uncaught key).Finds block →
      Intercepted key node
  | slot {node : Node} {held : Slot × Node} : held ∈ node.kind.slots → Intercepted key held.2 →
      Intercepted key node
  | param {node param : Node} {f : Function} : node.kind.definition? = some f → param ∈ f.params →
      Intercepted key param → Intercepted key node
  | body {node statement : Node} {f : Function} : node.kind.definition? = some f → ¬f.Catches key →
      statement ∈ f.body → Intercepted key statement → Intercepted key node

/-- A marked object of the function is intercepted, and the function does not catch it itself. -/
def InterceptedIn (key : String) (f : Function) : Prop :=
  (∃ param ∈ f.params, Intercepted key param) ∨ ¬f.Catches key ∧ ∃ s ∈ f.body, Intercepted key s

theorem NodeKind.mem_slots_of_guarded? {kind : NodeKind} {block : Node}
    (h : kind.guarded? = some block) : (.statement, block) ∈ kind.slots := by
  unfold NodeKind.guarded? at h
  split at h
  · cases h
    simp [NodeKind.slots]
  · cases h

theorem Intercepted.finds (h : Intercepted key node) : (uncaught key).Finds node := by
  induction h with
  | guard hguarded hfinds => exact .slot (NodeKind.mem_slots_of_guarded? hguarded) hfinds
  | slot hheld _ ih => exact .slot hheld ih
  | param hf hparam _ ih => exact .param hf trivial hparam ih
  | body hf hcatches hs _ ih => exact .body hf hcatches hs ih

def interception (key : String) : Search (Intercepted key) where
  marks := fun _ => False
  guards := (uncaught key).Finds
  within := InterceptedIn key
  iff := fun node => by
    constructor
    · intro h
      cases h with
      | guard hguarded hfinds => exact .inr (.inl ⟨_, hguarded, hfinds⟩)
      | slot hheld h => exact .inr (.inr (.inl ⟨_, hheld, h⟩))
      | param hf hparam h => exact .inr (.inr (.inr ⟨_, hf, .inl ⟨_, hparam, h⟩⟩))
      | body hf hcatches hs h => exact .inr (.inr (.inr ⟨_, hf, .inr ⟨hcatches, _, hs, h⟩⟩))
    · rintro (⟨_, -, h⟩ | ⟨_, hguarded, hfinds⟩ | ⟨_, hheld, h⟩ | ⟨f, hf, hin⟩)
      · exact h.elim
      · exact .guard hguarded hfinds
      · exact .slot hheld h
      · rcases hin with ⟨_, hparam, h⟩ | ⟨hcatches, _, hs, h⟩
        · exact .param hf hparam h
        · exact .body hf hcatches hs h

theorem interception_ignores : (interception key).Ignores where
  returns := id
  guards := fun _ block =>
    (uncaught key).search.finds_joined.trans (exists_mem_returning uncaught_ignores block)

theorem findsAt_of_interception {leaf : Leaf} (h : (interception key).At leaf) :
    (uncaught key).FindsAt leaf := by
  cases leaf with
  | value | node => exact Intercepted.finds h
  | function f =>
    rcases h with ⟨param, hparam, h⟩ | ⟨hcatches, s, hs, h⟩
    · exact .inl ⟨trivial, param, hparam, h.finds⟩
    · exact .inr ⟨hcatches, s, hs, h.finds⟩
  | mark mark => exact h.elim

theorem exists_mem_of_wrapping {body : List Node}
    (h : InterceptedIn key (wrapping body δ)) : ∃ s ∈ body, Intercepted key s := by
  rcases h with ⟨param, hparam, -⟩ | ⟨-, h⟩
  · cases hparam
  · exact h

/-! ## Traps in the source -/

/-- A `try` form in the tree guards a `return` that is lowered inside of a wrapper, where `deep` tells
whether the tree as a whole is. The bodies of functions in the tree do not count. -/
inductive SExpr.Traps : Bool → SExpr → Prop where
  | guard {deep : Bool} {t u : SExpr} {body : List SExpr} : t.guarded? = some body → u ∈ body →
      u.LeavesEarly deep → Traps deep t
  | wrapped {deep : Bool} {t u : SExpr} {place : Place} : .tree place u ∈ t.parts →
      place.isWrapped = true → Traps true u → Traps deep t
  | statement {deep : Bool} {t u : SExpr} : .tree .statement u ∈ t.parts → Traps deep u → Traps deep t

def Part.Traps (deep : Bool) : Part → Prop
  | .tree place u => (place.isWrapped = true ∧ u.Traps true) ∨ (place = .statement ∧ u.Traps deep)
  | .act _ => False

theorem SExpr.traps_iff : t.Traps deep ↔
    (∃ body ∈ t.guarded?, ∃ u ∈ body, u.LeavesEarly deep) ∨ ∃ part ∈ t.parts, part.Traps deep := by
  constructor
  · intro h
    cases h with
    | guard hguarded hu hleaves => exact .inl ⟨_, hguarded, _, hu, hleaves⟩
    | wrapped hpart hplace hu => exact .inr ⟨_, hpart, .inl ⟨hplace, hu⟩⟩
    | statement hpart hu => exact .inr ⟨_, hpart, .inr ⟨rfl, hu⟩⟩
  · rintro (⟨body, hguarded, u, hu, hleaves⟩ | ⟨part, hpart, htraps⟩)
    · exact .guard hguarded hu hleaves
    · cases part with
      | act act => exact htraps.elim
      | tree place u =>
        rcases htraps with ⟨hplace, hu⟩ | ⟨rfl, hu⟩
        · exact .wrapped hpart hplace hu
        · exact .statement hpart hu

theorem SExpr.not_traps_atom (h : t.items? = none) : ¬t.Traps deep := by
  rw [traps_iff, parts_atom h]
  cases t with
  | list items p => cases h
  | symbol | literal => simp [guarded?]

theorem exists_mem_partAt_traps {place : Place} (h : (Part.tree place t).Traps deep) :
    ∃ part ∈ t.partAt place, part.Traps deep := by
  have hatom (hitems : t.items? = none) : False :=
    h.elim (fun h => not_traps_atom hitems h.2) fun h => not_traps_atom hitems h.2
  cases t with
  | list items p => exact ⟨_, .head _, h⟩
  | symbol | literal => exact (hatom rfl).elim

theorem SExpr.all_subset_of_guarded? {body : List SExpr} (h : t.guarded? = some body) :
    Place.statement.all body ⊆ t.parts := by
  unfold guarded? at h
  split at h
  · next name q args p =>
    split at h
    · next special hmeaning =>
      rw [parts, script, namedScript, hmeaning]
      cases special with
      | trying =>
        simp only [SpecialForm.guarded?, guardedStatements?] at h
        split at h
        · cases h
          rw [← Script.parts_statements]
          exact subset_append_left _ _
        · cases h
      | _ => cases h
    · cases h
  · cases h

/-! ## Events -/

def LowersTrapping (key : String) (t : SExpr) (m : Lower (Option Node)) : Prop :=
  t.Orderly key → ∀ c node d, m c = .ok node d → c.options.earlyReturnKey = key →
    c.registry.Harmless key → ∀ n ∈ node, Intercepted key n → t.Traps c.core.isWrapped

/-- What the events of a form rest on. -/
structure TrappingSource (key : String) (lower : Lowerer) (stored : Node → Prop) : Prop
    extends LeavingSource key lower stored where
  traps : ∀ t, LowersTrapping key t (lower t)

section

variable (hs : TrappingSource key lower stored)

include hs

theorem lowerValue_trapping (ht : t.Orderly key) {d : Context} (hc : c.suspension = {})
    (h : lowerValue lower t c = .ok node d) (hkey : c.options.earlyReturnKey = key)
    (hharmless : c.registry.Harmless key) (hnode : Intercepted key node) : t.Traps true := by
  obtain ⟨c', d', lowered, δ, hrun, -, -, hcore, -, -, hlowered⟩ := lowerValue_ok hs.transparent hc h
  have hopts : c'.options = c.options := by simpa using congrArg Core.options hcore
  have hreg : c'.registry = c.registry := by simpa using congrArg Core.registry hcore
  cases lowered with
  | none =>
    obtain ⟨p, rfl⟩ := hlowered
    have hnull : Built [] .expression (Node.null.place p) := .hold rfl .nil
    simp [hnull.found_iff (interception key)] at hnode
  | some result =>
    have hresult : Intercepted key result := by
      subst hlowered
      rcases asExpression_cases result δ with ⟨-, hvalue⟩ | ⟨hvalue, -⟩
      · rw [hvalue] at hnode
        have hwithin := within_of_wrapped (S := interception key) id id hnode
        exact (exists_mem_returning interception_ignores result).mp (exists_mem_of_wrapping hwithin)
      · exact (hvalue _ (interception key)).mp hnode
    have htraps := hs.traps t ht c' _ d' hrun (hopts ▸ hkey) (hreg ▸ hharmless) result rfl hresult
    cases hitems : t.items? with
    | none => exact absurd htraps (not_traps_atom hitems)
    | some items =>
      rw [hcore, hitems] at htraps
      simpa [Core.isWrapped, Core.deepen] using htraps

variable {k k' : Core} {δ : Suspension} (hkey : k.options.earlyReturnKey = key)
  (hk : k.registry.Harmless key)

include hkey hk

theorem Step.trapping {event : Event} (h : Step lower stored k event δ k')
    (hparts : ∀ part ∈ event.parts, part.Orderly key) :
    ∀ leaf ∈ event.leaves, (interception key).At leaf →
      ∃ part ∈ event.parts, part.Traps k.isWrapped := by
  intro leaf hleaf hat
  obtain ⟨-, hleaves⟩ := h.leaving hs.toLeavingSource hkey hk hparts
  have huncaught := (hleaves leaf hleaf).uncaught (findsAt_of_interception hat)
  cases h with
  | value hc hrun =>
    cases mem_singleton.mp hleaf
    refine exists_mem_partAt_traps (.inl ⟨rfl, ?_⟩)
    exact lowerValue_trapping hs (everywhere_of_partAt hparts) hc hrun hkey hk hat
  | @plain c _ place tree node hplace _ hrun =>
    obtain ⟨n, hn, rfl⟩ := mem_map.mp hleaf
    have htraps := hs.traps tree (everywhere_of_partAt hparts) _ _ _ hrun hkey hk n
      (Option.mem_toList.mp hn) hat
    refine exists_mem_partAt_traps ?_
    rcases hplace with rfl | ⟨rfl, hdepth⟩
    · exact .inr ⟨rfl, htraps⟩
    · have hwrapped : c.core.isWrapped = true := decide_eq_true hdepth
      exact .inl ⟨rfl, hwrapped ▸ htraps⟩
  | @function _ _ _ spec =>
    have hspec : OrderlyFunction key spec :=
      .of_parts fun part hpart => hparts part (spec.functionParts_subset hpart)
    exact absurd huncaught (hspec.functions _)
  | stored hdefault =>
    obtain ⟨_, hpart, -⟩ := huncaught
    cases hpart
  | object =>
    obtain ⟨mark, -, rfl⟩ := mem_map.mp hleaf
    exact hat.elim
  | awaits | yields | returns | escapes =>
    cases mem_singleton.mp hleaf
    exact hat.elim
  | jumps => cases hleaf

theorem Run.trapping {events : List Event} (h : Run lower stored k events δ k')
    (hparts : ∀ part ∈ events.flatMap Event.parts, part.Orderly key) :
    ∀ leaf ∈ events.flatMap Event.leaves, (interception key).At leaf →
      ∃ part ∈ events.flatMap Event.parts, part.Traps k.isWrapped := by
  induction events generalizing k δ with
  | nil => simp
  | cons event rest ih =>
    cases h with
    | @cons _ k₁ _ _ _ _ _ hstep hrest =>
      simp only [flatMap_cons, forall_mem_append] at hparts
      obtain ⟨hopts, hwrapper, -⟩ := hstep.surroundings hs.transparent
      have hwrapped : k₁.isWrapped = k.isWrapped := by rw [Core.isWrapped, Core.isWrapped, hwrapper]
      obtain ⟨hleaving, -⟩ := hstep.leaving hs.toLeavingSource hkey hk hparts.1
      have hfirst := hstep.trapping hs hkey hk hparts.1
      have hothers := ih (hopts ▸ hkey) hleaving.registry hrest hparts.2
      rw [hwrapped] at hothers
      simp only [flatMap_cons, mem_append, or_and_right, exists_or]
      rintro leaf (hleaf | hleaf) hat
      · exact .inl (hfirst leaf hleaf hat)
      · exact .inr (hothers leaf hleaf hat)

end

theorem Guards.exists_leavesEarly (hs : LeavingSource key lower stored) {block : Node}
    (ht : t.Orderly key) (hkey : c.options.earlyReturnKey = key) (hc : c.registry.Harmless key)
    (h : Guards lower t.guarded? c block) (hfinds : (uncaught key).Finds block) :
    ∃ body, t.guarded? = some body ∧ ∃ u ∈ body, u.LeavesEarly c.core.isWrapped := by
  obtain ⟨body, hbody, statements, d, hrun, rfl⟩ := h
  have hmakes : Makes lower stored _ _ _ := lowerBody_makes hs.transparent body
  obtain ⟨events, δ, hevents, -, hparts, hbuilt⟩ := hmakes c statements d hrun
  have horderly : ∀ part ∈ Place.statement.all body, part.Orderly key := fun part hpart =>
    everywhere_iff.mp ht part (all_subset_of_guarded? hbody hpart)
  obtain ⟨-, hleaves⟩ := hevents.leaving hs hkey hc (hparts ▸ horderly)
  obtain ⟨leaf, hleaf, hfinds⟩ := (hbuilt.finds_iff _).mp
    (findsAmong_all.mpr ((uncaught key).search.finds_block.mp hfinds))
  have huncaught := (hleaves leaf hleaf).uncaught hfinds
  rw [hparts] at huncaught
  exact ⟨body, hbody, exists_mem_all_statement.mp huncaught⟩

theorem Composition.trapping (hl : Transparent lower)
    (hlower : ∀ t, LowersLeaving key t (lower t) ∧ LowersTrapping key t (lower t))
    {m : Lower (Option Node)} (hm : Composition lower t m) : LowersTrapping key t m := by
  intro ht c node d hrun hkey hc n hn hintercepted
  obtain ⟨deep, events, δ, hevents, -, hparts, hdeep, hnode⟩ := hm c node d hrun
  cases hn
  have hs : TrappingSource key lower c.registry.Stores :=
    ⟨⟨hl, fun t => (hlower t).1, hc⟩, fun t => (hlower t).2⟩
  rcases hnode.exists_found (S := interception key) id id
    (fun _ _ h => ⟨interception_ignores, exists_mem_of_wrapping h⟩) hintercepted with
    ⟨block, hguards, hfinds⟩ | ⟨leaf, hleaf, hat⟩
  · obtain ⟨body, hbody, u, hu, hleaves⟩ :=
      hguards.exists_leavesEarly hs.toLeavingSource ht hkey hc hfinds
    exact .guard hbody hu hleaves
  · obtain ⟨part, hpart, htraps⟩ := hevents.trapping hs (by simpa using hkey) (by simpa using hc)
      (hparts ▸ everywhere_iff.mp ht) leaf hleaf hat
    rw [hparts] at hpart
    refine traps_iff.mpr (.inr ⟨part, hpart, ?_⟩)
    cases deep with
    | false => exact htraps
    | true =>
      -- in a loop nothing depends on whether the loop is inside of a wrapper
      cases part with
      | act act => exact htraps.elim
      | tree place u =>
        refine htraps.imp_right fun h => ?_
        have henclosed := hdeep rfl _ hpart
        rw [h.1] at henclosed
        cases henclosed

theorem lower_trapping (key : String) (t : SExpr) : LowersTrapping key t (Lowering.lower t) := by
  refine (lower_induction (N := fun t m => LowersLeaving key t m ∧ LowersTrapping key t m)
    (fun t e => ⟨fun _ c _ d hrun => ?_, fun _ c _ d hrun => ?_⟩) ?_ t).2
  · cases hrun
  · cases hrun
  · exact fun _ hl hlower t m hm => ⟨hm.leaving hl fun t => (hlower t).1, hm.trapping hl hlower⟩

/-! ## Functions -/

theorem exists_leaf_of_returned {F : Node → Prop} {S : Search F} (hS : S.Ignores)
    {leaves : List Leaf} {statements : List Node} (h : BuiltAll leaves (Slot.statement.all statements))
    {s : Node} (hs : s ∈ spec.returned statements) (hfinds : F s) : ∃ leaf ∈ leaves, S.At leaf := by
  refine (h.found_iff S).mp (Slot.exists_mem_all.mpr ?_)
  unfold FunctionSpec.returned at hs
  split at hs
  · exact (exists_mem_returningAll hS statements).mp ⟨s, hs, hfinds⟩
  · exact ⟨s, hs, hfinds⟩

theorem lowerInside_trapping {d : Context} {params body : List Node}
    {leftEarly : Bool} (hspec : OrderlyFunction key spec) (hkey : c.options.earlyReturnKey = key)
    (hc : c.registry.Harmless key)
    (h : spec.lowerInside Lowering.lower params c = .ok (body, leftEarly) d) :
    ∀ s ∈ body, ((uncaught key).Finds s → ∃ t ∈ spec.body, t.LeavesEarly false) ∧
      (Intercepted key s → ∃ t ∈ spec.body, t.Traps false) := by
  obtain ⟨k, events, δ, statements, hrun, hbody, hbuilt, rfl, -⟩ :=
    lowerInside_ok c.registry.Stores lower_transparent h
  have hsource : TrappingSource key Lowering.lower c.registry.Stores :=
    ⟨lower_leavingSource hc, lower_trapping key⟩
  have hparts := hbody ▸ hspec.body
  obtain ⟨-, hleaves⟩ := hrun.leaving hsource.toLeavingSource hkey hc hparts
  have htraps := hrun.trapping hsource hkey hc hparts
  rw [hbody] at hleaves htraps
  refine fun s hs => ⟨fun hfinds => ?_, fun hintercepted => ?_⟩
  · obtain ⟨leaf, hleaf, hat⟩ := exists_leaf_of_returned uncaught_ignores hbuilt hs hfinds
    exact exists_mem_all_statement.mp
      ((hleaves leaf hleaf).uncaught (((uncaught key).search_at leaf).mp hat))
  · obtain ⟨leaf, hleaf, hat⟩ := exists_leaf_of_returned interception_ignores hbuilt hs hintercepted
    obtain ⟨part, hpart, htraps⟩ := htraps leaf hleaf hat
    obtain ⟨t, ht, rfl⟩ := Place.mem_all hpart
    exact ⟨t, ht, htraps.elim (fun h => Bool.noConfusion h.1) And.right⟩

/-- An early return is not intercepted, in every program without a `return` in a default of a parameter
and without the key in a map.

Take a function of the program in whose body no `try` form with a `catch` clause guards a `return` that is
lowered inside of a wrapper. If it is left early, its body is the one statement that catches marked
objects, and inside of it no marked object is in a block with another handler: whatever value, loop or
`try` form the `return` is nested in, the function catches what is thrown for it. If it is not left early,
no object is thrown to leave it.

As for the defaults of declared functions, they hold nothing harmful at first, and lowering keeps them
so. -/
theorem early_return_unintercepted (directory : String) (options : Options) (forms : List SExpr)
    (horderly : ∀ t ∈ forms, t.Orderly options.earlyReturnKey) :
    let key := options.earlyReturnKey
    (Context.start directory options).registry.Harmless key ∧
    (∀ t, Occurs forms t → ∀ c node d, c.options = options → c.registry.Harmless key →
      Lowering.lower t c = .ok node d → d.registry.Harmless key) ∧
    ∀ t, Occurs forms t → ∀ spec, functionParts spec.params spec.body ⊆ t.parts →
      (¬∃ u ∈ spec.body, u.Traps false) → ∀ c f d, c.options = options → c.registry.Harmless key →
        buildFunction Lowering.lower spec c = .ok f d → ((∃ u ∈ spec.body, u.LeavesEarly false) ∧
            ∃ body, f.body = [escapeTry key spec.position body] ∧ ∀ s ∈ body, ¬Intercepted key s) ∨
          ((¬∃ u ∈ spec.body, u.LeavesEarly false) ∧ ∀ s ∈ f.body, ¬(Scan.uncaught key).Finds s) := by
  intro key
  have hoccurs {t : SExpr} (h : Occurs forms t) : t.Orderly key := by
    obtain ⟨form, hform, hbelow⟩ := h
    exact (horderly form hform).below hbelow
  refine ⟨?_, ?_, ?_⟩
  · rintro default ⟨name, entry, index, hentry, -⟩
    cases hentry
  · intro t ht c node d hopts hc hrun
    exact (lower_leaving key t (hoccurs ht) c node d hrun (hopts ▸ rfl) hc).1.registry
  · intro t ht spec hspec htraps c f d hopts hc hrun
    have hparts : ∀ part ∈ functionParts spec.params spec.body, part.Orderly key :=
      fun part hpart => everywhere_iff.mp (hoccurs ht) part (hspec hpart)
    obtain ⟨params, c₁, body, leftEarly, c₂, hparams, hc₁, hinside, hbody⟩ :=
      buildFunction_catches hparts (hopts ▸ rfl) hc hrun
    obtain ⟨c₀, registry, declarations, _, _, _, hevents, -, -, -, -, rfl, -⟩ :=
      lowerParams_ok (P := .self) c.registry.Stores (fun _ _ => trivial) lower_transparent hparams
    have hkey : c₀.options.earlyReturnKey = key :=
      congrArg Options.earlyReturnKey ((hevents.surroundings lower_transparent).1.trans hopts)
    have hstmts := lowerInside_trapping (c := { c₀ with registry, declarations }) (.of_parts hparts)
      hkey hc₁ hinside
    rcases hbody with ⟨hearly, hbody⟩ | ⟨hearly, hbody⟩
    · exact .inl ⟨hearly, body, hbody, fun s hs h => htraps ((hstmts s hs).2 h)⟩
    · refine .inr ⟨hearly, fun s _ h => hearly ((hstmts s ?_).1 h)⟩
      rwa [← hbody]

def handling (body handler : SExpr) : SExpr :=
  .list [.symbol "try" none, body, .list [.symbol "catch" none, .symbol "e" none, handler] none] none

def handlingFunction (body : List SExpr) : SExpr :=
  .list (.symbol "fn" none :: .symbol "f" none :: .list [.symbol "vector" none] none :: body) none

def handlingSpec (body : List SExpr) : FunctionSpec where
  name := some "f"
  params := ⟨[], false⟩
  body := body
  isDeclared := true
  position := none

theorem handlingFunction_orderly {body handler : SExpr} (h : (handling body handler).Orderly key) :
    (handlingFunction [handling body handler]).Orderly key :=
  everywhere_iff.mpr (forall_mem_cons.mpr ⟨trivial, forall_mem_singleton.mpr ⟨trivial, h⟩⟩)

theorem returnForm_not_traps : ¬returnForm.Traps deep := by
  rw [traps_iff]
  show ¬((∃ body ∈ none, _) ∨ ∃ part ∈ [Part.act .leave], part.Traps deep)
  simp [Part.Traps]

theorem returnInCall_not_traps : ¬returnInCall.Traps deep := by
  rw [traps_iff]
  show ¬((∃ body ∈ none, _) ∨ ∃ part ∈ [Part.tree .value returnForm], part.Traps deep)
  simp [Part.Traps, returnForm_not_traps]

/-- A function is left directly from a guarded statement and from within a call in the handler. Nothing
that is thrown is intercepted. -/
theorem early_return_unintercepted_handler :
    let function := handlingFunction [handling returnForm returnInCall]
    let spec := handlingSpec [handling returnForm returnInCall]
    (∀ t ∈ [function], t.Orderly ({} : Options).earlyReturnKey) ∧ Occurs [function] function ∧
    functionParts spec.params spec.body ⊆ function.parts ∧ (¬∃ u ∈ spec.body, u.Traps false) ∧
    ∃ f d, buildFunction Lowering.lower spec (Context.start "" {}) = .ok f d ∧
      ∃ body, f.body = [escapeTry ({} : Options).earlyReturnKey none body] ∧
        ∀ s ∈ body, ¬Intercepted ({} : Options).earlyReturnKey s := by
  intro function spec
  have hparts : (handling returnForm returnInCall).parts =
    [.tree .statement returnForm, .tree .statement returnInCall] := rfl
  have horderly : ∀ t ∈ [function], t.Orderly ({} : Options).earlyReturnKey := by
    refine forall_mem_singleton.mpr (handlingFunction_orderly (everywhere_iff.mpr ?_))
    simp [hparts, Part.Everywhere, Part.IsOrderly, returnForm_orderly, returnInCall_orderly]
  have hself : Occurs [function] function := ⟨function, .head _, .refl _⟩
  have htraps : ¬∃ u ∈ spec.body, u.Traps false := by
    have hreturn : ¬returnForm.LeavesEarly false := by
      rw [leavesEarly_iff]
      show ¬∃ part ∈ [Part.act .leave], part.LeavesEarly false
      simp [Part.LeavesEarly]
    have hguarded : (handling returnForm returnInCall).guarded? = some [returnForm] := rfl
    simp [spec, handlingSpec, traps_iff (t := handling _ _), hparts, hguarded, hreturn,
      Part.Traps, returnForm_not_traps, returnInCall_not_traps]
  obtain ⟨hstart, -, hbuild⟩ := early_return_unintercepted "" {} [function] horderly
  refine ⟨horderly, hself, fun _ => .tail _, htraps, _, _, rfl, ?_⟩
  rcases hbuild function hself spec (fun _ => .tail _) htraps (Context.start "" {}) _ _ rfl hstart rfl with
    ⟨-, h⟩ | ⟨hearly, -⟩
  · exact h
  · refine absurd ⟨_, .head _, ?_⟩ hearly
    have hcall : Part.tree .value returnForm ∈ returnInCall.parts := .head _
    exact .statement (hparts ▸ (.tail _ (.head _)))
      (.wrapped hcall rfl (.leave (.head _)))

theorem finds_thrown (key : String) (value : Node) : (uncaught key).Finds
    (Node.wrapped [⟨.throwStatement ⟨.object (markerEntries key value none), none⟩, none⟩] {} none) := by
  refine finds_wrapped.mpr (.inl ⟨?_, _, .head _, ?_⟩)
  · rintro ⟨p, body, hbody⟩
    cases hbody
  · refine .slot (.head _) (.mark (.head _) ⟨_, rfl, ?_⟩)
    exact ⟨_, .head _, _, _, _, rfl, rfl⟩

def bareCall : SExpr := .list [.symbol "h" none] none

/-- A function with a `return` in the default of its parameter. -/
def defaultReturn : SExpr :=
  .list [.symbol "fn" none, .symbol "h" none,
    .list [.symbol "vector" none, .symbol "a" none, .symbol "=" none, returnInCall] none,
    .symbol "a" none] none

/-- A handler may come before the function: where a guarded statement has the `return` in a call, and where
a guarded call fills in a default with a `return`, though no statement traps it. -/
theorem early_return_intercepted :
    let trapping := handling returnInCall (.symbol "x" none)
    let filling := [defaultReturn, handling bareCall (.symbol "x" none)]
    let key := ({} : Options).earlyReturnKey
    (handlingFunction [trapping]).Orderly key ∧ (¬∃ u ∈ filling, u.Traps false) ∧
    ∀ statements ∈ [[trapping], filling], ∃ f d,
      buildFunction Lowering.lower (handlingSpec statements) (Context.start "" {}) = .ok f d ∧
        ∃ body, f.body = [escapeTry key none body] ∧ ∃ s ∈ body, Intercepted key s := by
  intro trapping filling key
  have hcall : ¬bareCall.LeavesEarly false ∧ ¬bareCall.Traps false := by
    rw [leavesEarly_iff, traps_iff]
    show (¬∃ part ∈ [], Part.LeavesEarly false part) ∧
      ¬((∃ body ∈ none, _) ∨ ∃ part ∈ [], Part.Traps false part)
    simp
  refine ⟨handlingFunction_orderly (everywhere_iff.mpr
    (forall_mem_singleton.mpr ⟨trivial, returnInCall_orderly _⟩)), ?_, ?_⟩
  · have hdefault : ¬defaultReturn.Traps false := by
      rw [traps_iff]
      show ¬((∃ body ∈ none, _) ∨
        ∃ part ∈ [Part.tree .default returnInCall, Part.act (.declare _)], part.Traps false)
      simp [Part.Traps, returnInCall_not_traps]
    have hhandling : ¬(handling bareCall (.symbol "x" none)).Traps false := by
      rw [traps_iff]
      show ¬((∃ body ∈ some [bareCall], ∃ u ∈ body, u.LeavesEarly false) ∨
        ∃ part ∈ [Part.tree .statement bareCall], part.Traps false)
      simp [Part.Traps, hcall, Place.isWrapped]
    simp [filling, hdefault, hhandling]
  · -- the call in the block passes what is thrown, in an argument of its own or of the default
    subst filling trapping key
    refine forall_mem_cons.mpr ⟨⟨_, _, rfl, _, catchEarlyReturn_eq _ none _, _, .head _, ?_⟩,
      forall_mem_singleton.mpr
        ⟨_, _, rfl, _, catchEarlyReturn_eq _ none _, _, .tail _ (.head _), ?_⟩⟩
    · refine .guard rfl (.slot (.head _) (.slot (.head _) ?_))
      exact .slot ((.tail _ (.head _))) (finds_thrown _ _)
    · refine .guard rfl (.slot (.head _) (.slot (.head _) ?_))
      refine .slot ((.tail _ (.head _))) ?_
      exact .slot ((.tail _ (.head _))) (finds_thrown _ _)

end LispLowering
