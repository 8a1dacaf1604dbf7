import LispLowering.Proofs.EarlyReturn.Events

/-!
# Early return is complete
-/

namespace LispLowering

open Lowering

variable {key : String} {t u : SExpr}

/-! ## Functions and programs -/

theorem lower_leavingSource {c : Context} (hc : c.registry.Harmless key) :
    LeavingSource key Lowering.lower c.registry.Stores :=
  ⟨lower_transparent, lower_leaving key, hc⟩

/-- How a function is built in a state: its parameters are lowered, then its body. Its statements are
put into a `try` statement that catches marked objects exactly if one of them leaves the function
early. -/
def CatchesExactly (key : String) (spec : FunctionSpec) (c : Context) (f : Function) : Prop :=
  ∃ params c₁ body leftEarly c₂, spec.lowerParams Lowering.lower c = .ok params c₁ ∧
    c₁.registry.Harmless key ∧ spec.lowerInside Lowering.lower params c₁ = .ok (body, leftEarly) c₂ ∧
    (((∃ t ∈ spec.body, t.LeavesEarly false) ∧ f.body = [escapeTry key spec.position body]) ∨
      ((¬∃ t ∈ spec.body, t.LeavesEarly false) ∧ f.body = body))

section

variable {spec : FunctionSpec} {c d : Context} {f : Function}
  (hparts : ∀ part ∈ functionParts spec.params spec.body, part.Orderly key)
  (hkey : c.options.earlyReturnKey = key) (hc : c.registry.Harmless key)
  (h : buildFunction Lowering.lower spec c = .ok f d)

include hparts hkey hc h

theorem buildFunction_catches : CatchesExactly key spec c f := by
  have hs := lower_leavingSource hc
  rw [buildFunction_eq] at h
  obtain ⟨params, c₁, hparams, h⟩ := bind_ok h
  obtain ⟨⟨body, leftEarly⟩, c₂, hinside, h⟩ := bind_ok h
  obtain ⟨_, _, hget, h⟩ := bind_ok h
  cases hget
  obtain ⟨rfl, rfl⟩ := pure_ok h
  have hspec : OrderlyFunction key spec := .of_parts hparts
  obtain ⟨c₀, registry, _, targets, events, δ, hrun, -, hdefaults, htargets, -, rfl, hstores⟩ :=
    lowerParams_ok (P := .self) c.registry.Stores (fun _ _ => trivial) lower_transparent hparams
  obtain ⟨hleaving, hleaves⟩ := hrun.leaving hs hkey hc (hdefaults ▸ hspec.defaults)
  rw [hdefaults] at hleaving hleaves
  have hreg : registry.Harmless key :=
    hleaving.registry.extend (harmless_of_leaves hspec.values hleaves htargets) hstores
  obtain ⟨k, events', δ', statements, hrun', hbody, -, -, hleft, -, hcore, -⟩ :=
    lowerInside_ok c.registry.Stores lower_transparent hinside
  have hopts : c₀.options = c.options := (hrun.surroundings lower_transparent).1
  have hopts' : d.options = c₀.options := congrArg Core.options hcore
  obtain ⟨hleaving', -⟩ := hrun'.leaving hs (hopts ▸ hkey) hreg (hbody ▸ hspec.body)
  rw [hbody] at hleaving'
  have hearly : leftEarly = true ↔ ∃ t ∈ spec.body, t.LeavesEarly false :=
    hleft ▸ hleaving'.early_inside
  refine ⟨params, _, body, leftEarly, d, hparams, hreg, hinside, ?_⟩
  cases leftEarly with
  | true => exact .inl ⟨hearly.mp rfl, by rw [hopts', hopts, hkey]; rfl⟩
  | false => exact .inr ⟨fun h => Bool.false_ne_true (hearly.mpr h), rfl⟩

theorem buildFunction_uncaught : ¬(Scan.uncaught key).FindsIn f := by
  have hs := lower_leavingSource hc
  have hmakes : Makes Lowering.lower c.registry.Stores _ _ _ :=
    Makes.function (P := .self) spec (fun _ _ => trivial) lower_transparent
  obtain ⟨events, δ, hrun, -, hevents, hleaves⟩ := hmakes c f d h
  have horderly : ∀ part ∈ spec.parts, part.Orderly key := by
    intro part hpart
    rcases FunctionSpec.mem_parts hpart with hpart | ⟨_, rfl⟩
    · exact hparts part hpart
    · exact trivial
  obtain ⟨-, hleaf⟩ := hrun.leaving hs hkey hc (hevents ▸ horderly)
  rw [hevents, hleaves] at hleaf
  intro hfinds
  exact (OrderlyFunction.of_parts hparts).functions _ ((hleaf (.function f) (by simp)).uncaught hfinds)

end

theorem lowerTopLevel_leaving (ht : t.Orderly key) {node : Node}
    (h : lowerTopLevel t c = .ok node d) (hkey : c.options.earlyReturnKey = key)
    (hc : c.registry.Harmless key) (hfun : c.functionDepth = 0) :
    d.registry.Harmless key ∧ ¬(Scan.uncaught key).Finds node := by
  obtain ⟨lowered, hrun, rfl⟩ := map_ok h
  obtain ⟨hleaving, hleaves⟩ := lower_leaving key t ht c lowered d hrun hkey hc
  refine ⟨hleaving.registry, fun hfinds => ?_⟩
  have hstmt : Built [.node (lowered.getD (Node.null.place t.position))] .statement
      (lowered.getD (Node.null.place t.position)).asStatement := Built.asStatement (.node _)
  rw [hstmt.finds_iff] at hfinds
  simp only [List.mem_singleton, exists_eq_left] at hfinds
  cases lowered with
  | none =>
    have hnull : Built [] .expression (Node.null.place t.position) := .hold rfl .nil
    simp [Scan.FindsAt, hnull.finds_iff] at hfinds
  | some n =>
    obtain ⟨part, hpart, hearly⟩ := (hleaves n rfl).uncaught hfinds
    exact hleaving.inside ⟨part, hpart, hearly.deepen⟩ hfun

theorem lowerProgram_leaving {forms : List SExpr} (hforms : ∀ t ∈ forms, t.Orderly key)
    {body : List Node} (h : Lower.each lowerTopLevel forms c = .ok body d)
    (hkey : c.options.earlyReturnKey = key) (hc : c.registry.Harmless key)
    (hfun : c.functionDepth = 0) : ∀ s ∈ body, ¬(Scan.uncaught key).Finds s := by
  induction forms generalizing c body with
  | nil =>
    obtain ⟨rfl, rfl⟩ := pure_ok h
    simp
  | cons form rest ih =>
    rw [List.forall_mem_cons] at hforms
    obtain ⟨first, c', hfirst, h⟩ := bind_ok h
    obtain ⟨others, hothers, rfl⟩ := map_ok h
    have hevolves := (lowerTopLevel_agree .full (.full _ _) trivial).evolves hfirst
    obtain ⟨hc', hcaught⟩ := lowerTopLevel_leaving hforms.1 hfirst hkey hc hfun
    exact List.forall_mem_cons.mpr ⟨hcaught, ih hforms.2 hothers (hevolves.options ▸ hkey) hc'
      (hevolves.functionDepth.trans hfun)⟩

/-- The tree occurs in one of the forms, in a place where it is lowered. -/
def Occurs (forms : List SExpr) (t : SExpr) : Prop := ∃ form ∈ forms, form.Below t

/-- Early return is complete, for every program without a `return` in a default of a parameter and
without the key in a map.

* A tree that is lowered inside of a wrapper or outside of every function gives a node without a
  `return` statement outside of the functions in it. So the `return` statements of a wrapper return its
  own value.
* A function is made to catch marked objects exactly if a `return` of its own is lowered inside of a
  wrapper, and it lets no marked object out.
* In the lowered program every marked object is inside of a function that catches it.

The defaults of declared functions are used in later calls. They hold nothing harmful at first, and
lowering keeps them so. -/
theorem early_return_complete (directory : String) (options : Options) (forms : List SExpr)
    (horderly : ∀ t ∈ forms, t.Orderly options.earlyReturnKey) :
    let key := options.earlyReturnKey
    let start := Context.start directory options
    start.registry.Harmless key ∧
    (∀ t, Occurs forms t → ∀ c node d, c.options = options → c.registry.Harmless key →
      Lowering.lower t c = .ok node d → d.registry.Harmless key ∧
        (0 < c.wrapperDepth ∨ c.functionDepth = 0 → ∀ n ∈ node, ¬Scan.returns.Finds n)) ∧
    (∀ t, Occurs forms t → ∀ spec, functionParts spec.params spec.body ⊆ t.parts → ∀ c f d,
      c.options = options → c.registry.Harmless key → buildFunction Lowering.lower spec c = .ok f d →
        CatchesExactly key spec c f ∧ ¬(Scan.uncaught key).FindsIn f) ∧
    ∀ program d, lowerProgram forms start = .ok program d →
      ∀ s ∈ program.body, ¬(Scan.uncaught key).Finds s := by
  intro key start
  have hoccurs {t : SExpr} (h : Occurs forms t) : t.Orderly key := by
    obtain ⟨form, hform, hbelow⟩ := h
    exact (horderly form hform).below hbelow
  have hstart : start.registry.Harmless key := by
    rintro default ⟨name, entry, index, hentry, -⟩
    cases hentry
  refine ⟨hstart, ?_, ?_, ?_⟩
  · intro t ht c node d hopts hc hrun
    obtain ⟨hleaving, hleaves⟩ := lower_leaving key t (hoccurs ht) c node d hrun (hopts ▸ rfl) hc
    refine ⟨hleaving.registry, fun hplace n hn hfinds => ?_⟩
    obtain ⟨hwrapper, hreturns⟩ := (hleaves n hn).returns hfinds
    rcases hplace with hwrapped | hfun
    · exact Nat.ne_of_gt hwrapped hwrapper
    · exact hleaving.inside hreturns hfun
  · intro t ht spec hspec c f d hopts hc hrun
    have hparts : ∀ part ∈ functionParts spec.params spec.body, part.Orderly key :=
      fun part hpart => SExpr.everywhere_iff.mp (hoccurs ht) part (hspec hpart)
    exact ⟨buildFunction_catches hparts (hopts ▸ rfl) hc hrun,
      buildFunction_uncaught hparts (hopts ▸ rfl) hc hrun⟩
  · intro program d hrun
    obtain ⟨body, hbody, rfl⟩ := map_ok hrun
    exact lowerProgram_leaving horderly hbody rfl hstart rfl

def returnForm : SExpr := .list [.symbol "return" none, .symbol "x" none] none

def returnInCall : SExpr := .list [.symbol "g" none, returnForm] none

/-- A function that is left from within a call. -/
def leavingFunction : SExpr :=
  .list [.symbol "fn" none, .symbol "f" none, .list [.symbol "vector" none, .symbol "x" none] none,
    returnInCall] none

theorem returnForm_orderly (key : String) : returnForm.Orderly key := by
  refine SExpr.everywhere_iff.mpr ?_
  show ∀ part ∈ [Part.act .leave], part.Orderly key
  simp [Part.Everywhere, Part.IsOrderly]

theorem returnInCall_orderly (key : String) : returnInCall.Orderly key := by
  refine SExpr.everywhere_iff.mpr ?_
  show ∀ part ∈ [Part.tree .value returnForm], part.Orderly key
  simp [Part.Everywhere, Part.IsOrderly, returnForm_orderly]

theorem leavingFunction_orderly (key : String) : leavingFunction.Orderly key := by
  refine SExpr.everywhere_iff.mpr ?_
  show ∀ part ∈ [Part.act (.declare _), Part.tree .inner returnInCall], part.Orderly key
  simp [Part.Everywhere, Part.IsOrderly, returnInCall_orderly]

def leavingSpec : FunctionSpec where
  name := some "f"
  params := ⟨[⟨.identifier "x" none, none, none⟩], false⟩
  body := [returnInCall]
  isDeclared := true
  position := none

/-- The program that declares the function is lowered. Inside of a wrapper the `return` gives no
`return` statement, and the function catches what is thrown instead. -/
theorem early_return_complete_call : (∀ t ∈ [leavingFunction], t.Orderly ({} : Options).earlyReturnKey) ∧
    (∃ node d, Lowering.lower (.list [.symbol "return" none, .symbol "x" none] none)
      { Context.start "" {} with functionDepth := 1, wrapperDepth := 1 } = .ok (some node) d ∧
        ¬Scan.returns.Finds node) ∧
    (∃ f d, buildFunction Lowering.lower leavingSpec (Context.start "" {}) = .ok f d ∧
      CatchesExactly ({} : Options).earlyReturnKey leavingSpec (Context.start "" {}) f) ∧
    ∃ program d, lowerProgram [leavingFunction] (Context.start "" {}) = .ok program d ∧
      ∀ s ∈ program.body, ¬(Scan.uncaught ({} : Options).earlyReturnKey).Finds s := by
  have horderly : ∀ t ∈ [leavingFunction], t.Orderly ({} : Options).earlyReturnKey := by
    simpa using leavingFunction_orderly _
  obtain ⟨hstart, hlower, hbuild, hprogram⟩ := early_return_complete "" {} [leavingFunction] horderly
  have hfun : Part.tree .inner returnInCall ∈ leavingFunction.parts := .tail _ (.head _)
  have hcall : Part.tree .value (.list [.symbol "return" none, .symbol "x" none] none) ∈
      returnInCall.parts := .head _
  have hreturn : Occurs [leavingFunction] (.list [.symbol "return" none, .symbol "x" none] none) :=
    ⟨leavingFunction, .head _, .part hfun (.part hcall (.refl _))⟩
  have hself : Occurs [leavingFunction] leavingFunction := ⟨leavingFunction, .head _, .refl _⟩
  refine ⟨horderly, ⟨_, _, rfl, ?_⟩, ⟨_, _, rfl, ?_⟩, _, _, rfl, hprogram _ _ rfl⟩
  · exact (hlower _ hreturn { Context.start "" {} with functionDepth := 1, wrapperDepth := 1 } _ _ rfl
      hstart rfl).2 (.inl Nat.one_pos) _ rfl
  · exact (hbuild leavingFunction hself leavingSpec (fun _ => .tail _) (Context.start "" {}) _ _ rfl hstart
      rfl).1

end LispLowering
