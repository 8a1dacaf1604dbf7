import LispLowering.Proofs.Recur.Shadowing

/-!
# The targets of jumps
-/

namespace LispLowering

open Lowering Node List NodeKind

/-- The shape is not a name with an annotation. -/
def NodeKind.Unannotated (kind : NodeKind) : Prop := ∀ name ascribed, kind ≠ .identifier name (some ascribed)

namespace Lowering

theorem boundNames_assignable (param : Node) : (assignable param).boundNames = param.boundNames := by
  obtain ⟨kind, p⟩ := param
  cases kind <;> rfl

theorem assignable_unannotated (param : Node) : (assignable param).All Unannotated ↔
    param.identifier?.isSome = true ∨ param.All Unannotated := by
  obtain ⟨kind, p⟩ := param
  cases kind with
  | identifier name ascribed =>
    have hname : (Node.ident name).All Unannotated := ⟨by simp [Unannotated], trivial⟩
    exact iff_of_true hname (.inl rfl)
  | _ => exact (or_iff_right Bool.false_ne_true).symm

theorem slotNames_some (nodes : List Node) : slotNames (nodes.map some) = nodes.flatMap boundNames := by
  induction nodes with
  | nil => rfl
  | cons node rest ih => rw [map_cons, slotNames, ih, flatMap_cons, optionNames]

theorem rebinding_target {params : List Node} (hparams : params ≠ []) (values : List Node)
    (p : Option Position) : ∃ target value,
      rebinding params values p = [⟨.expressionStatement ((Node.assign target value).place p), p⟩] ∧
      target.boundNames = params.flatMap boundNames ∧ (target.All Unannotated ↔
        ∀ param ∈ params, param.identifier?.isSome = true ∨ param.All Unannotated) := by
  have hnames : (params.map assignable).flatMap boundNames = params.flatMap boundNames := by
    rw [flatMap_map]
    simp only [boundNames_assignable]
  have htypes : AllIn Unannotated (params.map assignable) ↔
      ∀ param ∈ params, param.identifier?.isSome = true ∨ param.All Unannotated := by
    simp only [allIn_iff, forall_mem_map, assignable_unannotated]
  rw [← hnames, ← htypes]
  unfold rebinding
  split
  · next hnil => exact absurd (map_eq_nil_iff.mp hnil) hparams
  · next target value hone =>
    rw [hone]
    exact ⟨target, value, rfl, (append_nil _).symm, (and_iff_left trivial).symm⟩
  · refine ⟨_, _, rfl, slotNames_some _, ?_⟩
    change (_ ∧ foldSlots _ _ _ _ _) ↔ _
    rw [foldSlots_map_some]
    exact and_iff_right (by simp [Unannotated])

theorem lowerLoopVariables_declares {p : Option Position} {pairs : List SExpr} {c d : Context}
    {bindings : List LoopVariable} (h : lowerLoopVariables lower p pairs c = .ok bindings d) :
    ∀ binding ∈ bindings, binding.declaration.declaredNames = binding.target.boundNames := by
  induction pairs using lowerLoopVariables.induct generalizing c bindings with
  | case1 target value rest ih =>
    obtain ⟨id, _, -, h⟩ := bind_ok h
    obtain ⟨init, _, -, h⟩ := bind_ok h
    obtain ⟨_, _, -, h⟩ := bind_ok h
    obtain ⟨others, hothers, rfl⟩ := map_ok h
    exact forall_mem_cons.mpr ⟨append_nil _, ih hothers⟩
  | case2 _ hpairs =>
    rw [lowerLoopVariables] at h
    · obtain ⟨rfl, -⟩ := pure_ok h
      simp
    · exact hpairs

theorem LoopOf.declares {form : Form} {c d : Context} {parts : LoweredLoop} {suspension : Suspension}
    (h : LoopOf form c parts suspension d) :
    ∀ binding ∈ parts.bindings, binding.target.boundNames = binding.declaration.declaredNames := by
  obtain ⟨_, _, _, -, -, hrun⟩ := h
  obtain ⟨_, _, htracked, rfl, -⟩ := within_ok hrun
  obtain ⟨_, _, hlowered, hparts, -⟩ := within_ok htracked
  cases hparts
  obtain ⟨_, _, _, _, hvars, -⟩ := lowerLoopParts_ok hlowered
  exact fun binding hbinding => (lowerLoopVariables_declares hvars binding hbinding).symm

end Lowering

/-- Each jump of a loop that is lowered comes behind an assignment, if the loop has variables. For whatever values
the assignment is made, its target binds the names that are declared in front of the loop, in the same order.
Nothing in the target is annotated exactly if nothing is in the variables that are patterns. -/
theorem jump_targets {form : Form} {c d : Context} {node : Node} (h : lowerLoop lower form c = .ok node d) :
    ∃ parts suspension, LoopOf form c parts suspension d ∧
      node = parts.node (loopLabel c.nextFresh) form.position suspension ∧
      (c.Unclaimed → SExpr.AvoidIn (loopLabel c.nextFresh) form.args →
        node.All (Rebinds (loopLabel c.nextFresh) parts.params)) ∧
      (parts.params ≠ [] → ∀ values p, ∃ target value, rebinding parts.params values p =
          [⟨.expressionStatement ((Node.assign target value).place p), p⟩] ∧
        target.boundNames = parts.bindings.flatMap (·.declaration.declaredNames) ∧
        (target.All Unannotated ↔ ∀ param ∈ parts.params,
          param.identifier?.isSome = true ∨ param.All Unannotated)) := by
  obtain ⟨parts, suspension, hparts, rfl, hall⟩ := loopOf_lowered h
  refine ⟨parts, suspension, hparts, rfl, fun hc hargs => ?_, fun hne values p => ?_⟩
  · obtain ⟨hvars, -, hsettles⟩ := loopOf_settles hc hargs hparts
    exact (loopNode_settled hvars (hsettles hall) _ _).1.imp fun _ hm => hm.self.2
  · obtain ⟨target, value, hrebinding, hnames, htypes⟩ := rebinding_target hne values p
    refine ⟨target, value, hrebinding, hnames.trans ?_, htypes⟩
    rw [LoweredLoop.params, flatMap_map, flatMap_congr hparts.declares]

/-- A loop with one variable, which starts with `v` and is `v` in every round. -/
def steadyLoop (target : SExpr) : Form :=
  loopForm [.list [target, .symbol "v" none] none, .list [.symbol "recur" none, .symbol "v" none] none]

/-- The name is declared with its annotation and assigned to without it. -/
theorem jump_targets_name : ∃ node d ascribed target value,
    let form := steadyLoop (.symbol "x:T" none)
    let params : List Node := [⟨.identifier "x" (some ascribed), none⟩]
    lowerLoop lower form (Context.start "" {}) = .ok node d ∧ (Context.start "" {}).Unclaimed ∧
      SExpr.AvoidIn "loop_0" form.args ∧ node.All (Rebinds "loop_0" params) ∧
      rebinding params [.ident "v"] none =
        [⟨.expressionStatement ((Node.assign target value).place none), none⟩] ∧
      target.boundNames = ["x"] ∧ target.All Unannotated := by
  have hrun : lowerLoop lower (steadyLoop (.symbol "x:T" none)) (Context.start "" {}) = .ok _ _ := rfl
  have hstart : (Context.start "" {}).Unclaimed := start_unclaimed "" (by decide)
  have havoids : SExpr.AvoidIn "loop_0" (steadyLoop (.symbol "x:T" none)).args :=
    SExpr.avoidIn_of_spelled (by decide +kernel)
  obtain ⟨parts, suspension, ⟨bindings, body, pairs, hargs, hpairs, hparts⟩, -, hjumps, htargets⟩ :=
    jump_targets hrun
  have hrebinds := hjumps hstart havoids
  cases hargs
  cases hpairs
  cases hparts
  obtain ⟨target, value, hrebinding, hnames, htypes⟩ := htargets (cons_ne_nil _ _) [.ident "v"] none
  exact ⟨_, _, _, target, value, hrun, hstart, havoids, hrebinds, hrebinding, hnames,
    htypes.mpr (forall_mem_singleton.mpr (.inl rfl))⟩

/-- The name in the pattern is assigned to with its annotation. -/
theorem pattern_stays_annotated : ∃ parts suspension d ascribed,
    let form := steadyLoop (.list [.symbol "vector" none, .symbol "x:T" none] none)
    let target : Node := ⟨.arrayPattern [some ⟨.identifier "x" (some ascribed), none⟩], none⟩
    LoopOf form (Context.start "" {}) parts suspension d ∧
      lowerLoop lower form (Context.start "" {}) = .ok (parts.node "loop_0" none suspension) d ∧
      parts.rounds "loop_0" none = [Node.block [⟨.expressionStatement (Node.assign target (.ident "v")), none⟩,
        ⟨.continueStatement (some "loop_0"), none⟩], ⟨.returnStatement none, none⟩] ∧
      ¬target.All Unannotated := by
  refine ⟨_, _, _, _, ⟨_, _, _, rfl, rfl, rfl⟩, rfl, rfl, fun h => ?_⟩
  exact h.2.1.1 _ _ rfl

end LispLowering
