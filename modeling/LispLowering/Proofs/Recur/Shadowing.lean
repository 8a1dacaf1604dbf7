import LispLowering.Proofs.Recur.Exactness

/-!
# Jumps that reach the variables of their loop
-/

namespace LispLowering

open Lowering Node List

instance (names : List String) (node : Node) : Decidable (node.DeclaresNone names) :=
  inferInstanceAs (Decidable (∀ name ∈ node.declaredNames, name ∉ names))

theorem Node.declaresNone_of_nil {names : List String} {node : Node} (h : node.declaredNames = []) :
    node.DeclaresNone names := by
  simp [DeclaresNone, h]

namespace Lowering

variable {n : Nat} {names : List String} {params body : List Node} {node : Node} {p : Option Position}

theorem unshadowed_of_exposed (h : node.Exposed n names) : node.Unshadowed n names := by
  refine h.imp fun m hm => ?_
  obtain ⟨kind, p⟩ := m
  cases kind with
  | block body => exact fun hjump => hm.1 fun hlacks => hjump (countIn_of_lacks hlacks)
  | _ => trivial

theorem exposed_of_contents {nodes : List Node} (h : ∀ node ∈ nodes, ∀ m ∈ node.contents,
    ∀ statement ∈ m.kind.children, statement.DeclaresNone names) : ExposedIn n names nodes := by
  refine everyIn_iff.mpr fun node hnode => every_iff.mpr fun m hm => ?_
  have hchildren := h node hnode m hm
  obtain ⟨kind, p⟩ := m
  cases kind with
  | block body => exact fun _ => hchildren
  | _ => trivial

/-! ## Jumps in the place of calls -/

section Jump

variable (hparams : UnshadowedIn n names params)

include hparams

theorem assignable_unshadowed : UnshadowedIn n names (params.map assignable) := by
  refine allIn_iff.mpr fun _ htarget => ?_
  obtain ⟨param, hparam, rfl⟩ := mem_map.mp htarget
  unfold assignable
  split
  · exact ⟨trivial, trivial⟩
  · exact allIn_iff.mp hparams param hparam

theorem jumpTo_unshadowed {values : List Node} (hvalues : UnshadowedIn n names values) :
    (jumpTo (loopLabel n) params values p).Unshadowed n names := by
  have htargets := assignable_unshadowed hparams
  have hrebinding : UnshadowedIn n names (rebinding params values p) ∧
      ∀ statement ∈ rebinding params values p, statement.declaredNames = [] := by
    have hslots : foldSlots false True And (fun m => m.kind.Unshadowed (loopLabel n) names)
        ((params.map assignable).map some) := by rwa [foldSlots_map_some]
    unfold rebinding
    split
    · exact ⟨trivial, by simp⟩
    · next htarget =>
      rw [htarget] at htargets
      exact ⟨⟨⟨trivial, trivial, htargets.1, hvalues.1⟩, trivial⟩, forall_mem_singleton.mpr rfl⟩
    · exact ⟨⟨⟨trivial, trivial, ⟨trivial, hslots⟩, trivial, hvalues⟩, trivial⟩,
        forall_mem_singleton.mpr rfl⟩
  obtain ⟨hassignment, hnone⟩ := hrebinding
  refine ⟨fun _ => ?_, allIn_append.mpr ⟨hassignment, ⟨trivial, trivial⟩, trivial⟩⟩
  exact forall_mem_append.mpr ⟨fun statement hmem => declaresNone_of_nil (hnone statement hmem),
    forall_mem_singleton.mpr (declaresNone_of_nil rfl)⟩

theorem returnOrJump_unshadowed : (value : Node) → (p : Option Position) → value.Unshadowed n names →
    (returnOrJump (loopLabel n) params p value).Unshadowed n names
  | ⟨kind, q⟩, p, h => by
    have hreturn : Unshadowed n names ⟨.returnStatement (some ⟨kind, q⟩), p⟩ := ⟨trivial, h⟩
    cases kind with
    | call callee arguments optional =>
      unfold returnOrJump
      split
      · exact jumpTo_unshadowed hparams h.2.2
      · exact hreturn
    | conditional test consequent alternate =>
      unfold returnOrJump
      split
      · exact hreturn
      · exact ⟨trivial, h.2.1, returnOrJump_unshadowed consequent _ h.2.2.1,
          returnOrJump_unshadowed alternate _ h.2.2.2⟩
    | _ => exact hreturn

end Jump

mutual

theorem withJumps_unshadowed (hparams : UnshadowedIn n names params) :
    (node : Node) → node.Exposed n names → (withJumps (loopLabel n) params node).Unshadowed n names
  | ⟨kind, p⟩, h => by
    have hsame := unshadowed_of_exposed h
    cases kind with
    | returnStatement value =>
      cases value with
      | none => exact hsame
      | some value => exact returnOrJump_unshadowed hparams value p hsame.2
    | ifStatement test consequent alternate =>
      exact ⟨trivial, hsame.2.1, withJumps_unshadowed hparams consequent h.2.2.1,
        optionWithJumps_unshadowed hparams alternate h.2.2.2⟩
    | block body =>
      refine ⟨fun hjump => ?_, bodyWithJumps_unshadowed hparams body h.2⟩
      refine forall_mem_bodyWithJumps.mpr (h.1 fun hlacks => hjump ?_)
      rw [(bodyWithJumps_of_lacks body hlacks).1, countIn_of_lacks hlacks]
    | labeled name body => exact ⟨trivial, withJumps_unshadowed hparams body h.2⟩
    | switchStatement discriminant cases =>
      exact ⟨trivial, hsame.2.1, bodyWithJumps_unshadowed hparams cases h.2.2⟩
    | switchCase test consequent =>
      exact ⟨trivial, hsame.2.1, bodyWithJumps_unshadowed hparams consequent h.2.2⟩
    | _ => exact hsame

theorem bodyWithJumps_unshadowed (hparams : UnshadowedIn n names params) :
    (body : List Node) → ExposedIn n names body →
    UnshadowedIn n names (bodyWithJumps (loopLabel n) params body)
  | [], _ => trivial
  | node :: rest, h => ⟨withJumps_unshadowed hparams node h.1, bodyWithJumps_unshadowed hparams rest h.2⟩

theorem optionWithJumps_unshadowed (hparams : UnshadowedIn n names params) : (branch : Option Node) →
    EveryOption false (fun m => m.kind.Exposes (loopLabel n) names) branch →
    EveryOption false (fun m => m.kind.Unshadowed (loopLabel n) names)
      (optionWithJumps (loopLabel n) params branch)
  | none, _ => trivial
  | some node, h => withJumps_unshadowed hparams node h

end

theorem closedBody_unshadowed :
    (block (closedBody p body)).Unshadowed n names ↔ (block body).Unshadowed n names := by
  unfold closedBody
  split
  · exact Iff.rfl
  · have hreturn : LackIn (loopLabel n) [⟨.returnStatement none, p⟩] := ⟨⟨trivial, trivial⟩, trivial⟩
    have hcount : countIn (NodeKind.isJumpTo (loopLabel n)) (body ++ [⟨.returnStatement none, p⟩]) =
        countIn (NodeKind.isJumpTo (loopLabel n)) body := by
      rw [countIn_append, countIn_of_lacks hreturn, Nat.add_zero]
    constructor
    · intro h
      exact ⟨fun hjump => (forall_mem_append.mp (h.1 (hcount ▸ hjump))).1, (allIn_append.mp h.2).1⟩
    · intro h
      refine ⟨fun hjump => ?_, allIn_append.mpr ⟨h.2, ⟨trivial, trivial⟩, trivial⟩⟩
      exact forall_mem_append.mpr ⟨h.1 (hcount ▸ hjump),
        forall_mem_singleton.mpr (declaresNone_of_nil rfl)⟩

/-! ## Loops -/

def LoweredLoop.variableNames (parts : LoweredLoop) : List String := parts.params.flatMap boundNames

/-- No block in the body and the variables that has the label inside declares a variable of the loop. -/
def LoweredLoop.Exposed (parts : LoweredLoop) (label : String) : Prop :=
  AllIn (NodeKind.Exposes label parts.variableNames) (block parts.body :: parts.params)

/-- No block of a round with a jump in it declares a variable of the loop. -/
def LoweredLoop.Reached (parts : LoweredLoop) (label : String) (p : Option Position) : Prop :=
  (block (parts.rounds label p)).All (NodeKind.Unshadowed label parts.variableNames)

theorem LoweredLoop.Exposed.reached {parts : LoweredLoop} (h : parts.Exposed (loopLabel n)) :
    parts.Reached (loopLabel n) p := by
  have hparams : UnshadowedIn n parts.variableNames parts.params :=
    allIn_iff.mpr fun param hparam => unshadowed_of_exposed (allIn_iff.mp h.2 param hparam)
  exact closedBody_unshadowed.mpr (withJumps_unshadowed hparams (block parts.body) h.1)

theorem LoweredLoop.Reached.exposed {parts : LoweredLoop} (h : parts.Reached (loopLabel n) p)
    (hparams : LackIn (loopLabel n) parts.params) (hbody : Settles n parts.params parts.body) :
    parts.Exposed (loopLabel n) :=
  ⟨((hbody.block none).exposes _ ⟨closedBody_unshadowed.mp h, trivial⟩).1, exposedIn_of_lacks hparams⟩

end Lowering

/-- A loop that is lowered becomes a loop around its rounds, which are its body with jumps in the place of
calls. If no block in the body and the variables that has the label inside declares a variable of the loop,
then no block of a round declares one of them around a jump, neither the block of the round nor that of the
jump itself, so the jump assigns to the variables in front of the loop. If nothing else gives the label, the
converse holds as well. -/
theorem jumps_reach_variables {form : Form} {c d : Context} {node : Node}
    (h : lowerLoop lower form c = .ok node d) : ∃ parts suspension, LoopOf form c parts suspension d ∧
      node = parts.node (loopLabel c.nextFresh) form.position suspension ∧
      (parts.Exposed (loopLabel c.nextFresh) → parts.Reached (loopLabel c.nextFresh) form.position) ∧
      (c.Unclaimed → SExpr.AvoidIn (loopLabel c.nextFresh) form.args →
        parts.Reached (loopLabel c.nextFresh) form.position → parts.Exposed (loopLabel c.nextFresh)) := by
  obtain ⟨parts, suspension, hparts, rfl, hall⟩ := loopOf_lowered h
  refine ⟨parts, suspension, hparts, rfl, LoweredLoop.Exposed.reached, fun hc hargs hreached => ?_⟩
  obtain ⟨hvars, -, hsettles⟩ := loopOf_settles hc hargs hparts
  exact hreached.exposed (lackIn_params hvars) (hsettles hall)

/-- A loop with a binding list and a statement in front of its `recur`. -/
def plainLoop : Form :=
  loopForm [.list [.symbol "i" none, .symbol "x" none] none,
    .list [.symbol "let" none, .list [.symbol "k" none, .symbol "i" none] none, .list [.symbol "g" none] none,
      .list [.symbol "recur" none, .symbol "k" none] none] none]

/-- The local variable `k` does not come between the jump and the variable `i`. -/
theorem jumps_reach_variables_plain : ∃ (parts : LoweredLoop) (suspension : Suspension) (d : Context),
    lowerLoop lower plainLoop (Context.start "" {}) = .ok (parts.node "loop_0" none suspension) d ∧
    parts.variableNames = ["i"] ∧
    countIn (NodeKind.isJumpTo "loop_0") (parts.rounds "loop_0" none) = 1 ∧
    parts.Reached "loop_0" none := by
  have hrun : lowerLoop lower plainLoop (Context.start "" {}) = .ok _ _ := rfl
  obtain ⟨parts, suspension, ⟨bindings, body, pairs, hargs, hpairs, hparts⟩, -, hjumps, -⟩ :=
    jumps_reach_variables hrun
  cases hargs
  cases hpairs
  cases hparts
  exact ⟨_, _, _, rfl, rfl, by decide +kernel, hjumps (exposed_of_contents (by decide +kernel))⟩

/-- A loop whose `recur` stands in a binding list with the name of the variable. -/
def shadowingLoop : Form :=
  loopForm [.list [.symbol "i" none, .symbol "x" none] none,
    .list [.symbol "let" none, .list [.symbol "i" none, .symbol "y" none] none,
      .list [.symbol "recur" none, .symbol "i" none] none] none]

/-- The block of the binding list declares the variable around the jump, so the jump assigns to it. -/
theorem jump_assigns_local : ∃ parts suspension d,
    LoopOf shadowingLoop (Context.start "" {}) parts suspension d ∧
      lowerLoop lower shadowingLoop (Context.start "" {}) = .ok (parts.node "loop_0" none suspension) d ∧
      parts.variableNames = ["i"] ∧
      ¬(block (parts.rounds "loop_0" none)).All (NodeKind.Unshadowed "loop_0" ["i"]) := by
  refine ⟨_, _, _, ⟨_, _, _, rfl, rfl, rfl⟩, rfl, rfl, fun h => ?_⟩
  exact h.2.1.1 (by decide +kernel) _ (.head _) "i" (by decide +kernel) (by decide)

end LispLowering
