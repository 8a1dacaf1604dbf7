import LispLowering.Proofs.Locality
import LispLowering.Proofs.Recur.Jumps

/-!
# Every `recur` becomes one jump
-/

namespace LispLowering

open Lowering Node List NodeKind Nat LoopVariable

/-- Nothing in the state is called like the next loop: neither the helper for calls of numbers, nor
anything in a remembered default, nor a loop around, which has an earlier number. -/
structure Context.Unclaimed (c : Context) : Prop where
  helper : c.options.numericHelper ≠ loopLabel c.nextFresh
  registry : c.registry.Lacks c.nextFresh
  loops : ∀ frame ∈ c.loops, frame.label ≠ loopLabel c.nextFresh

namespace Lowering

/-! ## The parts of a loop -/

/-- What the variables and the body of a loop are lowered to with the next free label. -/
def LoopOf (form : Form) (c : Context) (parts : LoweredLoop) (suspension : Suspension)
    (d : Context) : Prop :=
  ∃ bindings body pairs, form.args = bindings :: body ∧ loopPairs form bindings c = .ok pairs c ∧
    Lower.inExpression (lowerLoopParts lower (loopLabel c.nextFresh) form.position pairs body)
      { c with nextFresh := c.nextFresh + 1 } = .ok (parts, suspension) d

def LoweredLoop.params (parts : LoweredLoop) : List Node := parts.bindings.map target

def LoweredLoop.rounds (parts : LoweredLoop) (label : String) (p : Option Position) : List Node :=
  closedBody p (bodyWithJumps label parts.params parts.body)

def LoweredLoop.node (parts : LoweredLoop) (label : String) (p : Option Position)
    (suspension : Suspension) : Node :=
  wrapped
    (loopStatements label p (parts.bindings.map declaration) (parts.rounds label p))
    suspension p

variable {form : Form} {c d : Context} {parts : LoweredLoop} {suspension : Suspension}

theorem loopPairs_ok {bindings : SExpr}
    (h : loopPairs form bindings c = .ok pairs d) : d = c := by
  unfold loopPairs at h
  split at h
  · cases h
  · exact (pure_ok h).2

theorem lowerLoop_of_parts (h : LoopOf form c parts suspension d) : lowerLoop lower form c =
      if bodyJumps (loopLabel c.nextFresh) parts.body ≠ parts.frame.recurs then
        .error (Fault.recurPosition.place (parts.frame.firstRecur.or form.position)) d
      else .ok (parts.node (loopLabel c.nextFresh) form.position suspension) d := by
  obtain ⟨bindings, body, pairs, hargs, hpairs, hparts⟩ := h
  have hfresh : Lower.fresh "loop" c = .ok (loopLabel c.nextFresh) { c with nextFresh := c.nextFresh + 1 } :=
    rfl
  unfold lowerLoop
  simp only [hargs, bind, EStateM.bind, hpairs, hfresh, hparts]
  split
  · rfl
  · rfl

theorem loopOf_lowered {node : Node} (h : lowerLoop lower form c = .ok node d) :
    ∃ parts suspension, LoopOf form c parts suspension d ∧
      node = parts.node (loopLabel c.nextFresh) form.position suspension ∧
      bodyJumps (loopLabel c.nextFresh) parts.body = parts.frame.recurs := by
  unfold lowerLoop at h
  cases hargs : form.args with
  | nil =>
    rw [hargs] at h
    cases h
  | cons bindings body =>
    rw [hargs] at h
    obtain ⟨pairs, e, hpairs, hrun⟩ := bind_ok h
    have hsame := loopPairs_ok hpairs
    subst hsame
    obtain ⟨label, _, hlabel, hrun⟩ := bind_ok hrun
    cases hlabel
    obtain ⟨⟨parts, suspension⟩, _, hparts, hrun⟩ := bind_ok hrun
    dsimp only at hrun
    split at hrun
    · cases hrun
    · next hall =>
      obtain ⟨rfl, rfl⟩ := pure_ok hrun
      exact ⟨parts, suspension, ⟨bindings, body, pairs, hargs, hpairs, hparts⟩, rfl, not_not.mp hall⟩

theorem lowerLoopParts_ok {label : String} {body : List SExpr}
    (h : lowerLoopParts lower label p pairs body c = .ok parts d) : ∃ statements e e' rest,
      lowerLoopVariables lower p pairs { c with scopes := [] :: c.scopes } = .ok parts.bindings e ∧
      lowerBody lower body { e with loops := { label, arity := parts.bindings.length } :: e.loops } =
        .ok statements e' ∧
      parts.body = returningAll statements ∧ e'.loops = parts.frame :: rest := by
  unfold lowerLoopParts at h
  obtain ⟨_, _, hrun, rfl, rfl⟩ := within_ok h
  obtain ⟨bindings, e, hbinds, hrun⟩ := bind_ok hrun
  obtain ⟨⟨body', frame⟩, e', hbody, hrun⟩ := bind_ok hrun
  obtain ⟨rfl, rfl⟩ := pure_ok hrun
  obtain ⟨_, _, hreturning, htop, rfl⟩ := inLoop_ok hbody
  obtain ⟨statements, hstmts, hreturned⟩ := map_ok hreturning
  exact ⟨statements, e, _, _, hbinds, hstmts, hreturned, htop⟩

/-! ## Bodies in which every `recur` is in tail position -/

/-- How many `recur` forms of a body jump to the loop that it belongs to. -/
def recursIn (body : List SExpr) : Nat := (body.map SExpr.recurs).sum

/-- How many of them are in tail position. -/
def tailRecursIn (body : List SExpr) : Nat := ((bodyTail body).map SExpr.tailRecurs).sum

theorem LoopOf.recurs_eq (h : LoopOf form c parts suspension d) :
    parts.frame.recurs = recursIn form.args.tail := by
  obtain ⟨bindings, body, pairs, hargs, -, hrun⟩ := h
  obtain ⟨_, _, htracked, rfl, -⟩ := within_ok hrun
  obtain ⟨_, _, hparts, heq, -⟩ := within_ok htracked
  cases heq
  obtain ⟨statements, e, e', rest, -, hbody, -, hframe⟩ := lowerLoopParts_ok hparts
  have hlogged := lowerBody_logs body
    { e with loops := { label := loopLabel c.nextFresh, arity := parts.bindings.length } :: e.loops }
  rw [hbody] at hlogged
  cases hlogged with
  | ok _ _ _ hcounts =>
    obtain ⟨top, hloops, hrecurs⟩ := hcounts
    rw [hframe] at hloops
    obtain ⟨rfl, -⟩ := List.cons.inj hloops
    rw [hrecurs, countP_flatMap, hargs]
    exact Nat.zero_add _

section Variables

variable {n : Nat} {bindings : List LoopVariable} (h : VariablesAllowed (.loop n) bindings)

include h

theorem lackIn_params : LackIn (loopLabel n) (bindings.map target) := by
  refine allIn_iff.mpr fun _ htarget => ?_
  obtain ⟨binding, hbinding, rfl⟩ := mem_map.mp htarget
  exact (h binding hbinding).2.allowed.lacks

theorem lackIn_declarations : LackIn (loopLabel n) (bindings.map declaration) := by
  refine allIn_iff.mpr fun _ hdecl => ?_
  obtain ⟨binding, hbinding, rfl⟩ := mem_map.mp hdecl
  exact (h binding hbinding).1.lacks

end Variables

section Parts

variable {n : Nat} {p : Option Position} {pairs body : List SExpr} {bindings : List LoopVariable}
  {statements : List Node} {e e' : Context}

theorem lowerLoopVariables_lacks (hc : c.Ready n) (hreg : c.registry.Lacks n)
    (hloops : ∀ frame ∈ c.loops, frame.label ≠ loopLabel n) (hpairs : SExpr.SuitIn (.loop n) pairs)
    (hvars : lowerLoopVariables lower p pairs c = .ok bindings e) :
    VariablesAllowed (.loop n) bindings ∧ e.registry.Lacks n := by
  have hsourced :=
    (lowerLoopVariables_traced (p := p) lower_sourced Watch.known_only (H := True) pairs hpairs).sourced
  -- The variables are lowered below the frames of other loops, so they meet no jump of this one.
  have hothers : ∀ frame ∈ c.loops, frame.label ∉ (Watch.loop n).names := fun frame hframe =>
    mt Watch.mem_loop.mp (hloops frame hframe)
  obtain ⟨he, hvars'⟩ := hsourced.run hvars ⟨hc.apt hreg, hothers⟩
    (Watch.hidden_fresh (by decide : "loop" ∈ freshStems) (.inl hc.taken))
  exact ⟨hvars', fun default hdefault => (he.registry.found default hdefault).lacks⟩

theorem lowerBody_inLoop {arity : Nat} (hc : c.Ready n) (hbody : SExpr.SuitIn (.loop n) body)
    (h : lowerBody lower body { c with loops := { label := loopLabel n, arity } :: c.loops } =
      .ok statements e) :
    ∃ frame, e.loops = frame :: c.loops ∧ e.met (.loop n) = frame.recurs ∧
      bodyJumps (loopLabel n) (returningAll statements) ≤ frame.recurs ∧
      bodyJumps (loopLabel n) (returningAll statements) ≤ tailRecursIn body ∧
      (bodyJumps (loopLabel n) (returningAll statements) = frame.recurs → c.registry.Lacks n →
        TailedIn (loopLabel n) arity statements) := by
  have harity : Context.HasArity n arity { c with loops := { label := loopLabel n, arity } :: c.loops } := by
    rintro _ ⟨⟩ _
    rfl
  obtain ⟨hpasses, hbound, hle, htailed⟩ := (lowerBody_tallied lower_tallied hbody).run h
    ⟨hc.helper, hc.taken, hc.wrapped⟩
  have hsame := hpasses.loops
  obtain ⟨frame, hframe⟩ := hsame.cons_inv
  rw [hframe] at hsame
  have hstart : Context.met (.loop n) { c with loops := { label := loopLabel n, arity } :: c.loops } = 0 := by
    simp [Context.met]
  have hend : e.met (.loop n) = frame.recurs := by
    simp [Context.met, hframe, hsame.1, Watch.mem_loop]
  rw [hstart, hend, zero_add] at hle htailed
  exact ⟨frame, hframe, hend, hle, hbound.2, fun hall hreg => (htailed hall.symm harity hreg).2⟩

theorem lowerLoopParts_tailed
    (h : lowerLoopParts lower (loopLabel n) p pairs body c = .ok parts d)
    (hc : c.Ready n) (hreg : c.registry.Lacks n)
    (hloops : ∀ frame ∈ c.loops, frame.label ≠ loopLabel n)
    (hpairs : SExpr.SuitIn (.loop n) pairs) (hbody : SExpr.SuitIn (.loop n) body) :
    VariablesAllowed (.loop n) parts.bindings ∧
      bodyJumps (loopLabel n) parts.body ≤ tailRecursIn body ∧
      ∃ statements, parts.body = returningAll statements ∧
        (bodyJumps (loopLabel n) parts.body = parts.frame.recurs →
          TailedIn (loopLabel n) parts.bindings.length statements) := by
  obtain ⟨statements, e, e', rest, hvars, hstmts, hreturning, hframe⟩ := lowerLoopParts_ok h
  have hinside : Context.Ready n { c with scopes := [] :: c.scopes } := ⟨hc.helper, hc.taken, hc.wrapped⟩
  obtain ⟨hallowed, hlacks⟩ := lowerLoopVariables_lacks hinside hreg hloops hpairs hvars
  have hready := hinside.passes ((lowerLoopVariables_traced (H := True) lower_sourced Watch.known_only
    pairs hpairs).sourced.passes hvars)
  obtain ⟨frame, hframe', -, -, hbound, htailed⟩ := lowerBody_inLoop hready hbody hstmts
  rw [hframe] at hframe'
  obtain ⟨rfl, rfl⟩ := List.cons.inj hframe'
  rw [hreturning]
  exact ⟨hallowed, hbound, statements, rfl, fun hall => htailed hall hlacks⟩

end Parts

theorem loopOf_tailed (hc : c.Unclaimed) (hargs : SExpr.AvoidIn (loopLabel c.nextFresh) form.args)
    (h : LoopOf form c parts suspension d) : VariablesAllowed (.loop c.nextFresh) parts.bindings ∧
      bodyJumps (loopLabel c.nextFresh) parts.body ≤ tailRecursIn form.args.tail ∧
      ∃ statements, parts.body = returningAll statements ∧
        (bodyJumps (loopLabel c.nextFresh) parts.body = parts.frame.recurs →
          TailedIn (loopLabel c.nextFresh) parts.bindings.length statements) := by
  obtain ⟨bindings, body, pairs, hform, hpairs, hrun⟩ := h
  rw [hform] at hargs ⊢
  have hsuits : SExpr.SuitIn (.loop c.nextFresh) (bindings :: body) := hargs.suitIn
  have hpairs' : SExpr.SuitIn (.loop c.nextFresh) pairs := by
    unfold loopPairs at hpairs
    split at hpairs
    · cases hpairs
    · obtain ⟨rfl, -⟩ := pure_ok hpairs
      exact hsuits.1.bindingItems
  obtain ⟨_, _, htracked, rfl, -⟩ := within_ok hrun
  obtain ⟨_, _, hparts, heq, -⟩ := within_ok htracked
  cases heq
  exact lowerLoopParts_tailed hparts ⟨hc.helper, lt_succ_self _, succ_ne_zero _⟩ hc.registry
    hc.loops hpairs' hsuits.2

theorem loopOf_settles (hc : c.Unclaimed) (hargs : SExpr.AvoidIn (loopLabel c.nextFresh) form.args)
    (h : LoopOf form c parts suspension d) : VariablesAllowed (.loop c.nextFresh) parts.bindings ∧
      bodyJumps (loopLabel c.nextFresh) parts.body ≤ tailRecursIn form.args.tail ∧
      (bodyJumps (loopLabel c.nextFresh) parts.body = parts.frame.recurs →
        Settles c.nextFresh parts.params parts.body) := by
  obtain ⟨hallowed, hbound, statements, hbody, htailed⟩ := loopOf_tailed hc hargs h
  refine ⟨hallowed, hbound, fun hall => ?_⟩
  rw [hbody]
  refine settles_tailedIn (lackIn_params hallowed) ?_
  rw [LoweredLoop.params, length_map]
  exact htailed hall

/-! ## The node of a loop -/

section

variable {n : Nat} {params body : List Node}

theorem closedBody_settled (p : Option Position)
    (hsettled : AllIn (Settled (loopLabel n) params) body)
    (hquiet : ∀ statement ∈ body, statement.kind.isJumpTo (loopLabel n) = false) :
    AllIn (Settled (loopLabel n) params) (closedBody p body) ∧
      countIn (NodeKind.isJumpTo (loopLabel n)) (closedBody p body) =
        countIn (NodeKind.isJumpTo (loopLabel n)) body ∧
      ∀ statement ∈ closedBody p body, statement.kind.isJumpTo (loopLabel n) = false := by
  unfold closedBody
  split
  · exact ⟨hsettled, rfl, hquiet⟩
  · have hreturn : LackIn (loopLabel n) [⟨.returnStatement none, p⟩] := ⟨⟨trivial, trivial⟩, trivial⟩
    refine ⟨allIn_append.mpr ⟨hsettled, settledIn_of_lacks hreturn⟩, ?_, ?_⟩
    · rw [countIn_append, countIn_of_lacks hreturn, add_zero]
    · exact forall_mem_append.mpr ⟨hquiet, by simp [NodeKind.isJumpTo]⟩

theorem function_settled (f : Function) (hparams : f.params = [])
    (hsettled : AllIn (Settled (loopLabel n) params) f.body)
    (hquiet : ∀ statement ∈ f.body, statement.kind.isJumpTo (loopLabel n) = false) (p : Option Position) :
    All (Settled (loopLabel n) params) ⟨.function f, p⟩ ∧
      count (NodeKind.isJumpTo (loopLabel n)) ⟨.function f, p⟩ =
        countIn (NodeKind.isJumpTo (loopLabel n)) f.body := by
  obtain ⟨id, fparams, fbody, isAsync, isGenerator, isArrow, returnType, typeParams⟩ := f
  subst hparams
  refine ⟨⟨settled_of_quiet nofun ?_, trivial, hsettled⟩, ?_⟩
  · simpa [NodeKind.children] using hquiet
  · change 0 + (0 + countIn _ _) = countIn _ _
    rw [zero_add, zero_add]

theorem wrapped_settled (hsettled : AllIn (Settled (loopLabel n) params) body)
    (hquiet : ∀ statement ∈ body, statement.kind.isJumpTo (loopLabel n) = false)
    (suspension : Suspension) (p : Option Position) :
    (wrapped body suspension p).All (Settled (loopLabel n) params) ∧
      (wrapped body suspension p).count (NodeKind.isJumpTo (loopLabel n)) =
        countIn (NodeKind.isJumpTo (loopLabel n)) body := by
  -- What is around the function is no jump.
  have hcall (callee : Node) (arguments : List Node) (optional : Bool)
      (h : ∀ child ∈ callee :: arguments, child.kind.isJumpTo (loopLabel n) = false) :
      Settled (loopLabel n) params (.call callee arguments optional) :=
    settled_of_quiet (fun _ => NodeKind.noConfusion) h
  unfold wrapped
  split
  · obtain ⟨hf, hcount⟩ := function_settled ⟨none, [], body, suspension.awaits, true, false, none, []⟩
      rfl hsettled hquiet p
    have hthis : All (Settled (loopLabel n) params) ⟨.thisValue, p⟩ :=
      ⟨settled_of_quiet (fun _ => NodeKind.noConfusion) (forall_mem_nil _), trivial⟩
    refine ⟨⟨settled_of_quiet (fun _ => NodeKind.noConfusion) ?_, hcall _ _ _ ?_,
      ⟨settled_of_quiet (fun _ => NodeKind.noConfusion) ?_, hf, trivial⟩, hthis, trivial⟩, ?_⟩
    · simp [NodeKind.children, Node.call, of, place, NodeKind.isJumpTo]
    · simp [Node.member, of, place, NodeKind.isJumpTo]
    · simp [NodeKind.children, Node.member, Node.function, of, place, NodeKind.isJumpTo]
    · change 0 + (0 + (0 + (count _ _ + 0) + (0 + 0 + 0))) = _
      simp only [zero_add, add_zero]
      exact hcount
  · obtain ⟨hf, hcount⟩ := function_settled
      { Function.arrow [] body with isAsync := suspension.awaits } rfl hsettled hquiet p
    have hresult := hcall ((Node.function { Function.arrow [] body with isAsync := suspension.awaits }).place p)
      [] false (by simp [Node.function, of, place, NodeKind.isJumpTo])
    split
    · refine ⟨⟨settled_of_quiet (fun _ => NodeKind.noConfusion) ?_, hresult, hf, trivial⟩, ?_⟩
      · simp [NodeKind.children, Node.call, of, place, NodeKind.isJumpTo]
      · change 0 + (0 + (count _ _ + 0)) = _
        rw [zero_add, zero_add, add_zero]
        exact hcount
    · refine ⟨⟨hresult, hf, trivial⟩, ?_⟩
      change 0 + (count _ _ + 0) = _
      rw [zero_add, add_zero]
      exact hcount

theorem loopStatements_settled {declarations : List Node} (hdecls : LackIn (loopLabel n) declarations)
    (hsettled : AllIn (Settled (loopLabel n) params) body)
    (hquiet : ∀ statement ∈ body, statement.kind.isJumpTo (loopLabel n) = false) (p : Option Position) :
    AllIn (Settled (loopLabel n) params) (loopStatements (loopLabel n) p declarations body) ∧
      countIn (NodeKind.isJumpTo (loopLabel n)) (loopStatements (loopLabel n) p declarations body) =
        countIn (NodeKind.isJumpTo (loopLabel n)) body ∧
      ∀ statement ∈ loopStatements (loopLabel n) p declarations body,
        statement.kind.isJumpTo (loopLabel n) = false := by
  have htest : Lacks (loopLabel n) ((Node.bool true).place p) := ⟨trivial, trivial⟩
  refine ⟨allIn_append.mpr ⟨settledIn_of_lacks hdecls, ⟨settled_of_quiet nofun ?_,
    settled_of_quiet nofun ?_, settled_of_lacks htest, settled_of_quiet nofun hquiet, hsettled⟩,
    trivial⟩, ?_, ?_⟩
  · simp [NodeKind.children, NodeKind.isJumpTo]
  · simp [NodeKind.children, Node.bool, Node.literal, Node.block, of, place, NodeKind.isJumpTo]
  · rw [loopStatements, countIn_append, countIn_of_lacks hdecls]
    change 0 + (0 + (0 + (count _ _ + (0 + countIn _ body))) + 0) = _
    rw [count_of_lacks htest]
    simp
  · refine forall_mem_append.mpr ⟨fun statement hmem => ?_, by simp [NodeKind.isJumpTo]⟩
    exact isJumpTo_of_spares (allIn_iff.mp hdecls statement hmem).self

theorem loopNode_settled (hvars : VariablesAllowed (.loop n) parts.bindings)
    (h : Settles n parts.params parts.body) (p : Option Position) (suspension : Suspension) :
    (parts.node (loopLabel n) p suspension).All (Settled (loopLabel n) parts.params) ∧
      (parts.node (loopLabel n) p suspension).count (NodeKind.isJumpTo (loopLabel n)) =
        bodyJumps (loopLabel n) parts.body := by
  obtain ⟨hsettled, hcount, hquiet⟩ := closedBody_settled p h.settled h.quiet
  obtain ⟨hsettled', hcount', hquiet'⟩ := loopStatements_settled (lackIn_declarations hvars) hsettled hquiet p
  obtain ⟨hnode, hjumps⟩ := wrapped_settled hsettled' hquiet' suspension p
  refine ⟨hnode, ?_⟩
  calc (parts.node (loopLabel n) p suspension).count (NodeKind.isJumpTo (loopLabel n))
    _ = countIn (NodeKind.isJumpTo (loopLabel n)) (parts.rounds (loopLabel n) p) :=
      hjumps.trans hcount'
    _ = bodyJumps (loopLabel n) parts.body := hcount.trans h.count

end

/-! ## Loops -/

def loopForm (parts : List SExpr) : Form := ⟨.list (.symbol "loop" none :: parts) none, "loop", parts⟩

theorem start_unclaimed (directory : String) {options : Options}
    (h : options.numericHelper ≠ loopLabel 0) : (Context.start directory options).Unclaimed := by
  refine ⟨h, ?_, nofun⟩
  rintro default ⟨name, entry, index, hentry, -⟩
  cases hentry

end Lowering

end LispLowering
