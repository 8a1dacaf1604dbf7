import LispLowering.Proofs.Recur.Exactness
import LispLowering.Proofs.Session

/-!
# Fresh names
-/

namespace LispLowering

open Lowering List Node Lower Context

variable {name stem : String} {n : Nat} {node : Node} {c d : Context}
  {operands : List Node} {suspension : Suspension} {trees : List SExpr}

/-! ## Names that nothing gives -/

/-- Nothing in the state has the name: neither the helper for calls of numbers, nor a remembered default,
nor a loop around. -/
structure Context.Spares (c : Context) (name : String) : Prop where
  helper : c.options.numericHelper ≠ name
  registry : c.registry.StoresOnly (Lacks name)
  loops : ∀ frame ∈ c.loops, frame.label ≠ name

/-- Neither the trees nor the state give the name. -/
structure Vacant (trees : List SExpr) (c : Context) (name : String) : Prop where
  trees : SExpr.AvoidIn name trees
  state : c.Spares name

/-- The names differ from each other, and they occur in none of the nodes. -/
structure Apart (names : List String) (nodes : List Node) : Prop where
  nodup : names.Nodup
  lacks : ∀ name ∈ names, ∀ node ∈ nodes, node.Lacks name

/-- The names with a stem that are drawn between two states. -/
def Context.drawn (stem : String) (c d : Context) : List String :=
  (List.range' c.nextFresh (d.nextFresh - c.nextFresh)).map (temporary stem)

theorem Context.mem_drawn : name ∈ Context.drawn stem c d ↔
    ∃ n, c.nextFresh ≤ n ∧ n < d.nextFresh ∧ temporary stem n = name := by
  simp only [drawn, mem_map, mem_range'_1]
  constructor
  · rintro ⟨n, ⟨hlow, hhigh⟩, rfl⟩
    exact ⟨n, hlow, by omega, rfl⟩
  · rintro ⟨n, hlow, hhigh, rfl⟩
    exact ⟨n, ⟨hlow, by omega⟩, rfl⟩

theorem Context.nodup_drawn (hstem : stem ∈ freshStems) : (Context.drawn stem c d).Nodup :=
  List.Nodup.map (fun _ _ h => (temporary_injective hstem hstem h).2) nodup_range'

theorem Context.drawn_of_lt (h : c.nextFresh < d.nextFresh) : Context.drawn stem c d =
    temporary stem c.nextFresh :: Context.drawn stem { c with nextFresh := c.nextFresh + 1 } d := by
  have hcount : d.nextFresh - c.nextFresh = d.nextFresh - (c.nextFresh + 1) + 1 := by omega
  rw [drawn, hcount, range'_succ]
  rfl

/-! ## A single name under watch -/

section Only

variable {hforeign : ¬IsOwnName name}

theorem Context.Spares.unwatched (h : c.Spares name) : c.Unwatched (.only name hforeign) where
  helper := fun hmem => h.helper (mem_singleton.mp hmem)
  registry := .only h.registry
  loops := fun frame hframe hmem => h.loops frame hframe (mem_singleton.mp hmem)

end Only

/-! ## Trees -/

theorem temporary_not_mem_of_large (names : List String) :
    ∃ bound, ∀ stem ∈ freshStems, ∀ n, bound ≤ n → temporary stem n ∉ names := by
  induction names with
  | nil => exact ⟨0, fun _ _ _ _ => not_mem_nil⟩
  | cons name rest ih =>
    obtain ⟨bound, hbound⟩ := ih
    by_cases hfresh : ∃ stem ∈ freshStems, ∃ n, temporary stem n = name
    · obtain ⟨stem, hstem, m, rfl⟩ := hfresh
      refine ⟨max bound (m + 1), fun other hother n hn hmem => ?_⟩
      rcases mem_cons.mp hmem with heq | hrest
      · obtain ⟨-, rfl⟩ := temporary_injective hother hstem heq
        omega
      · exact hbound other hother n (by omega) hrest
    · refine ⟨bound, fun stem hstem n hn hmem => ?_⟩
      rcases mem_cons.mp hmem with heq | hrest
      · exact hfresh ⟨stem, hstem, n, heq⟩
      · exact hbound stem hstem n hn hrest

theorem avoids_of_large (t : SExpr) :
    ∃ bound, ∀ stem ∈ freshStems, ∀ n, bound ≤ n → t.Avoids (temporary stem n) := by
  obtain ⟨bound, hbound⟩ := temporary_not_mem_of_large (t.spelled.flatMap Symbol.givenNames)
  refine ⟨bound, fun stem hstem n hn text htext hgives => hbound stem hstem n hn ?_⟩
  exact mem_flatMap.mpr ⟨text, htext.mem_spelled, hgives.mem_givenNames⟩

theorem lower_lacks {t : SExpr} (hrun : Lowering.lower t c = .ok (some node) d)
    (hstem : stem ∈ freshStems) (hn : n < c.nextFresh ∨ d.nextFresh ≤ n)
    (hvacant : Vacant [t] c (temporary stem n)) : node.Lacks (temporary stem n) := by
  have hsuits : t.Suits (.fresh hstem n) := hvacant.trees.1.suits
  have hnode := (lower_allowed hsuits hvacant.state.unwatched (Watch.hidden_fresh hstem hn) hrun).2
  exact hnode.allowed.lacks

/-! ## Comparisons -/

namespace Lowering

variable {form : Form} {p : Option Position}

/-- The declaration of a variable that keeps an operand. -/
def keptDeclaration (p : Option Position) (name : String) : Node :=
  (declareChanging ((ident name).place p) none).place p

theorem compareFrom_ok {op : BinaryOp} : (left : Node) → (operands : List Node) →
    {chain : Comparisons} → {c d : Context} → compareFrom op p left operands c = .ok chain d →
    c.nextFresh ≤ d.nextFresh ∧ chain.declarations = (Context.drawn "cmp" c d).map (keptDeclaration p)
  | _, [], _, c, _, h | _, [_], _, c, _, h => by
    obtain ⟨rfl, rfl⟩ := pure_ok h
    exact ⟨Nat.le_refl _, by simp [Context.drawn]⟩
  | left, operand :: next :: rest, chain, c, d, h => by
    unfold compareFrom at h
    split at h
    · obtain ⟨later, hlater, rfl⟩ := map_ok h
      obtain ⟨hle, hdecls⟩ := compareFrom_ok operand (next :: rest) hlater
      exact ⟨hle, hdecls⟩
    · obtain ⟨kept, _, hkept, h⟩ := bind_ok h
      cases hkept
      obtain ⟨later, hlater, rfl⟩ := map_ok h
      obtain ⟨hle, hdecls⟩ := compareFrom_ok _ (next :: rest) hlater
      have hlt : c.nextFresh < d.nextFresh := hle
      refine ⟨Nat.le_of_lt hlt, ?_⟩
      rw [drawn_of_lt hlt, map_cons, ← hdecls]
      rfl

theorem tracking_length
    (h : tracking (lowerValues lower trees) c = .ok (operands, suspension) d) :
    operands.length = trees.length := by
  obtain ⟨_, _, hrun, heq, -⟩ := within_ok h
  cases heq
  exact each_length hrun

theorem tracking_lacks
    (h : tracking (lowerValues lower trees) c = .ok (operands, suspension) d)
    (hstem : stem ∈ freshStems) (hn : d.nextFresh ≤ n) (hvacant : Vacant trees c (temporary stem n)) :
    ∀ operand ∈ operands, operand.Lacks (temporary stem n) := by
  intro operand hoperand
  have hsourced := Sourced.tracking (w := .fresh hstem n) (H := True)
    (lowerValues_traced lower_sourced hvacant.trees.suitIn).sourced
  have hallowed := (hsourced.run h hvacant.state.unwatched (Watch.hidden_fresh hstem (.inr hn))).2
  exact (hallowed operand hoperand).allowed.lacks

/-- A chain of comparisons evaluates its operands before it draws names for them, and it declares what it
draws. If nothing gives these names, the operands do not have them. -/
def ComparesApart (form : Form) (c : Context) : Prop :=
  ∀ op node d, lowerOperator lower form (.comparison op) c = .ok node d →
    ∃ first rest suspension e chain,
      tracking (lowerValues lower form.args) c = .ok (first :: rest, suspension) e ∧
      compareFrom op form.position first rest e = .ok chain d ∧
      node = comparisonValue form.position suspension chain ∧
      chain.declarations = (Context.drawn "cmp" e d).map (keptDeclaration form.position) ∧
      ((∀ name ∈ Context.drawn "cmp" e d, Vacant form.args c name) →
        Apart (Context.drawn "cmp" e d) (first :: rest))

theorem comparesApart (form : Form) (c : Context) : ComparesApart form c := by
  intro op node d h
  have h : withAtLeast form 2 (lowerComparison lower form op) c = .ok node d := h
  unfold withAtLeast at h
  split at h
  · cases h
  · next hcount =>
    obtain ⟨⟨operands, suspension⟩, e, hops, h⟩ := bind_ok h
    cases operands with
    | nil => exact absurd (tracking_length hops) (by simp; omega)
    | cons first rest =>
      obtain ⟨chain, hchain, rfl⟩ := map_ok h
      obtain ⟨hle, hdecls⟩ := compareFrom_ok first rest hchain
      refine ⟨first, rest, suspension, e, chain, hops, hchain, rfl, hdecls, fun hvacant =>
        ⟨nodup_drawn (by decide), fun _ hname => ?_⟩⟩
      obtain ⟨n, hlow, -, rfl⟩ := mem_drawn.mp hname
      exact tracking_lacks hops (by decide) hlow (hvacant _ hname)

/-! ## Ranges -/

theorem forHead_ok {counter current start stop step : Node} {head : ForHead}
    (h : forHead p counter current start stop step c = .ok head d) :
    d = c ∨ d = { c with nextFresh := c.nextFresh + 1 } := by
  unfold forHead at h
  cases hstep : countsDown? step with
  | some down =>
    rw [hstep] at h
    exact .inl (pure_ok h).2
  | none =>
    rw [hstep] at h
    obtain ⟨name, _, hname, h⟩ := bind_ok h
    cases hname
    exact .inr (pure_ok h).2

def RangeParts.nodes (parts : RangeParts) : List Node :=
  [parts.counter, parts.current, parts.start, parts.stop, parts.step]

/-- The head of a `for` loop draws a name after the range has been lowered and before the body is. If
nothing gives the name, neither of them has it. -/
def CountsApart (form : Form) (c : Context) : Prop :=
  ∀ node d, lowerFor lower form c = .ok node d →
    ∃ (parts : RangeParts) (head : ForHead) (body : List Node) (e e' : Context),
      forHead form.position parts.counter parts.current parts.start parts.stop parts.step e = .ok head e' ∧
      node = forNode form.position head parts.current body ∧
      ((∀ name ∈ Context.drawn "step" e e', Vacant form.args c name) →
        Apart (Context.drawn "step" e e') (parts.nodes ++ body))

theorem countsApart (form : Form) (c : Context) : CountsApart form c := by
  intro node d h
  cases hform : form.args with
  | nil =>
    unfold lowerFor at h
    rw [hform] at h
    cases h
  | cons spec body =>
    rw [lowerFor_eq hform] at h
    obtain ⟨parts, e, hparts, h⟩ := bind_ok h
    obtain ⟨head, e', hhead, h⟩ := bind_ok h
    obtain ⟨statements, hbody, rfl⟩ := map_ok h
    refine ⟨parts, head, statements, e, e', hhead, rfl, fun hvacant =>
      ⟨nodup_drawn (by decide), fun _ hname => ?_⟩⟩
    obtain ⟨n, hlow, hhigh, rfl⟩ := mem_drawn.mp hname
    obtain ⟨htrees, hstate⟩ := hvacant _ hname
    have hstem : "step" ∈ freshStems := by decide
    have hsuits : SExpr.SuitIn (.fresh hstem n) (spec :: body) := htrees.suitIn
    have hsourced : Sourced (.fresh hstem n) True (lowerRange lower form spec)
        (RangeParts.Allowed (.fresh hstem n)) :=
      (lowerRange_traced lower_sourced Watch.known_only hsuits.1).sourced
    obtain ⟨he, hrange⟩ := hsourced.run hparts hstate.unwatched (Watch.hidden_fresh hstem (.inr hlow))
    -- The head changes nothing in the state but the number.
    have he' : e'.Unwatched (.fresh hstem n) := by
      rcases forHead_ok hhead with rfl | rfl
      · exact he
      · exact ⟨⟨he.helper, he.registry⟩, he.loops⟩
    have hstmts := ((lowerScopedBody_traced lower_sourced _ hsuits.2).sourced.run hbody he'
      (Watch.hidden_fresh hstem (.inl hhigh))).2
    refine forall_mem_append.mpr ⟨?_, fun node hnode => ?_⟩
    · simp only [RangeParts.nodes, forall_mem_cons]
      exact ⟨hrange.counter.allowed.lacks, hrange.current.lacks, hrange.start.lacks, hrange.stop.lacks,
        hrange.step.lacks, by simp⟩
    · exact Allowed.lacks (everyIn_iff.mp hstmts node hnode)

/-! ## Properties that are called -/

theorem propertyKey_ok {arg : SExpr} (h : propertyKey form arg c = .ok name d) : d = c := by
  unfold propertyKey at h
  split at h
  · exact (pure_ok h).2
  · exact (pure_ok h).2
  · cases h

/-- The names for the receiver and for the member are drawn after the object has been lowered. If nothing
gives them, the object does not have them. -/
def InvokesApart (form : Form) (c : Context) : Prop :=
  ∀ node d, lowerGetInvoke lower form c = .ok node d → ∃ object member suspension n,
      node = wrapped (getInvokeStatements object member (temporary "receiver" n)
        (temporary "member" (n + 1)) form.position) suspension form.position ∧
      d.nextFresh = n + 2 ∧
      (Vacant form.args c (temporary "receiver" n) → Vacant form.args c (temporary "member" (n + 1)) →
        Apart [temporary "receiver" n, temporary "member" (n + 1)] [object])

theorem invokesApart (form : Form) (c : Context) : InvokesApart form c := by
  intro node d h
  obtain ⟨tree, word, args⟩ := form
  match args with
  | [] | [_] | _ :: _ :: _ :: _ => cases h
  | [receiver, key] =>
    obtain ⟨⟨object, suspension⟩, e, hobject, h⟩ := bind_ok h
    obtain ⟨member, e₁, hmember, h⟩ := bind_ok h
    obtain ⟨_, _, hfresh, h⟩ := bind_ok h
    cases hfresh
    obtain ⟨_, _, hfresh, h⟩ := bind_ok h
    cases hfresh
    obtain ⟨rfl, rfl⟩ := pure_ok h
    obtain rfl : e₁ = e := propertyKey_ok hmember
    refine ⟨object, member, suspension, e₁.nextFresh, rfl, rfl, fun hrecv hmember => ⟨?_, ?_⟩⟩
    · simp only [nodup_cons, mem_singleton, not_mem_nil, not_false_eq_true, nodup_nil, and_true]
      intro heq
      obtain ⟨hstem, -⟩ := temporary_injective (by decide) (by decide) heq
      exact absurd hstem (by decide)
    · have hlacks {stem : String} {n : Nat} (hstem : stem ∈ freshStems) (hn : e₁.nextFresh ≤ n)
          (hvacant : Vacant [receiver, key] c (temporary stem n)) : object.Lacks (temporary stem n) := by
        have hsourced := Sourced.tracking (w := .fresh hstem n) (H := True)
          (lowerValue_traced lower_sourced hvacant.trees.suitIn.1).sourced
        exact (hsourced.run hobject hvacant.state.unwatched
          (Watch.hidden_fresh hstem (.inr hn))).2.allowed.lacks
      refine forall_mem_cons.mpr ⟨forall_mem_singleton.mpr ?_,
        forall_mem_singleton.mpr (forall_mem_singleton.mpr ?_)⟩
      · exact hlacks (by decide) (Nat.le_refl _) hrecv
      · exact hlacks (by decide) (Nat.le_succ _) hmember

/-! ## Loops -/

/-- If nothing gives the label of a loop, there is one jump back to the loop for each `recur` form of its
body, and no call of the label is left. -/
def JumpsApart (form : Form) (c : Context) : Prop :=
  ∀ node d, lowerLoop lower form c = .ok node d → ∃ parts suspension, LoopOf form c parts suspension d ∧
      node = parts.node (temporary "loop" c.nextFresh) form.position suspension ∧
      (Vacant form.args c (temporary "loop" c.nextFresh) →
        node.All (NodeKind.Unnamed (temporary "loop" c.nextFresh)) ∧
        node.count (NodeKind.isJumpTo (temporary "loop" c.nextFresh)) = recursIn form.args.tail)

theorem jumpsApart (form : Form) (c : Context) : JumpsApart form c := by
  intro node d h
  obtain ⟨parts, suspension, hloop, rfl, hall⟩ := loopOf_lowered h
  refine ⟨parts, suspension, hloop, rfl, fun hvacant => ?_⟩
  have hc : c.Unclaimed := ⟨hvacant.state.helper, hvacant.state.registry, hvacant.state.loops⟩
  obtain ⟨hvars, -, hsettles⟩ := loopOf_settles hc hvacant.trees hloop
  obtain ⟨hsettled, hcount⟩ := loopNode_settled hvars (hsettles hall) form.position suspension
  exact ⟨hsettled.imp fun m hm => hm.self.1, hcount.trans (hall.trans hloop.recurs_eq)⟩

end Lowering

/-! ## All forms -/

/-- No fresh name is drawn twice in a session, and a tree collides with finitely many numbers. A fresh name
that is not drawn while a tree is lowered is in the node only if something gives it. The names that a form
draws are apart from what is lowered from its arguments, and the label of a loop is named by jumps only, as
long as nothing gives the names that are drawn. -/
theorem fresh_names_apart (t : SExpr) (form : Form) (c : Context) :
    (∀ history, ∀ stem ∈ freshStems, ∀ other ∈ freshStems, ∀ m n, m < c.nextFresh →
      (c.afterAll history).nextFresh ≤ n → temporary stem m ≠ temporary other n) ∧
    (∃ bound, ∀ stem ∈ freshStems, ∀ n, bound ≤ n → t.Avoids (temporary stem n)) ∧
    (∀ node d, lower t c = .ok (some node) d → ∀ stem ∈ freshStems, ∀ n,
      n < c.nextFresh ∨ d.nextFresh ≤ n → Vacant [t] c (temporary stem n) → node.Lacks (temporary stem n)) ∧
    ComparesApart form c ∧ CountsApart form c ∧ InvokesApart form c ∧ JumpsApart form c := by
  refine ⟨fun history _ hstem _ hother m n _ _ heq => ?_, avoids_of_large t,
    fun _ _ h _ hstem _ => lower_lacks h hstem, comparesApart form c, countsApart form c,
    invokesApart form c, jumpsApart form c⟩
  have hrise := (evolves_afterAll c history).nextFresh
  obtain ⟨-, rfl⟩ := temporary_injective hstem hother heq
  omega

/-! ## A chain of comparisons -/

def comparisonForm (args : List SExpr) : Form := ⟨.list (.symbol "<" none :: args) none, "<", args⟩

/-- `(< a (f) x)`. -/
def keepingChain : Form :=
  comparisonForm [.symbol "a" none, .list [.symbol "f" none] none, .symbol "x" none]

/-- `(< cmp_0 (f) x)`. -/
def capturingChain : Form :=
  comparisonForm [.symbol "cmp_0" none, .list [.symbol "f" none] none, .symbol "x" none]

theorem start_spares (h : ({} : Options).numericHelper ≠ name) : (Context.start "" {}).Spares name := by
  refine ⟨h, ?_, nofun⟩
  rintro default ⟨declared, entry, index, hentry, -⟩
  cases hentry

/-- The value of the call is kept in a variable, which is in none of the operands. -/
theorem fresh_names_apart_keeping : Vacant keepingChain.args (Context.start "" {}) "cmp_0" ∧
    ∃ operands suspension e chain d node,
      lowerOperator lower keepingChain (.comparison .lt) (Context.start "" {}) = .ok node d ∧
      tracking (lowerValues lower keepingChain.args) (Context.start "" {}) =
        .ok (operands, suspension) e ∧ node = comparisonValue none suspension chain ∧
      chain.declarations = [keptDeclaration none "cmp_0"] ∧ Apart ["cmp_0"] operands := by
  have hvacant : Vacant keepingChain.args (Context.start "" {}) "cmp_0" :=
    ⟨SExpr.avoidIn_of_spelled (by decide +kernel), start_spares (by decide)⟩
  have hrun : lowerOperator lower keepingChain (.comparison .lt) (Context.start "" {}) = .ok _ _ := rfl
  obtain ⟨-, -, -, hcompares, -⟩ := fresh_names_apart keepingChain.node keepingChain (Context.start "" {})
  obtain ⟨first, rest, suspension, e, chain, hops, hchain, hnode, hdecls, hapart⟩ :=
    hcompares _ _ _ hrun
  cases hops
  exact ⟨hvacant, _, _, _, chain, _, _, hrun, rfl, hnode, hdecls,
    hapart (forall_mem_singleton.mpr hvacant)⟩

/-- A variable of the source with the name that the chain draws is captured: it stands on the left of the
comparison that assigns to the variable of that name. -/
theorem comparison_captures : ∃ rest suspension e chain d,
      tracking (lowerValues lower capturingChain.args) (Context.start "" {}) =
        .ok (ident "cmp_0" :: rest, suspension) e ∧
      compareFrom .lt none (ident "cmp_0") rest e = .ok chain d ∧
      lowerOperator lower capturingChain (.comparison .lt) (Context.start "" {}) =
        .ok (comparisonValue none suspension chain) d ∧
      chain.declarations = [keptDeclaration none "cmp_0"] :=
  ⟨_, _, _, _, _, rfl, rfl, rfl, rfl⟩

end LispLowering
