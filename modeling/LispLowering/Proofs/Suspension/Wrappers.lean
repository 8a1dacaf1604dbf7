import LispLowering.Proofs.Hygiene
import LispLowering.Proofs.Suspension.Tracking

/-!
# Wrappers and what their statements wait for
-/

namespace LispLowering

open Lowering Node SExpr Scan Lower

/-! ## Choosing a wrapper -/

def generator (isAsync : Bool) (body : List Node) : Function :=
  { id := none, params := [], body, isAsync, isGenerator := true, isArrow := false, returnType := none,
    typeParams := [] }

/-- The node wraps statements which await and yield as said: a plain arrow function if they do neither,
an async one that is awaited if they await, and a generator that is delegated to if they yield. -/
inductive Wraps (awaits yields : Prop) (body : List Node) (p : Option Position) : Node → Prop where
  | plain : ¬awaits → ¬yields →
      Wraps awaits yields body p ⟨.call ⟨.function (Function.arrow [] body), p⟩ [] false, p⟩
  | awaited : awaits → ¬yields → Wraps awaits yields body p
        ⟨.await ⟨.call ⟨.function { Function.arrow [] body with isAsync := true }, p⟩ [] false, p⟩, p⟩
  | delegated (isAsync : Bool) : yields → (awaits → isAsync = true) → Wraps awaits yields body p
        ⟨.yield (some ⟨.call ⟨.member ⟨.function (generator isAsync body), p⟩ (ident "call") false, p⟩
          [⟨.thisValue, p⟩] false, p⟩) true, p⟩

variable {awaits yields : Prop} {body : List Node} {p : Option Position} {δ : Suspension}

theorem wraps_of_tracks (h : δ.Tracks awaits yields) : Wraps awaits yields body p (wrapped body δ p) := by
  obtain ⟨noted, noted'⟩ := δ
  cases noted' with
  | true => exact .delegated noted (h.yields_iff.mpr rfl) h.awaits_of
  | false =>
    have hyields : ¬yields := fun hyields => by cases h.yields_iff.mp hyields
    cases noted with
    | true => exact .awaited ((h.of_awaits rfl).resolve_right hyields) hyields
    | false => exact .plain (fun hawaits => by cases h.awaits_of hawaits) hyields

theorem wrapped_orPlace : (wrapped body δ p).orPlace p = wrapped body δ p := by
  obtain ⟨noted, noted'⟩ := δ
  cases noted <;> cases noted' <;> cases p <;> rfl

theorem tracks_body {leaves : List Leaf} (h : δ.Tracks (∃ leaf ∈ leaves, awaiting.FindsAt leaf)
      (∃ leaf ∈ leaves, yielding.FindsAt leaf))
    (hbody : BuiltAll (leaves ++ [.mark .returns]) (Slot.statement.all body)) :
    δ.Tracks (Awaits body) (Yields body) := by
  have hfinds (mark : Mark) (hmark : mark ≠ .returns) : (∃ s ∈ body, (outside mark).Finds s) ↔
      ∃ leaf ∈ leaves, (outside mark).FindsAt leaf := by
    have hreturns : ¬(outside mark).FindsAt (.mark .returns) := fun h => hmark h.symm
    rw [← findsAmong_all, hbody.finds_iff]
    simp [or_and_right, exists_or, hreturns]
  exact h.congr (hfinds .awaits Mark.noConfusion) (hfinds .yields Mark.noConfusion)

/-! ## What is noted for trees and forms -/

variable {t : SExpr} {c d : Context}

theorem tracking_tracks {node : Option Node} {s : Suspension} (ht : t.Prompt) (hc : c.registry.Prompt)
    (h : tracking (Lowering.lower t) c = .ok (node, s) d) :
    s.Tracks (Awaits node.toList) (Yields node.toList) := by
  obtain ⟨_, after, hrun, heq, -⟩ := within_ok h
  cases heq
  exact (lower_tracked t ht _ node after rfl hrun hc).2.1

theorem inExpression_tracks {node : Option Node} {s : Suspension} (ht : t.Prompt)
    (hc : c.registry.Prompt) (h : inExpression (Lowering.lower t) c = .ok (node, s) d) :
    s.Tracks (Awaits node.toList) (Yields node.toList) := by
  obtain ⟨_, _, hrun, rfl, -⟩ := within_ok h
  have hdeep : ({ c with wrapperDepth := c.wrapperDepth + 1 } : Context).registry.Prompt := hc
  exact tracking_tracks ht hdeep hrun

theorem Makes.tracks {α : Type} {parts : List Part} {m : Lower α} {a : α}
    {Q : List Leaf → Suspension → α → Prop}
    (hm : Makes Lowering.lower c.registry.Stores parts m Q) (hc : c.registry.Prompt)
    (hparts : ∀ part ∈ parts, part.Prompt) (h : m c = .ok a d) : ∃ leaves δ,
      δ.Tracks (∃ leaf ∈ leaves, awaiting.FindsAt leaf)
        (∃ leaf ∈ leaves, yielding.FindsAt leaf) ∧ Q leaves δ a := by
  obtain ⟨events, δ, hevents, -, rfl, hQ⟩ := hm c a d h
  have hsource : TrackedSource Lowering.lower c.registry.Stores := ⟨lower_transparent, lower_tracked, hc⟩
  exact ⟨_, δ, (hevents.tracked hsource hc hparts).tracks, hQ⟩

/-! ## The wrappers of forms -/

/-- The node is a statement that can be a value only inside of a wrapper. -/
def Node.needsWrapper (node : Node) : Bool :=
  match node.kind with
  | .expressionStatement _ | .functionDeclaration _ => false
  | _ => node.isStatement

theorem Node.asExpression_of_needsWrapper {node : Node} (h : node.needsWrapper = true) (s : Suspension) :
    node.asExpression s = wrapped (returning node) s node.position := by
  unfold asExpression
  split
  · cases h
  · cases h
  · split
    · rfl
    · next hnode hexpr hstmt =>
      unfold needsWrapper at h
      split at h
      · cases h
      · cases h
      · exact absurd h hstmt

theorem value_wraps {statement : Node} {s : Suspension} (ht : t.Prompt) (hc : c.registry.Prompt)
    (h : inExpression (Lowering.lower t) c = .ok (some statement, s) d)
    (hstmt : statement.needsWrapper = true) :
    Wraps (Awaits (returning statement)) (Yields (returning statement))
      (returning statement) statement.position (statement.asExpression s) := by
  have hfinds (mark : Mark) (hmark : mark ≠ .returns) :
      (∃ n ∈ returning statement, (outside mark).Finds n) ↔
        ∃ n ∈ (some statement).toList, (outside mark).Finds n := by
    rw [exists_mem_returning (ignores (not_outside_marks hmark.symm))]
    simp
  rw [asExpression_of_needsWrapper hstmt]
  apply wraps_of_tracks
  exact (inExpression_tracks ht hc h).congr (hfinds .awaits Mark.noConfusion)
    (hfinds .yields Mark.noConfusion)

variable {name : String} {q : Option Position} {args : List SExpr} {node : Node}

theorem specialParts_prompt {special : SpecialForm} (hmeaning : HeadMeaning.ofName name = .special special)
    (ht : (list (.symbol name q :: args) p).Prompt) :
    ∀ part ∈ (specialScript special args).parts, part.Prompt := by
  have hparts : SExpr.parts (.list (.symbol name q :: args) p) =
      (specialScript special args).parts := by
    simp only [SExpr.parts, SExpr.script, namedScript, hmeaning]
  exact hparts ▸ everywhere_iff.mp ht

theorem comparison_wraps {op : BinaryOp}
    (hmeaning : HeadMeaning.ofName name = .special (.operator (.comparison op)))
    (ht : (list (.symbol name q :: args) p).Prompt) (hc : c.registry.Prompt)
    (h : Lowering.lower (.list (.symbol name q :: args) p) c = .ok (some node) d) :
    ∃ first rest s c₁ chain,
      tracking (lowerValues Lowering.lower args) c = .ok (first :: rest, s) c₁ ∧
      compareFrom op p first rest c₁ = .ok chain d ∧
      (chain.declarations = [] → node = (chain.value p).orPlace p) ∧
      (chain.declarations ≠ [] → Wraps (Awaits (chain.statements p)) (Yields (chain.statements p))
        (chain.statements p) p node) := by
  obtain ⟨value, hvalue, hnode⟩ := lower_special_ok hmeaning h
  have hargs : 2 ≤ args.length := by
    by_contra hfew
    have hfew : args.length < 2 := by omega
    simp only [lowerSpecial, lowerOperator, withAtLeast, hfew, if_true] at hvalue
    cases hvalue
  have hrun : lowerComparison Lowering.lower ⟨.list (.symbol name q :: args) p, name, args⟩ op c =
      .ok value d := by
    have hfew : ¬args.length < 2 := by omega
    simpa only [lowerSpecial, lowerOperator, withAtLeast, hfew, if_false] using hvalue
  obtain ⟨⟨operands, s⟩, c₁, hoperands, hrun⟩ := bind_ok hrun
  have hperforms : Comparison.self.Performs c.registry.Stores _
      (fun lower => tracking (lowerValues lower args)) _ :=
    (lowerValues_performs (SExpr.each_iff.mpr fun _ _ => trivial)).tracking
  obtain ⟨leaves, δ, htracks, rfl, hbuilt⟩ :=
    (hperforms.makes lower_transparent).tracks hc (specialParts_prompt hmeaning ht) hoperands
  have hlength : operands.length = args.length := by
    obtain ⟨_, _, hvalues, heq, -⟩ := within_ok hoperands
    cases heq
    exact each_length hvalues
  cases operands with
  | nil => simp at hlength; omega
  | cons first rest =>
    obtain ⟨chain, hchain, rfl⟩ := map_ok hrun
    have hne : rest ≠ [] := by
      rintro rfl
      simp at hlength
      omega
    obtain ⟨leaves₁, leaves₂, hmem, hfirst, hrest⟩ := hbuilt.uncons rfl
    obtain ⟨-, -, hdeclarations, htests⟩ :=
      (compareFrom_calm op p rest first _ _ hne hfirst hrest).idle c₁ chain d hchain
    have hstmts := (Comparisons.built hdeclarations (.regroup hmem htests) p).2
    cases hnode
    refine ⟨first, rest, s, c₁, chain, hoperands, hchain, fun hdecls => ?_, fun hdecls => ?_⟩
    · show (comparisonValue p s chain).orPlace p = _
      simp [comparisonValue, Comparisons.value, hdecls]
    · have hwrapped : comparisonValue p s chain = wrapped (chain.statements p) s p := by
        simp [comparisonValue, Comparisons.statements, Comparisons.value, hdecls]
      show Wraps _ _ _ _ ((comparisonValue p s chain).orPlace p)
      rw [hwrapped, wrapped_orPlace]
      exact wraps_of_tracks (tracks_body htracks hstmts)

theorem getInvoke_wraps (hmeaning : HeadMeaning.ofName name = .special .getInvoke)
    (ht : (list (.symbol name q :: args) p).Prompt) (hc : c.registry.Prompt)
    (h : Lowering.lower (.list (.symbol name q :: args) p) c = .ok (some node) d) :
    ∃ object key receiver s c₁ member body, args = [object, key] ∧
      tracking (lowerValue Lowering.lower object) c = .ok (receiver, s) c₁ ∧
      propertyKey ⟨.list (.symbol name q :: args) p, name, args⟩ key c₁ = .ok member c₁ ∧
      body = getInvokeStatements receiver member (temporary "receiver" c₁.nextFresh)
        (temporary "member" (c₁.nextFresh + 1)) p ∧
      Wraps (Awaits body) (Yields body) body p node := by
  obtain ⟨value, hvalue, hnode⟩ := lower_special_ok hmeaning h
  have hparts := specialParts_prompt hmeaning ht
  rcases args with _ | ⟨object, _ | ⟨key, _ | ⟨_, _⟩⟩⟩
  · cases hvalue
  · cases hvalue
  · have hrun : lowerGetInvoke Lowering.lower
        ⟨.list [.symbol name q, object, key] p, name, [object, key]⟩ c = .ok value d := hvalue
    obtain ⟨⟨receiver, s⟩, c₁, hobject, hrun⟩ := bind_ok hrun
    obtain ⟨member, c₂, hmember, hrun⟩ := bind_ok hrun
    obtain ⟨_, _, hfresh, hrun⟩ := bind_ok hrun
    cases hfresh
    obtain ⟨_, _, hfresh, hrun⟩ := bind_ok hrun
    cases hfresh
    obtain ⟨rfl, rfl⟩ := pure_ok hrun
    obtain rfl : c₂ = c₁ := propertyKey_ok hmember
    have hperforms : Comparison.self.Performs c.registry.Stores _
        (fun lower => tracking (lowerValue lower object)) _ :=
      .tracking (.value trivial)
    obtain ⟨leaves, δ, htracks, rfl, hbuilt⟩ :=
      (hperforms.makes lower_transparent).tracks hc hparts hobject
    cases hnode
    refine ⟨object, key, receiver, s, c₂, member, _, rfl, hobject, hmember, rfl, ?_⟩
    show Wraps _ _ _ _ ((wrapped _ s p).orPlace p)
    rw [wrapped_orPlace]
    exact wraps_of_tracks (tracks_body htracks (getInvokeStatements_built hbuilt _ _ _ _))
  · cases hvalue

/-! ## The wrappers of loops -/

def loopBody (label : String) (p : Option Position) (bindings : List LoopVariable) (body : List Node) :
    List Node :=
  loopStatements label p (bindings.map LoopVariable.declaration)
    (closedBody p (bodyWithJumps label (bindings.map LoopVariable.target) body))

section Dropped

variable {n : Nat} {label : String}

mutual

theorem tailArguments_eq_nil : (node : Node) → tailJumps label node = 0 →
    tailArguments label node = []
  | ⟨kind, p⟩, h => by
    cases kind with
    | returnStatement value =>
      cases value with
      | none => rfl
      | some value => exact valueArguments_eq_nil h
    | ifStatement test consequent alternate =>
      obtain ⟨hthen, helse⟩ := Nat.add_eq_zero_iff.mp h
      rw [tailArguments, tailArguments_eq_nil consequent hthen, optionArguments_eq_nil alternate helse]
      rfl
    | block body => exact bodyArguments_eq_nil body h
    | labeled name body => exact tailArguments_eq_nil body h
    | switchStatement discriminant cases => exact bodyArguments_eq_nil cases h
    | switchCase test consequent => exact bodyArguments_eq_nil consequent h
    | _ => rfl

theorem bodyArguments_eq_nil : (body : List Node) → bodyJumps label body = 0 →
    bodyArguments label body = []
  | [], _ => rfl
  | node :: rest, h => by
    obtain ⟨hnode, hrest⟩ := Nat.add_eq_zero_iff.mp h
    rw [bodyArguments, tailArguments_eq_nil node hnode, bodyArguments_eq_nil rest hrest]
    rfl

theorem optionArguments_eq_nil : (node : Option Node) → optionJumps label node = 0 →
    optionArguments label node = []
  | none, _ => rfl
  | some node, h => tailArguments_eq_nil node h

end

theorem bodyArguments_of_lacks {body : List Node} (h : LackIn (loopLabel n) body) :
    bodyArguments (loopLabel n) body = [] := by
  have hzero : bodyWithJumps (loopLabel n) [] body = body ∧ _ := bodyWithJumps_of_lacks body h
  exact bodyArguments_eq_nil body hzero.2

theorem tailArguments_joined {body : List Node} (p : Option Position)
    (h : bodyArguments label body = []) : tailArguments label (joined p body) = [] := by
  unfold joined
  split
  · simpa [bodyArguments] using h
  · exact h

theorem bodyArguments_append (label : String) (body after : List Node) :
    bodyArguments label (body ++ after) = bodyArguments label body ++ bodyArguments label after := by
  induction body with
  | nil => rfl
  | cons node rest ih => simp [bodyArguments, ih]

theorem bodyArguments_of_tailed {node : Node} (h : node.Tailed (loopLabel n) 0) :
    bodyArguments (loopLabel n) node.returning = [] ∧
      (node.isStatement = false → valueArguments (loopLabel n) node = []) := by
  have hexpr {node : Node} (hnode : node.isStatement = false)
      (h : valueArguments (loopLabel n) node = []) :
      bodyArguments (loopLabel n) node.returning = [] ∧
        (node.isStatement = false → valueArguments (loopLabel n) node = []) := by
    rw [returning_of_expression hnode]
    exact ⟨(List.append_nil _).trans h, fun _ => h⟩
  induction h with
  | @lacks node h =>
    have hnode : node.Allowed (.loop n) := Lacks.allowed h
    have hreturning := (Allowed.returning node hnode).lackIn
    exact ⟨bodyArguments_of_lacks hreturning, fun _ => valueArguments_eq_nil (valueJumps_of_lacks node h)⟩
  | jump hcallee hcount hgiven =>
    refine hexpr rfl ?_
    rw [valueArguments, List.length_eq_zero_iff.mp hcount, ite_self]
  | choice htest hc ha hthen helse ih ih' =>
    refine hexpr rfl ?_
    rw [valueArguments, ih.2 hc, ih'.2 ha]
    rfl
  | statement he hexpr ih => exact ⟨(List.append_nil _).trans (ih.2 he), Bool.noConfusion⟩
  | @branch test consequent alternate q htest hthen helse ih ih' =>
    refine ⟨?_, Bool.noConfusion⟩
    have hconsequent := tailArguments_joined consequent.position ih.1
    cases alternate with
    | none => simp [returning, returningOption, bodyArguments, tailArguments, optionArguments, hconsequent]
    | some branch =>
      have halternate := tailArguments_joined branch.position (ih' branch rfl).1
      simp [returning, returningOption, bodyArguments, tailArguments, optionArguments, hconsequent,
        halternate]
  | @block body q hbefore hlast ih =>
    refine ⟨?_, Bool.noConfusion⟩
    show bodyArguments (loopLabel n) (returningAll body) ++ [] = []
    rw [List.append_nil, returningAll_eq, bodyArguments_append, bodyArguments_of_lacks hbefore]
    cases hcase : body.getLast? with
    | none => rfl
    | some last => exact (ih last hcase).1

theorem droppedArguments_eq_nil {form : Form} {parts : LoweredLoop} {s : Suspension}
    (hc : c.Unclaimed) (hargs : AvoidIn (loopLabel c.nextFresh) form.args)
    (h : LoopOf form c parts s d)
    (hall : bodyJumps (loopLabel c.nextFresh) parts.body = parts.frame.recurs) :
    droppedArguments (loopLabel c.nextFresh) parts.bindings parts.body = [] := by
  obtain ⟨-, -, statements, hbody, htailed⟩ := loopOf_tailed hc hargs h
  obtain ⟨hbefore, hlast⟩ := htailed hall
  unfold droppedArguments
  split
  · next hnone =>
    rw [List.isEmpty_iff.mp hnone] at hlast
    rw [hbody, returningAll_eq, bodyArguments_append, bodyArguments_of_lacks hbefore]
    cases hcase : statements.getLast? with
    | none => rfl
    | some last => exact (bodyArguments_of_tailed (hlast last hcase)).1
  · rfl

end Dropped

theorem loop_wraps (hmeaning : HeadMeaning.ofName name = .special .loop)
    (ht : (list (.symbol name q :: args) p).Prompt) (hc : c.registry.Prompt)
    (h : Lowering.lower (.list (.symbol name q :: args) p) c = .ok (some node) d) :
    ∃ parts s body dropped,
      LoopOf ⟨.list (.symbol name q :: args) p, name, args⟩ c parts s d ∧
      body = loopBody (loopLabel c.nextFresh) p parts.bindings parts.body ∧
      dropped = droppedArguments (loopLabel c.nextFresh) parts.bindings parts.body ∧
      Wraps (Awaits (body ++ dropped)) (Yields (body ++ dropped)) body p node ∧
      (c.Unclaimed → AvoidIn (loopLabel c.nextFresh) args → dropped = []) := by
  obtain ⟨value, hvalue, hnode⟩ := lower_special_ok hmeaning h
  obtain ⟨parts, s, hloop, rfl, hall⟩ := loopOf_lowered hvalue
  cases hnode
  refine ⟨parts, s, _, _, hloop, rfl, rfl, ?_, fun hclaim hargs =>
    droppedArguments_eq_nil hclaim hargs hloop hall⟩
  obtain ⟨bindings, forms, pairs, hform, hpairs, hrun⟩ := hloop
  obtain ⟨-, -, rfl⟩ := (loopPairs_calm bindings).idle c pairs c hpairs
  have hitems : Each Comparison.self.trees bindings.bindingItems :=
    SExpr.each_iff.mpr fun _ _ => trivial
  have hmakes : Makes Lowering.lower c.registry.Stores _ _ _ :=
    lowerLoopParts_makes (loopLabel c.nextFresh) p hitems forms lower_transparent
  obtain ⟨events, hevents, -, hparts, hdeclared, statements, hbody, hbuilt⟩ :=
    inExpression_ok lower_transparent hmakes hrun
  have hsource : TrackedSource Lowering.lower c.registry.Stores := ⟨lower_transparent, lower_tracked, hc⟩
  have hprompt := specialParts_prompt hmeaning ht
  cases hform
  have hlooped : ∀ part ∈ (loopScript (bindings :: forms)).parts, part.Prompt := hprompt
  rw [parts_loopScript, List.forall_mem_append] at hlooped
  obtain ⟨hvalues, hforms⟩ := hlooped
  have hstatements : ∀ part ∈ Place.statement.all forms, part.Prompt :=
    everywhere_all (fun _ => trivial) (everywhere_of_all hforms)
  have htracked := hevents.tracked hsource (by simpa using hc)
    (hparts ▸ List.forall_mem_append.mpr ⟨hvalues, hstatements⟩)
  have hfinds (mark : Mark) (hmark : mark ≠ .returns) :
      (∃ n ∈ loopBody (loopLabel c.nextFresh) p parts.bindings parts.body ++
          droppedArguments (loopLabel c.nextFresh) parts.bindings parts.body,
        (outside mark).Finds n) ↔
        ∃ leaf ∈ events.flatMap Event.leaves, (outside mark).FindsAt leaf := by
    have hignores := ignores (not_outside_marks hmark.symm)
    rw [← hbuilt.finds_iff, findsAmong_all, hbody]
    simp only [List.mem_append, or_and_right, exists_or]
    rw [loopBody, exists_mem_loop hignores.returns hdeclared]
    simp only [List.mem_append, or_and_right, exists_or, exists_mem_returningAll hignores]
  show Wraps _ _ _ _ ((wrapped (loopBody (loopLabel c.nextFresh) p parts.bindings parts.body) s p).orPlace p)
  rw [wrapped_orPlace]
  exact wraps_of_tracks
    (htracked.tracks.congr (hfinds .awaits Mark.noConfusion) (hfinds .yields Mark.noConfusion))

/-! ## Exactness -/

/-- What is noted is exact, in every state and for every tree, if no default of a parameter waits for
anything. So each statement that is put into a wrapper gets the wrapper for what it awaits and yields: as a
value, in a chain of comparisons of the lowered operands, in `js-get-invoke` around the lowered object, and
in a loop. There the arguments that jumps drop count as well, but unless a call in the source happens to
name the label of the loop, there are none. -/
theorem suspension_exact (t : SExpr) (c : Context) (ht : t.Prompt) (hc : c.registry.Prompt) :
    (∀ node s d, tracking (Lowering.lower t) c = .ok (node, s) d →
      s.Tracks (Awaits node.toList) (Yields node.toList)) ∧
    (∀ items p node d, t = .list items p → lowerValue Lowering.lower t c = .ok node d →
      ∃ lowered s, inExpression (Lowering.lower t) c = .ok (lowered, s) d ∧
        ∀ statement, lowered = some statement → statement.needsWrapper = true →
          Wraps (Awaits (returning statement)) (Yields (returning statement))
            (returning statement) statement.position node) ∧
    ∀ name q args p node d, t = .list (.symbol name q :: args) p →
      Lowering.lower t c = .ok (some node) d →
      (∀ op, HeadMeaning.ofName name = .special (.operator (.comparison op)) →
        ∃ first rest s c₁ chain,
          tracking (lowerValues Lowering.lower args) c = .ok (first :: rest, s) c₁ ∧
          compareFrom op p first rest c₁ = .ok chain d ∧
          (chain.declarations = [] → node = (chain.value p).orPlace p) ∧
          (chain.declarations ≠ [] →
            Wraps (Awaits (chain.statements p)) (Yields (chain.statements p))
              (chain.statements p) p node)) ∧
      (HeadMeaning.ofName name = .special .getInvoke →
        ∃ object key receiver s c₁ member body, args = [object, key] ∧
          tracking (lowerValue Lowering.lower object) c = .ok (receiver, s) c₁ ∧
          propertyKey ⟨t, name, args⟩ key c₁ = .ok member c₁ ∧
          body = getInvokeStatements receiver member (temporary "receiver" c₁.nextFresh)
            (temporary "member" (c₁.nextFresh + 1)) p ∧
          Wraps (Awaits body) (Yields body) body p node) ∧
      (HeadMeaning.ofName name = .special .loop → ∃ parts s body dropped,
        LoopOf ⟨t, name, args⟩ c parts s d ∧
        body = loopBody (loopLabel c.nextFresh) p parts.bindings parts.body ∧
        dropped = droppedArguments (loopLabel c.nextFresh) parts.bindings parts.body ∧
        Wraps (Awaits (body ++ dropped)) (Yields (body ++ dropped)) body p node ∧
        (c.Unclaimed → AvoidIn (loopLabel c.nextFresh) args → dropped = [])) := by
  refine ⟨fun node s d h => tracking_tracks ht hc h, ?_, ?_⟩
  · rintro items p node d rfl h
    obtain ⟨⟨lowered, s⟩, c', hinner, h⟩ := bind_ok h
    cases lowered with
    | none =>
      obtain ⟨rfl, rfl⟩ := pure_ok h
      exact ⟨none, s, hinner, nofun⟩
    | some statement =>
      obtain ⟨rfl, rfl⟩ := pure_ok h
      refine ⟨some statement, s, hinner, ?_⟩
      rintro _ ⟨⟩ hstmt
      exact value_wraps ht hc hinner hstmt
  · rintro name q args p node d rfl h
    refine ⟨fun _ hmeaning => ?_, fun hmeaning => ?_, fun hmeaning => ?_⟩
    · exact comparison_wraps hmeaning ht hc h
    · exact getInvoke_wraps hmeaning ht hc h
    · exact loop_wraps hmeaning ht hc h

def awaitX : SExpr := .list [.symbol "await" none, .symbol "x" none] none

theorem awaitX_prompt : awaitX.Prompt := by
  refine everywhere_iff.mpr ?_
  show ∀ part ∈ [Part.act .await], part.Prompt
  simp [Part.Everywhere, Part.IsPrompt]

theorem start_prompt (directory : String) (options : Options) :
    (Context.start directory options).registry.Prompt := by
  rintro default ⟨name, entry, index, hentry, -⟩
  cases hentry

def awaitingTry : SExpr :=
  .list [.symbol "try" none, awaitX,
    .list [.symbol "catch" none, .symbol "e" none, .symbol "y" none] none] none

theorem awaitingTry_prompt : awaitingTry.Prompt := by
  refine everywhere_iff.mpr ?_
  show ∀ part ∈ [Part.tree .statement awaitX], part.Prompt
  simp [Part.Everywhere, Part.IsPrompt, awaitX_prompt]

/-- What is noted for it, and the wrapper that it gets as a value. -/
theorem suspension_exact_try : awaitingTry.Prompt ∧ (Context.start "" {}).registry.Prompt ∧
    (∃ node s d, tracking (Lowering.lower awaitingTry) (Context.start "" {}) = .ok (node, s) d ∧
      s.awaits = true ∧ s.Tracks (Awaits node.toList) (Yields node.toList)) ∧
    ∃ node d statement, lowerValue Lowering.lower awaitingTry (Context.start "" {}) = .ok node d ∧
      statement.needsWrapper = true ∧
      Wraps (Awaits (returning statement)) (Yields (returning statement))
        (returning statement) statement.position node := by
  obtain ⟨htracks, hvalue, -⟩ :=
    suspension_exact awaitingTry (Context.start "" {}) awaitingTry_prompt (start_prompt "" {})
  obtain ⟨lowered, s, hlowered, hwraps⟩ := hvalue _ _ _ _ rfl rfl
  cases hlowered
  exact ⟨awaitingTry_prompt, start_prompt "" {}, ⟨_, _, _, rfl, rfl, htracks _ _ _ rfl⟩,
    _, _, _, rfl, rfl, hwraps _ rfl rfl⟩

/-- A loop without variables in which a call names the label of the loop. The `recur` is left as a call,
and the call becomes a jump without its argument. -/
def droppedAwait : SExpr :=
  .list [.symbol "loop" none, .list [] none,
    .list [.symbol "do" none, .list [.symbol "f" none, .list [.symbol "recur" none] none] none,
      .list [.symbol "loop_0" none, awaitX] none] none] none

/-- The body of the loop before the jumps. -/
def droppedAwaitBody : List Node :=
  [block [statementOf (call (ident "f") [call (ident "loop_0") []]),
      of (.returnStatement (some (call (ident "loop_0") [of (.await (ident "x"))])))]]

theorem droppedAwait_prompt : droppedAwait.Prompt := by
  have hrecur : (list [.symbol "recur" none] none).Prompt := by
    refine everywhere_iff.mpr ?_
    show ∀ part ∈ [Part.act .jump], part.Prompt
    simp [Part.Everywhere, Part.IsPrompt]
  have hcall : (list [.symbol "f" none, .list [.symbol "recur" none] none] none).Prompt := by
    refine everywhere_iff.mpr ?_
    show ∀ part ∈ [Part.tree .value (.list [.symbol "recur" none] none)], part.Prompt
    simp [Part.Everywhere, Part.IsPrompt, hrecur]
  have hnamed : (list [.symbol "loop_0" none, awaitX] none).Prompt := by
    refine everywhere_iff.mpr ?_
    show ∀ part ∈ [Part.tree .value awaitX], part.Prompt
    simp [Part.Everywhere, Part.IsPrompt, awaitX_prompt]
  have hbody : (list [.symbol "do" none,
      .list [.symbol "f" none, .list [.symbol "recur" none] none] none,
      .list [.symbol "loop_0" none, awaitX] none] none).Prompt := by
    refine everywhere_iff.mpr ?_
    show ∀ part ∈ [Part.tree .statement (.list [.symbol "f" none, .list [.symbol "recur" none] none] none),
      Part.tree .statement (.list [.symbol "loop_0" none, awaitX] none)], part.Prompt
    simp [Part.Everywhere, Part.IsPrompt, hcall, hnamed]
  refine everywhere_iff.mpr ?_
  show ∀ part ∈ [Part.tree .looped (.list [.symbol "do" none,
      .list [.symbol "f" none, .list [.symbol "recur" none] none] none,
      .list [.symbol "loop_0" none, awaitX] none] none)], part.Prompt
  simp [Part.Everywhere, Part.IsPrompt, hbody]

/-- What is left of the loop awaits nothing, and still its wrapper is awaited. -/
theorem dropped_await_wraps : droppedAwait.Prompt ∧ (Context.start "" {}).registry.Prompt ∧
    ∃ node d, Lowering.lower droppedAwait (Context.start "" {}) = .ok (some node) d ∧
      node = wrapped (loopBody "loop_0" none [] droppedAwaitBody) { awaits := true } none ∧
      ¬Wraps (Awaits (loopBody "loop_0" none [] droppedAwaitBody))
        (Yields (loopBody "loop_0" none [] droppedAwaitBody))
        (loopBody "loop_0" none [] droppedAwaitBody) none node := by
  refine ⟨droppedAwait_prompt, start_prompt "" {}, _, _, rfl, rfl, ?_⟩
  have hreturns : ¬Scan.awaiting.search.marks .returns := Scan.not_outside_marks nofun
  have hawaits : ¬Awaits (loopBody "loop_0" none [] droppedAwaitBody) := by
    rw [Awaits, loopBody, exists_mem_loopStatements Scan.awaiting.search, exists_mem_closedBody hreturns]
    have hident (name : String) : ¬Scan.awaiting.Finds ⟨.identifier name none, none⟩ :=
      Scan.awaiting.search.finds_ident
    simp [droppedAwaitBody, bodyWithJumps, withJumps, returnOptionOrJump, returnOrJump, isJumpTo, jumpTo,
      rebinding, block, of, statementOf, call, ident, typedIdent, Node.place,
      identifier?, Scan.awaiting.search.finds_block, Scan.awaiting.search.finds_expressionStatement,
      Scan.awaiting.search.finds_call, Scan.awaiting.search.finds_continue, hident]
  intro h
  cases h with
  | awaited h _ => exact hawaits h

end LispLowering
