import LispLowering.Proofs.Recur.Shapes

/-!
# Shapes of forms
-/

namespace LispLowering

open Lowering Node SExpr

variable {operands : List Node}

/-- The form may have the value of a form inside it, or it is a jump itself. -/
def SpecialForm.canEnd : SpecialForm → Bool
  | .binding _ | .branch | .cond | .sequence | .recur | .quasiquote | .operator _ => true
  | _ => false

/-- The node of the form has one shape, whatever its arguments become, and it is no access. -/
def SpecialForm.isPlain : SpecialForm → Bool
  | .returning | .switching | .label | .loop | .methodCall | .getInvoke | .quote | .get | .propertyGet => false
  | special => !special.canEnd

/-- The node is no access, and no statement around one. -/
def NodeKind.isRoot : NodeKind → Bool
  | .member _ _ _ | .optionalMember _ _ _ _ | .expressionStatement _ => false
  | _ => true

/-- The node has no call in tail position, and it is no access. -/
structure Node.Settled (node : Node) : Prop where
  flat (n : Nat) : node.Flat n
  root : node.kind.isRoot = true

theorem Node.Settled.inert {node : Node} (h : node.kind.isInert = true) (hroot : node.kind.isRoot = true) :
    node.Settled :=
  ⟨fun _ => .inert h, hroot⟩

theorem Node.Settled.wrapped (body : List Node) (suspension : Suspension) (p : Option Position) :
    (wrapped body suspension p).Settled := by
  refine ⟨fun _ => .wrapped _ _ _, ?_⟩
  unfold Node.wrapped
  split
  · rfl
  · dsimp only
    split <;> rfl

namespace Lowering

variable {n : Nat} {lower : Lowerer} {form : Form} {trees : List SExpr} {special : SpecialForm}

/-- If the step succeeds, its node has no call in tail position, whatever is in it. -/
abbrev Inert (m : Lower Node) : Prop := Ensures m fun node => node.kind.isInert = true

/-! ## Operators -/

theorem lowerValues_ensures (trees : List SExpr) :
    Ensures (lowerValues lower trees) fun values => values.length = trees.length :=
  fun _ _ _ hrun => each_length hrun

variable {join : Node → Node → Node} {p : Option Position} {node : Node}

theorem joinLeft_cases (h : joinLeft join p operands = some node) :
    operands = [node] ∨ ∃ left right, node = (join left right).place p := by
  have hfold (left right : Node) (rest : List Node) : ∃ left' right',
      rest.foldl (fun left right => (join left right).place p) ((join left right).place p) =
        (join left' right').place p := by
    induction rest generalizing left right with
    | nil => exact ⟨left, right, rfl⟩
    | cons next rest ih => exact ih _ _
  rcases operands with _ | ⟨first, _ | ⟨second, rest⟩⟩
  · cases h
  · cases h
    exact .inl rfl
  · obtain ⟨left, right, hnode⟩ := hfold first second rest
    cases h
    exact .inr ⟨left, right, hnode⟩

theorem joinRight_cases (h : joinRight join p operands = some node) :
    operands = [node] ∨ ∃ left right, node = (join left right).place p := by
  cases operands with
  | nil => cases h
  | cons first rest =>
    unfold joinRight at h
    cases hright : joinRight join p rest with
    | none =>
      rw [hright] at h
      cases h
      -- nothing comes of the rest only if it is empty
      cases rest with
      | nil => exact .inl rfl
      | cons second rest =>
        unfold joinRight at hright
        split at hright <;> cases hright
    | some right =>
      rw [hright] at h
      cases h
      exact .inr ⟨first, right, rfl⟩

theorem joined_settled {combine : List Node → Option Node} {default : Node}
    (hcases : ∀ operands node, combine operands = some node →
      operands = [node] ∨ ∃ left right, node = (join left right).place p)
    (hjoin : ∀ left right, ((join left right).place p).Settled) (hdefault : default.Settled)
    (hcount : trees.length ≠ 1) :
    Ensures (lowerValues lower trees >>= fun operands => pure ((combine operands).getD default))
      Settled := by
  refine .bind (lowerValues_ensures trees) fun operands hlength => .pure ?_
  cases hresult : combine operands with
  | none => exact hdefault
  | some node =>
    rcases hcases operands node hresult with rfl | ⟨left, right, rfl⟩
    -- a single operand is not joined to anything, so it would be the node itself
    · exact absurd hlength.symm hcount
    · exact hjoin left right

theorem settled_undefined : undefined.Settled := ⟨fun _ => flat_undefined none, rfl⟩

theorem lowerJoined_settled (op : BinaryOp) (hcount : form.args.length ≠ 1) :
    Ensures (lowerJoined lower form op) Settled :=
  joined_settled (fun _ _ => joinLeft_cases) (fun _ _ => .inert rfl rfl) settled_undefined hcount

theorem lowerLogical_settled (op : LogicalOp) (identity : Bool) (hcount : form.args.length ≠ 1) :
    Ensures (lowerLogical lower form op identity) Settled :=
  joined_settled (fun _ _ => joinLeft_cases) (fun _ _ => .inert rfl rfl) (.inert rfl rfl) hcount

theorem compareFrom_ensures (op : BinaryOp) (p : Option Position) (left : Node) (operands : List Node) :
    Ensures (compareFrom op p left operands) fun chain => ∀ test ∈ chain.tests, test.Settled := by
  have htest (left right : Node) : ((binary op left right).place p).Settled := .inert rfl rfl
  induction operands using List.twoStepInduction generalizing left with
  | nil => exact .pure (by simp)
  | singleton last => exact .pure (List.forall_mem_singleton.mpr (htest left last))
  | cons_cons operand next rest _ ih =>
    refine .ite ?_ (.after fun name => ?_)
    · exact .bind (ih next operand) fun _ htests => .pure (List.forall_mem_cons.mpr ⟨htest _ _, htests⟩)
    · exact .bind (ih next ((ident name).place p)) fun _ htests =>
        .pure (List.forall_mem_cons.mpr ⟨htest _ _, htests⟩)

theorem settled_comparisonValue (p : Option Position) (suspension : Suspension) {chain : Comparisons}
    (h : ∀ test ∈ chain.tests, test.Settled) : (comparisonValue p suspension chain).Settled := by
  have hvalue : ((joinLeft (logical .and) p chain.tests).getD ((Node.bool true).place p)).Settled := by
    cases hjoin : joinLeft (logical .and) p chain.tests with
    | none => exact .inert rfl rfl
    | some node =>
      rcases joinLeft_cases hjoin with hsingle | ⟨left, right, rfl⟩
      · exact h node (by simp [hsingle])
      · exact .inert rfl rfl
  unfold comparisonValue
  split
  · exact hvalue
  · exact .wrapped _ _ _

theorem lowerComparison_settled (op : BinaryOp) : Ensures (lowerComparison lower form op) Settled := by
  refine .after fun result => ?_
  obtain ⟨operands, suspension⟩ := result
  cases operands with
  | nil => exact .pure (.inert rfl rfl)
  | cons first rest =>
    exact .bind (compareFrom_ensures op _ first rest) fun _ htests =>
      .pure (settled_comparisonValue _ _ htests)

theorem withAtLeast_ensures {α : Type} {least : Nat} {action : Lower α} {U : α → Prop}
    (h : least ≤ form.args.length → Ensures action U) : Ensures (withAtLeast form least action) U := by
  unfold withAtLeast
  split
  · exact .refuse _
  · exact h (by omega)

/-- The operand of an operator that leaves a single operand as it is. -/
def only? : Operator → List SExpr → Option SExpr
  | .multiply, [arg] | .and, [arg] | .or, [arg] => some arg
  | _, _ => none

/-- The tree after a head that passes the test, in a list of two that stands alone. -/
def headed? (test : SExpr → Bool) : List SExpr → Option SExpr
  | [tree] =>
    match tree.items? with
    | some [head, inner] => if test head then some inner else none
    | _ => none
  | _ => none

theorem headed?_eq_some {test : SExpr → Bool} {t : SExpr} (h : headed? test trees = some t) :
    ∃ head p, trees = [.list [head, t] p] ∧ test head = true := by
  unfold headed? at h
  split at h
  · next tree =>
    split at h
    · next hitems =>
      split at h <;> cases h
      cases tree <;> cases hitems
      exact ⟨_, _, rfl, ‹_›⟩
    · cases h
  · cases h

/-- The tree that is unquoted in a quasiquotation of nothing else. -/
def unquoted? : List SExpr → Option SExpr := headed? fun head => QuoteMark.ofHead head = .unquote

/-- The step gives a settled node, or it lowers the given tree to its value. -/
def SettledOr (lower : Lowerer) (m : Lower Node) : Option SExpr → Prop
  | none => Ensures m Settled
  | some t => m = lowerValue lower t

theorem lowerOperator_settledOr (op : Operator) :
    SettledOr lower (lowerOperator lower form op) (only? op form.args) := by
  have hunary (op : UnaryOp) (arg : SExpr) :
      Ensures (do return Node.unary op (← lowerValue lower arg)) Settled :=
    .after fun _ => .pure (.inert rfl rfl)
  obtain ⟨node, name, args⟩ := form
  cases op with
  | add | subtract | multiply =>
    rcases args with _ | ⟨arg, _ | ⟨_, _⟩⟩
    · first | exact Ensures.pure (.inert rfl rfl) | exact Ensures.refuse _
    · first | exact hunary _ arg | exact rfl
    · exact lowerJoined_settled _ (by simp)
  | divide | remainder => exact withAtLeast_ensures fun _ => lowerJoined_settled _ (by omega)
  | power =>
    exact withAtLeast_ensures fun _ =>
      joined_settled (fun _ _ => joinRight_cases) (fun _ _ => .inert rfl rfl) settled_undefined (by omega)
  | comparison op => exact withAtLeast_ensures fun _ => lowerComparison_settled op
  | and | or =>
    rcases args with _ | ⟨arg, _ | ⟨_, _⟩⟩
    · exact lowerLogical_settled _ _ (by simp)
    -- one operand is the value of the form, whatever the operator is
    · simp [SettledOr, only?, lowerOperator, lowerLogical, lowerValues, Lower.each, joinLeft]
    · exact lowerLogical_settled _ _ (by simp)
  | nullish => exact withAtLeast_ensures fun _ => lowerLogical_settled _ _ (by omega)
  | relation op =>
    rcases args with _ | ⟨left, _ | ⟨right, _ | ⟨_, _⟩⟩⟩
    · exact Ensures.refuse _
    · exact Ensures.refuse _
    · exact Ensures.after fun _ => .after fun _ => .pure (.inert rfl rfl)
    · exact Ensures.refuse _
  | unary op =>
    rcases args with _ | ⟨arg, _ | ⟨_, _⟩⟩
    · exact Ensures.refuse _
    · exact hunary op arg
    · exact Ensures.refuse _

theorem suits_of_only {op : Operator} (hargs : SuitIn (.loop n) trees) (ht : only? op trees = some t) :
    t.Suits (.loop n) := by
  unfold only? at ht
  split at ht <;> cases ht <;> exact hargs.1

/-! ## Quotation -/

theorem inert_quoted (t : SExpr) : (quoted t).kind.isInert = true := by
  cases t <;> rfl

theorem lowerQuasiquote_settledOr : SettledOr lower (lowerQuasiquote lower form) (unquoted? form.args) := by
  have harray {α : Type} {m : Lower α} {elements : α → List Node} {p : Option Position} :
      Ensures (m >>= fun a => pure ((array (elements a)).place p)) Settled :=
    .after fun _ => .pure (.inert rfl rfl)
  obtain ⟨node, name, args⟩ := form
  rcases args with _ | ⟨tree, _ | ⟨_, _⟩⟩
  · exact Ensures.refuse _
  · cases tree with
    | symbol | literal => exact Ensures.pure (.inert rfl rfl)
    | list items p =>
      rcases items with _ | ⟨head, _ | ⟨inner, _ | ⟨_, _⟩⟩⟩
      · exact harray
      · exact harray
      · simp only [lowerQuasiquote, quasi, unquoted?, headed?, SExpr.items?]
        split
        · next hmark => simp [SettledOr, hmark]
        · next hmark => simpa [SettledOr, hmark] using harray
        · next hmark => simpa [SettledOr, hmark] using Ensures.refuse _
        · next hmark => simpa [SettledOr, hmark] using harray
      · exact harray
  · exact Ensures.refuse _

theorem suits_of_unquoted (hargs : SuitIn (.loop n) trees) (ht : unquoted? trees = some t) :
    t.Suits (.loop n) := by
  obtain ⟨head, p, rfl, -⟩ := headed?_eq_some ht
  exact hargs.1.itemsIn.2.1

/-! ## Calls and jumps -/

theorem lowerCallOf_shaped (h : LowersClear n lower) (node : SExpr) {callee : Node}
    (hcallee : callee.identifier? ≠ some (loopLabel n)) (ht : SuitIn (.loop n) trees) :
    Shaped n (lowerCallOf lower node callee trees) (Flat n) := by
  unfold lowerCallOf
  split
  -- with a number as its only argument it is a call of the helper, which is not the label
  · exact .get fun c hc => .pure (.call (unnamed_ident hc.helper _) _ _ _)
  · exact .bind (.any (H := True) (lowerArguments_traced h.sourced ht).sourced) fun _ _ =>
      .pure (.call hcallee _ _ _)

theorem lowerMethodCall_flat (node : SExpr) (method : String) :
    Ensures (lowerMethodCall lower node method trees) (Flat n) := by
  cases trees with
  | nil => exact .refuse _
  | cons receiver rest =>
    refine .after fun _ => .after fun _ => .pure (.call ?_ _ _ _)
    exact (Option.some_ne_none _).symm

theorem lowerNamedCall_shaped (h : LowersClear n lower) (node : SExpr) {text : String}
    (htext : ¬Symbol.Gives text (loopLabel n)) (head : Option Position)
    (ht : SuitIn (.loop n) trees) :
    Shaped n (lowerNamedCall lower node text head trees) (Flat n) := by
  have hname : Symbol.identifier text ≠ loopLabel n := fun heq => htext (heq ▸ .identifier)
  unfold lowerNamedCall
  cases methodName? text with
  | some method =>
    exact .of_sourced (H := True) (lowerMethodCall_traced h.sourced method Watch.known_only ht).sourced
      (lowerMethodCall_flat node method)
  | none =>
    -- what is remembered of a function matters for its arguments, and not for the shape
    refine .bind (.any (w := .loop n) (H := True) (declaredFunction?_traced text : Traced _ lower _ _ _ _ _).sourced) fun entry _ => ?_
    cases entry with
    | some entry =>
      have hgiven : Sourced (.loop n) False
          (DeclaredCall.arguments ⟨Symbol.identifier text, entry, node⟩ lower trees)
          (AllowedIn (.loop n)) :=
        (DeclaredCall.arguments_traced h.sourced _ Watch.known_only ht False.elim).sourced
      exact .bind (.any hgiven) fun _ _ => .pure (.call (unnamed_ident hname _) _ _ _)
    | none =>
      have hsilent : (Watch.loop n).Silent text := Watch.silent_only htext
      have href := reference_sourced hsilent (.inl rfl) (Watch.known_only (p := head))
      exact .bind (.ofExcept href) fun _ hcallee =>
        lowerCallOf_shaped h node (Lacks.identifier?_ne hcallee.allowed.lacks) ht

theorem lowerApplied_shaped (h : LowersClear n lower) (node : SExpr) {head : SExpr}
    (hhead : head.Suits (.loop n)) (ht : SuitIn (.loop n) trees) :
    Shaped n (lowerApplied lower node head trees) (Flat n) :=
  .bind (lowerValue_shaped h hhead) fun _ hcallee => lowerCallOf_shaped h node hcallee.unnamed ht

theorem lowerRecur_sound : Ensures (lowerRecur lower form) (Sound n) := by
  intro c node d hrun
  obtain ⟨frame, rest, arguments, e, -, -, -, -, rfl⟩ := lowerRecur_ok hrun
  exact ⟨(Option.some_ne_none _).symm, fun _ => NodeKind.noConfusion, rfl⟩

theorem leaveWith_shaped (value : Option Node) : Shaped n (leaveWith form value) (Flat n) := by
  refine .get fun c hc => ?_
  rw [if_neg hc.wrapped]
  intro _ node d _ hrun
  obtain ⟨_, _, hset, hrun⟩ := bind_ok hrun
  cases hset
  obtain ⟨rfl, rfl⟩ := pure_ok hrun
  exact ⟨⟨hc.helper, hc.taken, hc.wrapped⟩, .inert rfl⟩

theorem lowerReturn_shaped (h : LowersClear n lower) (hargs : SuitIn (.loop n) form.args) :
    Shaped n (lowerReturn lower form) (Flat n) := by
  have hreturn {form : Form} {arg : Option SExpr} (harg : ∀ t ∈ arg, t.Suits (.loop n)) :
      Shaped n (lowerReturnOf lower form arg) (Flat n) := by
    exact .get fun c _ => .ite (.refuse _) <|
      .bind (.any (H := True) (lowerOption_traced h.sourced harg).sourced) fun value _ => leaveWith_shaped value
  obtain ⟨node, name, args⟩ := form
  rcases args with _ | ⟨arg, _ | ⟨_, _⟩⟩
  · exact hreturn (by simp)
  · exact hreturn (forall_some hargs.1)
  · exact .refuse _

theorem lowerLoop_flat : Ensures (lowerLoop lower form) (Flat n) := by
  unfold lowerLoop
  split
  · exact .refuse _
  · exact .after fun _ => .after fun _ => .after fun _ => .ite (.refuse _) (.pure (.wrapped _ _ _))

theorem lowerPropertyCall_flat : Ensures (lowerPropertyCall lower form) (Flat n) := by
  unfold lowerPropertyCall
  split
  · refine .after fun _ => .after fun _ => .after fun _ => .pure (.call ?_ _ _ _)
    unfold propertyAccess
    split <;> exact (Option.some_ne_none _).symm
  · exact .refuse _

theorem lowerGetInvoke_flat : Ensures (lowerGetInvoke lower form) (Flat n) := by
  unfold lowerGetInvoke
  split
  · exact .after fun _ => .after fun _ => .after fun _ => .after fun _ => .pure (.wrapped _ _ _)
  · exact .refuse _

/-! ## Special forms -/

theorem lowerSpecial_settled (h : special.isPlain = true) :
    Ensures (lowerSpecial lower form special) Settled := by
  cases special with
  | binding | branch | cond | sequence | recur | quasiquote | operator | returning | switching | label | loop
  | methodCall | getInvoke | quote | get | propertyGet => cases h
  | unquote => exact .refuse _
  | _ =>
    -- each way through one of these forms ends in a node of one shape
    simp only [lowerSpecial, lowerAssignment, lowerFunction, lowerFunctionParts, lowerAsync, lowerAsyncTarget,
      lowerArrow, arrowOf, lowerYield, lowerYieldOf, lowerAwait, lowerTry, lowerThrow, lowerFor, lowerForOf, lowerForIn,
      lowerWhile, lowerJump, lowerEmpty, lowerConstruct, lowerSpread, lowerPropertySet, lowerTypeAlias,
      lowerTypeAssertion, lowerEnum, lowerImport, importFrom, lowerDynamicImport, lowerExport, exportDeclaration]
    repeat' first
      | exact .refuse _
      | (refine .pure ?_; exact .inert rfl rfl)
      | refine .ite ?_ ?_
      | refine .after fun _ => ?_
      | split

theorem lowerSpecial_flat {R : Node → Prop} (h : LowersClear n lower)
    (hargs : SuitIn (.loop n) form.args)
    (hsourced : Sourced (.loop n) True (lowerSpecial lower form special) R)
    (hend : special.canEnd = false) : Shaped n (lowerSpecial lower form special) (Flat n) := by
  have hflat (hnode : Ensures (lowerSpecial lower form special) (Flat n)) :
      Shaped n (lowerSpecial lower form special) (Flat n) := .of_sourced hsourced hnode
  have hinert (hnode : Inert (lowerSpecial lower form special)) :
      Shaped n (lowerSpecial lower form special) (Flat n) := hflat (hnode.imp fun _ => .inert)
  cases special with
  | binding | branch | cond | sequence | recur | quasiquote | operator => cases hend
  | returning => exact lowerReturn_shaped h hargs
  | switching => exact lowerSwitch_shaped h hargs
  | label => exact lowerLabel_shaped h hargs
  | loop => exact hflat lowerLoop_flat
  | methodCall => exact hflat lowerPropertyCall_flat
  | getInvoke => exact hflat lowerGetInvoke_flat
  | quote =>
    refine hinert ?_
    simp only [lowerSpecial, lowerQuote]
    split
    · exact .pure (inert_quoted _)
    · exact .refuse _
  | get | propertyGet =>
    refine hinert ?_
    simp only [lowerSpecial, lowerGet, lowerPropertyGet, propertyAccess]
    repeat' first
      | exact .refuse _
      | exact .pure rfl
      | refine .after fun _ => ?_
      | split
  | _ => exact hflat ((lowerSpecial_settled rfl).imp fun _ hsettled => hsettled.flat n)

/-! ## Symbols -/

theorem lowerSymbol_shaped {E : Diagnostic → Prop} {name : String}
    (href : Answered E (Anchored (.loop n)) (reference name p)) :
    Shaped n (Lower.ofExcept (reference name p)) (Flat n) := by
  refine .ofExcept (href.imp (fun _ => id) fun _ hnode hanchored => ?_)
  have hlacks := hanchored.allowed.lacks
  -- only an identifier could be the label
  cases reference_referred hnode with
  | identifier => exact ⟨⟨Lacks.identifier?_ne hlacks, fun _ => NodeKind.noConfusion, rfl⟩, rfl⟩
  | literal | thisValue | member | optionalMember | index | spread => exact .inert rfl

end Lowering

end LispLowering
