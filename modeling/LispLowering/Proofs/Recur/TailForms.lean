import LispLowering.Proofs.Recur.Exactness

/-!
# Jumps that are accepted
-/

namespace LispLowering

open Lowering Node SExpr Nat

/-! ## Trees without jumps -/

/-- No form in the tree is a `recur`. -/
def SExpr.RecurFree (t : SExpr) : Prop := ∀ u ∈ t.subtrees, u.isForm "recur" = false

instance (t : SExpr) : Decidable t.RecurFree :=
  inferInstanceAs (Decidable (∀ u ∈ t.subtrees, u.isForm "recur" = false))

/-- Nothing is watched but that no tree is a `recur`. -/
def Watch.recurFree : Watch := .within (fun _ => True) fun u => u.isForm "recur" = false

theorem Watch.jumpless_recurFree : Watch.recurFree.Jumpless := by
  intro name q args p htree hrecur
  have hheads : ∀ entry ∈ SpecialForm.heads, entry.2 = .recur → entry.1 = "recur" := by decide
  have hname : name = "recur" := by
    unfold HeadMeaning.ofName at hrecur
    split at hrecur
    · cases hrecur
    · split at hrecur
      · next special hlookup =>
        cases hrecur
        obtain ⟨before, after, heq, -⟩ := List.lookup_eq_some_iff.mp hlookup
        exact hheads (name, .recur) (by simp [heq]) rfl
      · cases hrecur
  subst hname
  cases htree

theorem SExpr.RecurFree.suits {t : SExpr} (h : t.RecurFree) : t.Suits .recurFree :=
  suits_within fun u hu => ⟨fun _ _ => trivial, h u hu⟩

theorem SExpr.suitIn_of_recurFree (h : ∀ t ∈ trees, t.RecurFree) : SuitIn .recurFree trees :=
  suitIn_iff.mpr fun t ht => (h t ht).suits

theorem Sourced.met_eq {α : Type} {m : Lower α} {R : α → Prop} (h : Sourced .recurFree False m R)
    {c d : Context} {a : α} (hrun : m c = .ok a d) (w : Watch) : d.met w = c.met w := by
  rw [Context.met, (h.passes hrun).still Watch.jumpless_recurFree]
  rfl

/-! ## Tail forms -/

/-- A part of the body of a loop: a form, forms that make up one value, the forms of a body, or clauses of
`cond`. -/
inductive TailPart where
  | form (t : SExpr)
  | sequence (trees : List SExpr)
  | body (trees : List SExpr)
  | clauses (trees : List SExpr)

/-- In the part of a loop with `arity` variables every `recur` is in tail position, and the parts of it
without one are lowered successfully where they stand, if the part itself is lowered from the given state. -/
inductive TailForm (arity : Nat) : TailPart → Context → Prop where
  | free {t : SExpr} {c d : Context} {result : Option Node} : t.RecurFree →
      lower t c = .ok result d → TailForm arity (.form t) c
  | recur {args : List SExpr} {p q : Option Position} {c d : Context} {values : List Node} :
      args.length = arity → (∀ t ∈ args, t.RecurFree) → lowerValues lower args c = .ok values d →
      TailForm arity (.form (.list (.symbol "recur" q :: args) p)) c
  | ifThen {test consequent : SExpr} {p q : Option Position} {c d : Context} {value : Node} :
      test.RecurFree → lowerValue lower test c = .ok value d →
      TailForm arity (.form consequent) d →
      TailForm arity (.form (.list [.symbol "if" q, test, consequent] p)) c
  | ifElse {test consequent alternate : SExpr} {p q : Option Position} {c d : Context} {value : Node} :
      test.RecurFree → lowerValue lower test c = .ok value d →
      TailForm arity (.form consequent) d →
      (∀ node e, lowerBranch lower consequent d = .ok node e → TailForm arity (.form alternate) e) →
      TailForm arity (.form (.list [.symbol "if" q, test, consequent, alternate] p)) c
  | cond {clauses : List SExpr} {p q : Option Position} {c : Context} :
      TailForm arity (.clauses clauses) c →
      TailForm arity (.form (.list (.symbol "cond" q :: clauses) p)) c
  | sequence {trees : List SExpr} {p q : Option Position} {c : Context} :
      TailForm arity (.sequence trees) c →
      TailForm arity (.form (.list (.symbol "do" q :: trees) p)) c
  | binding {head : String} {kind : VariableKind} {items rest : List SExpr} {p q r : Option Position}
      {c d : Context} {declarations : List Node} :
      HeadMeaning.ofName head = .special (.binding kind) →
      (rest.length = 1 → isDestructuring (.list items r) = false) →
      (SExpr.list items r).bindingItems.length % 2 = 0 →
      (∀ t ∈ (SExpr.list items r).bindingItems, t.RecurFree) →
      lowerPairs lower kind (SExpr.list items r).bindingItems { c with scopes := [] :: c.scopes } =
        .ok declarations d →
      TailForm arity (.body rest) d →
      TailForm arity (.form (.list (.symbol head q :: .list items r :: rest) p)) c
  | single {t : SExpr} {c : Context} : TailForm arity (.form t) c → TailForm arity (.sequence [t]) c
  | several {first second : SExpr} {rest : List SExpr} {c : Context} :
      TailForm arity (.body (first :: second :: rest)) { c with scopes := [] :: c.scopes } →
      TailForm arity (.sequence (first :: second :: rest)) c
  | last {t : SExpr} {c : Context} : TailForm arity (.form t) c → TailForm arity (.body [t]) c
  | before {t : SExpr} {rest : List SExpr} {c d : Context} {statement : Option Node} : t.RecurFree →
      lowerStatement lower t c = .ok statement d →
      TailForm arity (.body rest) d → TailForm arity (.body (t :: rest)) c
  | noClause {c : Context} : TailForm arity (.clauses []) c
  | otherwise {first : SExpr} {more : List SExpr} {p q : Option Position} {c : Context} :
      TailForm arity (.sequence (first :: more)) c →
      TailForm arity (.clauses [.list (.symbol "else" q :: first :: more) p]) c
  | clause {test first : SExpr} {more rest : List SExpr} {p : Option Position} {c d : Context}
      {value : Node} :
      isElse test = false → test.RecurFree → lowerValue lower test c = .ok value d →
      TailForm arity (.sequence (first :: more)) d →
      (∀ node e, lowerSequence lower p (first :: more) d = .ok node e → TailForm arity (.clauses rest) e) →
      TailForm arity (.clauses (.list (test :: first :: more) p :: rest)) c

/-! ## Steps that account for their jumps -/

variable {α β : Type} {n arity before : Nat} {c d : Context}

/-- The step succeeds, and the jumps that it meets and the `before` ones are no more than the calls in tail
position of its result. -/
def Covers (n before : Nat) (m : Lower α) (J : α → Nat) (c : Context) : Prop :=
  ∃ a d, m c = .ok a d ∧ d.met (.loop n) + before ≤ c.met (.loop n) + J a

namespace Covers

variable {m : Lower α} {J : α → Nat} {J' : β → Nat}

theorem bind {k : α → Lower β} (hm : Covers n before m J c)
    (hk : ∀ a d, m c = .ok a d → Covers n (J a) (k a) J' d) : Covers n before (m >>= k) J' c := by
  obtain ⟨a, e, ha, hle⟩ := hm
  obtain ⟨b, d, hb, hle'⟩ := hk a e ha
  exact ⟨b, d, bind_ok_iff.mpr ⟨a, e, ha, hb⟩, by omega⟩

theorem pure {a : α} (hJ : before ≤ J a) : Covers n before (Pure.pure a) J c := ⟨a, c, rfl, by omega⟩

theorem after {k : α → Lower β} {a : α} (hrun : m c = .ok a d) (hmet : d.met (.loop n) = c.met (.loop n))
    (hk : Covers n before (k a) J' d) : Covers n before (m >>= k) J' c := by
  obtain ⟨b, e, hb, hle⟩ := hk
  exact ⟨b, e, bind_ok_iff.mpr ⟨a, d, hrun, hb⟩, by omega⟩

theorem shift (h : Covers n 0 m J c) (before : Nat) : Covers n before m (fun a => before + J a) c := by
  obtain ⟨a, d, hrun, hle⟩ := h
  exact ⟨a, d, hrun, by dsimp only; omega⟩

theorem inScope (h : Covers n before m J { c with scopes := [] :: c.scopes }) :
    Covers n before (Lower.inScope [] m) J c := by
  obtain ⟨a, d, hrun, hle⟩ := h
  refine ⟨a, { d with scopes := d.scopes.tail }, ?_, hle⟩
  simp only [Lower.inScope, Lower.within, hrun]

end Covers

namespace Lowering

abbrev CoversNode (n : Nat) (m : Lower Node) (c : Context) : Prop :=
  Covers n 0 m (ending (loopLabel n)) c

abbrev CoversOption (n : Nat) (m : Lower (Option Node)) (c : Context) : Prop :=
  Covers n 0 m (endingOption (loopLabel n)) c

abbrev CoversBody (n : Nat) (m : Lower (List Node)) (c : Context) : Prop :=
  Covers n 0 m (fun body => bodyJumps (loopLabel n) (returningAll body)) c

abbrev CoversClauses (n : Nat) (m : Lower (List CondClause)) (c : Context) : Prop :=
  Covers n 0 m (fun lowered => endingOption (loopLabel n) (chooseClause lowered)) c

end Lowering

/-! ## States below a loop -/

/-- The loop with the number `n` is the innermost one, and it has so many variables. -/
structure Context.Looping (n arity : Nat) (c : Context) : Prop extends c.Ready n where
  innermost : ∃ frame rest, c.loops = frame :: rest ∧ frame.label = loopLabel n ∧ frame.arity = arity

namespace Context.Looping

theorem passes (h : c.Looping n arity) (hpasses : c.Passes (.loop n) d) : d.Looping n arity := by
  refine ⟨h.toReady.passes hpasses, ?_⟩
  obtain ⟨frame, rest, hloops, hlabel, harity⟩ := h.innermost
  have hsame := hpasses.loops
  rw [hloops] at hsame
  cases hd : d.loops with
  | nil =>
    rw [hd] at hsame
    exact hsame.elim
  | cons frame' rest' =>
    rw [hd] at hsame
    exact ⟨frame', rest', rfl, hsame.1.trans hlabel, hsame.2.1.trans harity⟩

theorem inScope (h : c.Looping n arity) (names : List String) :
    Context.Looping n arity { c with scopes := names :: c.scopes } :=
  ⟨⟨h.helper, h.taken, h.wrapped⟩, h.innermost⟩

end Context.Looping

/-! ## Parts in tail form -/

namespace Lowering

variable {t : SExpr} {trees : List SExpr} {p q : Option Position} {head : String}

theorem coversOption_special {special : SpecialForm} (hhead : HeadMeaning.ofName head = .special special)
    (h : CoversNode n (lowerSpecial lower ⟨.list (.symbol head q :: trees) p, head, trees⟩ special) c) :
    CoversOption n (lower (.list (.symbol head q :: trees) p)) c := by
  obtain ⟨node, d, hrun, hle⟩ := h
  refine ⟨_, d, lower_special hhead hrun, ?_⟩
  rwa [endingOption, ending_orPlace]

theorem lowerRecur_covers {values : List Node} (hc : c.Looping n arity)
    (htrees : SuitIn (.loop n) trees) (hcount : trees.length = arity)
    (hfree : ∀ t ∈ trees, t.RecurFree) (hvalues : lowerValues lower trees c = .ok values d) :
    CoversNode n (lowerRecur lower ⟨.list (.symbol "recur" q :: trees) p, "recur", trees⟩) c := by
  obtain ⟨frame, rest, hloops, hlabel, harity⟩ := hc.innermost
  have hmet := (lowerValues_traced lower_sourced (suitIn_of_recurFree hfree)).sourced.met_eq hvalues (.loop n)
  have hpasses := (lowerValues_traced (H := False) lower_sourced htrees).sourced.passes hvalues
  have hcounted := met_countRecur (w := .loop n) hloops hpasses.loops p
  rw [hlabel, if_pos (Watch.mem_loop.mpr rfl)] at hcounted
  refine ⟨call ((ident frame.label).place p) values, { d with loops := countRecur p d.loops }, ?_, ?_⟩
  · rw [lowerRecur_inside hloops, if_neg (by simp [hcount, harity])]
    exact bind_ok_iff.mpr ⟨values, d, hvalues, rfl⟩
  · have hcall : (call ((ident frame.label).place p) values).ending (loopLabel n) = 1 := by
      rw [ending_of_expression rfl, hlabel]
      exact if_pos (decide_eq_true rfl)
    omega

/-! ### Branches -/

theorem lowerBranch_covers (h : CoversOption n (lower t) c) : CoversNode n (lowerBranch lower t) c := by
  refine h.bind fun result _ _ => ?_
  cases result with
  | none => exact .pure (zero_le _)
  | some node => exact .pure (le_refl _)

theorem lowerValue_free {value : Node} (hc : c.Looping n arity) (ht : t.Suits (.loop n))
    (hfree : t.RecurFree) (hrun : lowerValue lower t c = .ok value d) :
    d.Looping n arity ∧ d.met (.loop n) = c.met (.loop n) :=
  ⟨hc.passes ((lowerValue_traced (H := False) lower_sourced ht).sourced.passes hrun),
    (lowerValue_traced lower_sourced hfree.suits).sourced.met_eq hrun _⟩

theorem lowerIf_covers {test consequent : SExpr} {value : Node}
    (htest : lowerValue lower test c = .ok value d) (hmet : d.met (.loop n) = c.met (.loop n))
    (hthen : CoversOption n (lower consequent) d) :
    CoversNode n (lowerSpecial lower ⟨t, head, [test, consequent]⟩ .branch) c :=
  .after htest hmet <| (lowerBranch_covers hthen).bind fun node _ _ =>
    .pure (ending_choose value node none).ge

theorem lowerIf_covers_else {test consequent alternate : SExpr} {value : Node}
    (htest : lowerValue lower test c = .ok value d) (hmet : d.met (.loop n) = c.met (.loop n))
    (hthen : CoversOption n (lower consequent) d)
    (halternate : ∀ node e, lowerBranch lower consequent d = .ok node e →
      CoversOption n (lower alternate) e) :
    CoversNode n (lowerSpecial lower ⟨t, head, [test, consequent, alternate]⟩ .branch) c :=
  .after htest hmet <| (lowerBranch_covers hthen).bind fun node e hrun =>
    ((lowerBranch_covers (halternate node e hrun)).shift _).bind fun node' _ _ =>
      .pure (ending_choose value node (some node')).ge

theorem lowerCondClauses_covers {test first : SExpr} {more rest : List SExpr} {value : Node}
    (form : Form) (helse : isElse test = false) (htest : lowerValue lower test c = .ok value d)
    (hmet : d.met (.loop n) = c.met (.loop n))
    (hfirst : CoversNode n (lowerSequence lower p (first :: more)) d)
    (hrest : ∀ node e, lowerSequence lower p (first :: more) d = .ok node e →
      CoversClauses n (lowerCondClauses lower form rest) e) :
    CoversClauses n (lowerCondClauses lower form (.list (test :: first :: more) p :: rest)) c := by
  unfold lowerCondClauses
  dsimp only
  rw [if_neg (Bool.eq_false_iff.mp helse)]
  exact .after htest hmet <| hfirst.bind fun node e hrun =>
    ((hrest node e hrun).shift _).bind fun clauses _ _ =>
      .pure (ending_choose value node (chooseClause clauses)).ge

theorem lowerCond_covers {form : Form} (h : CoversClauses n (lowerCondClauses lower form form.args) c) :
    CoversNode n (lowerCond lower form) c := by
  refine h.bind fun clauses _ _ => ?_
  cases chooseClause clauses with
  | none => exact .pure (zero_le _)
  | some node => exact .pure (le_refl _)

/-! ### Bodies -/

theorem lowerBody_covers (h : CoversOption n (lower t) c) : CoversBody n (lowerBody lower [t]) c := by
  obtain ⟨result, d, hrun, hle⟩ := h
  have hstmt : lowerStatement lower t c = .ok (result.map asStatement) d :=
    bind_ok_iff.mpr ⟨result, d, hrun, rfl⟩
  refine ⟨(result.map asStatement).toList ++ [], d, bind_ok_iff.mpr ⟨_, d, hstmt, rfl⟩, ?_⟩
  cases result with
  | none => exact hle
  | some node =>
    show _ ≤ _ + bodyJumps _ (returning node.asStatement)
    rwa [returning_asStatement]

theorem CoversBody.front {m : Lower (List Node)} (front : List Node) (h : CoversBody n m c) :
    CoversBody n (m >>= fun body => pure (front ++ body)) c := by
  refine h.bind fun body _ _ => ?_
  by_cases hnil : body = []
  · subst hnil
    exact .pure (zero_le _)
  · refine .pure ?_
    rw [bodyJumps_returningAll_append hnil]
    exact le_add_left _ _

theorem coversNode_block {m : Lower (List Node)} (h : CoversBody n m { c with scopes := [] :: c.scopes })
    (p : Option Position) :
    CoversNode n (Lower.inScope [] m >>= fun body => pure ((block body).place p)) c :=
  h.inScope.bind fun _ _ _ => .pure (le_refl _)

theorem lowerBinding_covers {kind : VariableKind} {target : SExpr} {declarations : List Node}
    (hlist : target.items?.isSome = true) (hplain : trees.length = 1 → isDestructuring target = false)
    (heven : target.bindingItems.length % 2 = 0)
    (hpairs : lowerPairs lower kind target.bindingItems { c with scopes := [] :: c.scopes } =
      .ok declarations d)
    (hmet : d.met (.loop n) = c.met (.loop n)) (hrest : CoversBody n (lowerBody lower trees) d) :
    CoversNode n (lowerBinding lower ⟨t, head, target :: trees⟩ kind) c := by
  have hscoped : lowerBinding lower ⟨t, head, target :: trees⟩ kind =
      lowerScopedBindings lower ⟨t, head, target :: trees⟩ kind target trees := by
    cases target with
    | symbol | literal => cases hlist
    | list items r =>
      rcases trees with _ | ⟨value, _ | ⟨second, more⟩⟩
      · rfl
      · exact if_neg (Bool.eq_false_iff.mp (hplain rfl))
      · rfl
  have hbody : CoversBody n (do
      let declarations ← lowerPairs lower kind target.bindingItems
      let statements ← lowerBody lower trees
      return declarations ++ statements) { c with scopes := [] :: c.scopes } :=
    .after hpairs hmet (CoversBody.front declarations hrest)
  rw [hscoped, lowerScopedBindings, if_neg (by simpa using heven)]
  exact coversNode_block hbody _

end Lowering

/-! ## Whole parts -/

/-- The trees of the part avoid the label. -/
def TailPart.Suits (n : Nat) : TailPart → Prop
  | .form t => t.Suits (.loop n)
  | .sequence trees | .body trees | .clauses trees => SuitIn (.loop n) trees

/-- The part is lowered, and what it becomes accounts for its jumps. -/
def TailPart.Covered (n : Nat) (c : Context) : TailPart → Prop
  | .form t => CoversOption n (lower t) c
  | .sequence trees => ∀ p, CoversNode n (lowerSequence lower p trees) c
  | .body trees => CoversBody n (lowerBody lower trees) c
  | .clauses trees => ∀ form, CoversClauses n (lowerCondClauses lower form trees) c

theorem TailForm.covered {part : TailPart} (h : TailForm arity part c) (hc : c.Looping n arity)
    (hsuits : part.Suits n) : part.Covered n c := by
  induction h with
  | free hfree hrun =>
    -- no jump is met in a tree without `recur`
    have hmet := (lower_sourced.lowers False _ hfree.suits).met_eq hrun (.loop n)
    exact ⟨_, _, hrun, by omega⟩
  | recur hcount hfree hvalues =>
    exact coversOption_special (rfl : _ = HeadMeaning.special .recur)
      (lowerRecur_covers hc hsuits.itemsIn.2 hcount hfree hvalues)
  | ifThen hfree htest _ ih =>
    obtain ⟨-, htree, hthen, -⟩ := hsuits.itemsIn
    obtain ⟨hd, hmet⟩ := lowerValue_free hc htree hfree htest
    exact coversOption_special (rfl : _ = HeadMeaning.special .branch)
      (lowerIf_covers htest hmet (ih hd hthen))
  | ifElse hfree htest _ _ ih ih' =>
    obtain ⟨-, htree, hthen, halternate, -⟩ := hsuits.itemsIn
    obtain ⟨hd, hmet⟩ := lowerValue_free hc htree hfree htest
    refine coversOption_special (rfl : _ = HeadMeaning.special .branch) ?_
    refine lowerIf_covers_else htest hmet (ih hd hthen) fun node e hrun => ?_
    have hpasses := (lowerBranch_traced (H := False) lower_sourced hthen).sourced.passes hrun
    exact ih' node e hrun (hd.passes hpasses) halternate
  | cond _ ih =>
    exact coversOption_special (rfl : _ = HeadMeaning.special .cond)
      (lowerCond_covers (ih hc hsuits.itemsIn.2 _))
  | sequence _ ih =>
    exact coversOption_special (rfl : _ = HeadMeaning.special .sequence) (ih hc hsuits.itemsIn.2 _)
  | binding hhead hplain heven hfree hpairs _ ih =>
    obtain ⟨-, htarget, hrest⟩ := hsuits.itemsIn
    have hpasses := (lowerPairs_traced (H := False) lower_sourced lower_sourced _ _
      (suits_pairsOf htarget.bindingItems)).sourced.passes hpairs
    have hmet := (lowerPairs_traced lower_sourced lower_sourced _ _
      (suits_pairsOf (suitIn_of_recurFree hfree))).sourced.met_eq hpairs (.loop n)
    exact coversOption_special hhead
      (lowerBinding_covers rfl hplain heven hpairs hmet (ih ((hc.inScope []).passes hpasses) hrest))
  | single _ ih => exact fun _ => lowerBranch_covers (ih hc hsuits.1)
  | several _ ih => exact fun p => coversNode_block (ih (hc.inScope []) hsuits) p
  | last _ ih => exact lowerBody_covers (ih hc hsuits.1)
  | before hfree hrun _ ih =>
    have hpasses := (lowerStatement_traced (H := False) lower_sourced hsuits.1).sourced.passes hrun
    have hmet := (lowerStatement_traced lower_sourced hfree.suits).sourced.met_eq hrun (.loop n)
    exact .after hrun hmet (CoversBody.front _ (ih (hc.passes hpasses) hsuits.2))
  | noClause => exact fun form => .pure (le_refl _)
  | otherwise _ ih =>
    exact fun form => (ih hc hsuits.1.itemsIn.2 _).bind fun node _ _ => .pure (le_refl _)
  | clause helse hfree htest _ _ ih ih' =>
    intro form
    have hclause := hsuits.1.itemsIn
    obtain ⟨hd, hmet⟩ := lowerValue_free hc hclause.1 hfree htest
    refine lowerCondClauses_covers form helse htest hmet (ih hd hclause.2 _) fun node e hrun => ?_
    have hpasses :=
      (lowerSequence_traced (H := False) lower_sourced hsuits.1.position hclause.2).sourced.passes hrun
    exact ih' node e hrun (hd.passes hpasses) hsuits.2 form

/-! ## Loops -/

/-- The state in which the variables of a loop are lowered. -/
def Context.atLoop (c : Context) : Context :=
  { c with
    wrapperDepth := c.wrapperDepth + 1, suspension := {}, scopes := [] :: c.scopes,
    nextFresh := c.nextFresh + 1 }

/-- The variables of the loop are lowered, and its body is in tail form. -/
def TailLoop (form : Form) (c : Context) : Prop :=
  ∃ items p body bindings d, form.args = .list items p :: body ∧
    (SExpr.list items p).bindingItems.length % 2 = 0 ∧
    lowerLoopVariables lower form.position (SExpr.list items p).bindingItems c.atLoop = .ok bindings d ∧
    TailForm bindings.length (.body body)
      { d with loops := { label := loopLabel c.nextFresh, arity := bindings.length } :: d.loops }

theorem lowerLoopParts_run {label : String} {pairs body : List SExpr}
    {bindings : List LoopVariable} {statements : List Node} {frame : LoopFrame} {e : Context}
    (hvars : lowerLoopVariables lower p pairs { c with scopes := [] :: c.scopes } = .ok bindings d)
    (hbody : lowerBody lower body { d with loops := { label, arity := bindings.length } :: d.loops } =
      .ok statements e) (hframe : e.loops = frame :: d.loops) :
    lowerLoopParts lower label p pairs body c = .ok ⟨bindings, returningAll statements, frame⟩
      { e with loops := d.loops, scopes := e.scopes.tail } := by
  have hreturning : lowerReturningBody lower body
      { d with loops := { label, arity := bindings.length } :: d.loops } =
      .ok (returningAll statements) e :=
    bind_ok_iff.mpr ⟨statements, e, hbody, rfl⟩
  simp only [lowerLoopParts, Lower.inScope, Lower.within, Lower.inLoop, bind, EStateM.bind, hvars,
    hreturning, hframe]
  rfl

theorem loopOf_tailLoop {form : Form} (hhelper : c.options.numericHelper ≠ loopLabel c.nextFresh)
    (hargs : AvoidIn (loopLabel c.nextFresh) form.args) (h : TailLoop form c) :
    ∃ parts suspension d, LoopOf form c parts suspension d ∧
      bodyJumps (loopLabel c.nextFresh) parts.body = parts.frame.recurs := by
  obtain ⟨items, p, body, bindings, d, hform, heven, hvars, hbody⟩ := h
  rw [hform] at hargs
  obtain ⟨htarget, hsuits⟩ : SuitIn (.loop c.nextFresh) (.list items p :: body) := hargs.suitIn
  have hstart : c.atLoop.Ready c.nextFresh := ⟨hhelper, lt_succ_self _, succ_ne_zero _⟩
  have hready := hstart.passes ((lowerLoopVariables_traced (H := True) lower_sourced Watch.known_only _
    htarget.bindingItems).sourced.passes hvars)
  have hlooping : Context.Looping c.nextFresh bindings.length
      { d with loops := { label := loopLabel c.nextFresh, arity := bindings.length } :: d.loops } :=
    ⟨⟨hready.helper, hready.taken, hready.wrapped⟩, _, _, rfl, rfl, rfl⟩
  obtain ⟨statements, e, hrun, hle⟩ := hbody.covered hlooping hsuits
  obtain ⟨frame, hframe, hmet, hle', -, -⟩ := lowerBody_inLoop hready hsuits hrun
  -- The frame has no jump at first, and then as many as the body has calls in tail position.
  have hnone : Context.met (.loop c.nextFresh)
      { d with loops := { label := loopLabel c.nextFresh, arity := bindings.length } :: d.loops } = 0 := by
    simp [Context.met]
  have hpairs : loopPairs form (.list items p) c = .ok (SExpr.list items p).bindingItems c := by
    simp only [loopPairs, items?, heven]
    rfl
  have hparts := lowerLoopParts_run (p := form.position)
    (c := { c with wrapperDepth := c.wrapperDepth + 1, suspension := {}, nextFresh := c.nextFresh + 1 })
    hvars hrun hframe
  refine ⟨⟨bindings, returningAll statements, frame⟩, e.suspension, { e with
    loops := d.loops, scopes := e.scopes.tail, wrapperDepth := e.wrapperDepth - 1,
    suspension := c.suspension.union e.suspension }, ⟨_, body, _, hform, hpairs, ?_⟩, ?_⟩
  · simp only [Lower.inExpression, Lower.tracking, Lower.within, hparts]
  · dsimp only at hle ⊢
    omega

/-- A loop in which every `recur` is in tail position, and whose other parts are lowered where they stand, is
lowered. No symbol and no key of a parameter map may give its label, nor the name of the helper for calls of
numbers. -/
theorem tail_recur_accepted {form : Form} (hhelper : c.options.numericHelper ≠ loopLabel c.nextFresh)
    (hargs : SExpr.AvoidIn (loopLabel c.nextFresh) form.args) (h : TailLoop form c) :
    ∃ node d, lowerLoop lower form c = .ok node d := by
  obtain ⟨parts, suspension, d, hloop, hall⟩ := loopOf_tailLoop hhelper hargs h
  have hrun := lowerLoop_of_parts hloop
  rw [if_neg (not_not.mpr hall)] at hrun
  exact ⟨_, d, hrun⟩

/-- A loop with a `recur` in a scoped binding of a clause, and another one in a branch behind a statement. -/
def windingLoop : Form :=
  loopForm [.list [.symbol "i" none, .symbol "x" none] none, .list [.symbol "g" none] none,
    .list [.symbol "cond" none, .list [.list [.symbol "f" none, .symbol "i" none] none,
        .list [.symbol "let" none, .list [.symbol "k" none, .symbol "i" none] none,
          .list [.symbol "recur" none, .symbol "k" none] none] none] none,
      .list [.symbol "else" none, .list [.symbol "h" none] none,
        .list [.symbol "if" none, .symbol "i" none, .list [.symbol "recur" none, .symbol "y" none] none,
          .symbol "i" none] none] none] none]

theorem tail_recur_accepted_winding : TailLoop windingLoop (Context.start "" {}) ∧
    ∃ node d, lowerLoop lower windingLoop (Context.start "" {}) = .ok node d := by
  have hloop : TailLoop windingLoop (Context.start "" {}) := by
    refine ⟨_, _, _, _, _, rfl, rfl, rfl, .before (by decide) rfl (.last (.cond (.clause rfl (by decide) rfl
      (.single (.binding rfl (fun _ => rfl) rfl (by decide) rfl (.last (.recur rfl (by decide) rfl))))
      fun _ e hrun => ?_)))⟩
    cases hrun
    refine .otherwise (.several (.before (by decide) rfl (.last
      (.ifElse (by decide) rfl (.recur rfl (by decide) rfl) fun _ e hrun => ?_))))
    cases hrun
    exact .free (by decide) rfl
  exact ⟨hloop, tail_recur_accepted (by decide) (SExpr.avoidIn_of_spelled (by decide +kernel)) hloop⟩

end LispLowering
