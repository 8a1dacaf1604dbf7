import LispLowering.Proofs.Recur.Tails

/-!
# Forms in tail position
-/

namespace LispLowering

open Node SExpr

variable {m : Lower Node} {p : Option Position}
  {result : Option Node}

/-! ## Trees in tail position -/

/-- The tree stands for nothing. -/
def SExpr.isDropped : SExpr → Bool
  | .list (.symbol name _ :: _) _ =>
    match HeadMeaning.ofName name with
    | .dropped => true
    | _ => false
  | _ => false

namespace Lowering

/-- The form that is the value of a body: only forms that stand for nothing come behind it. -/
def bodyTail : List SExpr → List SExpr
  | [] => []
  | t :: rest => if rest.all isDropped then [t] else bodyTail rest

def clauseTail : SExpr → List SExpr
  | .list (_ :: body) _ => bodyTail body
  | _ => []

end Lowering

open Lowering in
/-- The parts of a form that are in tail position if the form is. -/
def SpecialForm.tails : SpecialForm → List SExpr → List SExpr
  | .branch, _ :: branches => branches
  | .cond, clauses => clauses.flatMap clauseTail
  | .sequence, body => bodyTail body
  | .binding _, .list items p :: rest =>
    if rest.length = 1 ∧ isDestructuring (.list items p) then [] else bodyTail rest
  | .quasiquote, args => (unquoted? args).toList
  | .operator op, args => (only? op args).toList
  | _, _ => []

/-- A form of this kind is a `recur` itself. -/
def SpecialForm.recurs : SpecialForm → Nat
  | .recur => 1
  | _ => 0

namespace SExpr

/-- The `recur` forms of a tree in tail position, if those of smaller trees are known. -/
def tailCount (below : SExpr → Nat) : SExpr → Nat
  | .list (.symbol name _ :: args) _ =>
    match HeadMeaning.ofName name with
    | .special special => ((special.tails args).map below).sum + special.recurs
    | _ => 0
  | _ => 0

def tailRecursWithin : Nat → SExpr → Nat
  | 0, _ => 0
  | n + 1, t => t.tailCount (tailRecursWithin n)

/-- How many `recur` forms of a tree are in tail position. -/
def tailRecurs (t : SExpr) : Nat := t.tailRecursWithin t.depth

end SExpr

/-! ## Bounded nodes -/

namespace Node

variable {n k k' : Nat}

/-- The node is sound, and it has at most so many calls of the label in tail position. -/
structure Bounded (n k : Nat) (node : Node) : Prop extends Sound n node where
  ending_le : node.ending (loopLabel n) ≤ k

def BoundedOption (n k : Nat) : Option Node → Prop
  | none => True
  | some node => node.Bounded n k

theorem Flat.bounded {node : Node} (h : node.Flat n) (k : Nat) : node.Bounded n k :=
  ⟨h.toSound, h.ending.le.trans k.zero_le⟩

theorem BoundedOption.sound (h : BoundedOption n k result) : SoundOption n result := by
  cases result with
  | none => trivial
  | some node => exact h.toSound

theorem BoundedOption.ending_le (h : BoundedOption n k result) :
    endingOption (loopLabel n) result ≤ k := by
  cases result with
  | none => exact k.zero_le
  | some node => exact Bounded.ending_le h

theorem Bounded.choose {consequent : Node} (h : consequent.Bounded n k) (test : Node)
    (helse : BoundedOption n k' result) : (choose test consequent result).Bounded n (k + k') := by
  refine ⟨Lowering.sound_choose test h.toSound helse.sound, ?_⟩
  rw [ending_choose]
  exact Nat.add_le_add h.ending_le helse.ending_le

end Node

/-! ## Steps -/

def Node.TailedOption (label : String) (arity : Nat) (node : Option Node) : Prop :=
  ∀ one ∈ node, Tailed label arity one

/-- The step gives a node with at most `k` calls in tail position, or nothing, and the jumps that it meets
make up for these calls. -/
abbrev TalliedOption (n arity k : Nat) (m : Lower (Option Node)) : Prop :=
  Tallied n arity 0 m (BoundedOption n k) (endingOption (loopLabel n))
    (TailedOption (loopLabel n) arity)

/-- How trees are lowered: from a tree that avoids the label, the jumps that are met make up for the calls
in tail position. There are at most as many of them as is said of the tree. -/
structure LowersTallied (n arity : Nat) (k : SExpr → Nat) (lower : Lowerer) : Prop where
  sourced : LowersSourced (.loop n) lower
  tallied : ∀ t, t.Suits (.loop n) → TalliedOption n arity (k t) (lower t)
  kept : ∀ t c result d, lower t c = .ok result d → (result = none ↔ t.isDropped = true)

theorem LowersTallied.clear {n arity : Nat} {k : SExpr → Nat} (h : LowersTallied n arity k lower) :
    LowersClear n lower := by
  refine ⟨h.sourced, fun t ht c result d hc hrun => ?_⟩
  obtain ⟨hd, hbounded⟩ := (h.tallied t ht).shaped c result d hc hrun
  exact ⟨hd, hbounded.sound⟩

namespace Lowering

variable {n arity bound : Nat} {k : SExpr → Nat} {lower : Lowerer} {form : Form} {t : SExpr}
  {trees : List SExpr}

/-- The step gives a node with at most `bound` calls in tail position, and the jumps that it meets make up
for them. -/
abbrev TalliedSound (n arity bound : Nat) (m : Lower Node) : Prop :=
  Tallied n arity 0 m (Bounded n bound) (ending (loopLabel n)) (Tailed (loopLabel n) arity)

/-- The same of the statements of a body. -/
abbrev TalliedBody (n arity bound : Nat) (m : Lower (List Node)) : Prop :=
  Tallied n arity 0 m
    (fun body => Still n body ∧ bodyJumps (loopLabel n) (returningAll body) ≤ bound)
    (fun body => bodyJumps (loopLabel n) (returningAll body)) (TailedIn (loopLabel n) arity)

theorem tallied_of_flat (hs : Sourced (.loop n) True m (Pending (.loop n)))
    (hU : Shaped n m (Flat n)) : TalliedSound n arity bound m := by
  intro c a d hc hrun
  have hclear : Clear n m (Flat n) (Lacks (loopLabel n)) := .of_sourced hs hU fun _ hnode => hnode.lacks
  have htallied : Tallied n arity 0 m (Flat n) (ending (loopLabel n))
      (Tailed (loopLabel n) arity) :=
    .of_clear hclear (fun _ hflat => hflat.ending) fun _ _ => .lacks
  obtain ⟨hpasses, hflat, hrest⟩ := htallied.run hrun hc
  exact ⟨hpasses, hflat.bounded bound, hrest⟩

/-! ## Before tail position -/

theorem lackOption_of_anchored (h : ∀ node ∈ result, node.Anchored (.loop n)) :
    LackOption (loopLabel n) result := by
  cases result with
  | none => trivial
  | some node => exact (h node rfl).allowed.lacks

theorem lowerValue_clear (h : LowersClear n lower) (ht : t.Suits (.loop n)) :
    Clear n (lowerValue lower t) (Sound n) (Lacks (loopLabel n)) :=
  .of_sourced (lowerValue_traced h.sourced ht).sourced (lowerValue_shaped h ht)
    fun _ hvalue => hvalue.allowed.lacks

theorem lowerStatement_clear (h : LowersClear n lower) (ht : t.Suits (.loop n)) :
    Clear n (lowerStatement lower t) (fun first => Still n first.toList)
      fun first => LackIn (loopLabel n) first.toList :=
  .of_sourced (lowerStatement_traced h.sourced ht).sourced (lowerStatement_shaped h ht)
    fun _ hfirst => hfirst.lackIn

theorem lowerPairs_clear (h : LowersClear n lower) (kind : VariableKind) (ht : SuitIn (.loop n) trees) :
    Clear n (lowerPairs lower kind trees) (fun nodes => ∀ node ∈ nodes, node.kind.isInert = true)
      (LackIn (loopLabel n)) :=
  .of_ensures (lowerPairs_traced h.sourced h.sourced kind trees (suits_pairsOf ht)).sourced (lowerPairs_ensures kind trees)
    fun _ hnodes => hnodes.lackIn

/-! ## Values and bodies -/

theorem valueOf_cases (h : SoundOption n result)
    (p : Option Position) (suspension : Suspension) :
    ((valueOf p suspension result).ending (loopLabel n) = endingOption (loopLabel n) result ∧
      (TailedOption (loopLabel n) arity result →
        (valueOf p suspension result).Tailed (loopLabel n) arity)) ∨
    ((valueOf p suspension result).ending (loopLabel n) = 0 ∧ (LackOption (loopLabel n) result →
        (valueOf p suspension result).Tailed (loopLabel n) arity)) := by
  cases result with
  | none => exact .inr ⟨rfl, fun _ => .lacks ⟨trivial, trivial⟩⟩
  | some node =>
    have hsame (heq : node.asExpression suspension = node) :
        (node.asExpression suspension).ending (loopLabel n) = node.ending (loopLabel n) ∧
          (TailedOption (loopLabel n) arity (some node) →
            (node.asExpression suspension).Tailed (loopLabel n) arity) := by
      rw [heq]
      exact ⟨rfl, fun htailed => htailed node rfl⟩
    -- a wrapper around the node names nothing else
    have hlacks (hnode : node.Lacks (loopLabel n)) :
        (node.asExpression suspension).Lacks (loopLabel n) := by
      have hanchored : node.Anchored (.loop n) := ⟨hnode.allowed, Watch.known_only, Sound.plain h⟩
      exact (hanchored.asExpression suspension).allowed.lacks
    have hflat (hflat : (node.asExpression suspension).Flat n) :
        (node.asExpression suspension).ending (loopLabel n) = 0 ∧
          (node.Lacks (loopLabel n) → (node.asExpression suspension).Tailed (loopLabel n) arity) :=
      ⟨hflat.ending, fun hnode => .lacks (hlacks hnode)⟩
    obtain ⟨kind, p⟩ := node
    cases kind with
    | expressionStatement expression => exact absurd rfl (Sound.plain h expression)
    | functionDeclaration f => exact .inr (hflat (.inert rfl))
    | _ => first | exact .inl (hsame rfl) | exact .inr (hflat (.wrapped _ suspension p))

section

variable (h : LowersTallied n arity k lower)

include h

theorem lowerValue_tallied (ht : t.Suits (.loop n)) :
    TalliedSound n arity (k t) (lowerValue lower t) := by
  -- a wrapper takes calls out of tail position, and nothing puts any there
  have hvalue (p : Option Position) (suspension : Suspension) (result : Option Node)
      (hresult : BoundedOption n (k t) result) :
      (valueOf p suspension result).Bounded n (k t) := by
    have hle := hresult.ending_le
    refine ⟨sound_valueOf hresult.sound _ _, ?_⟩
    have hcases : _ ∨ _ ∧ (_ → Tailed _ arity _) := valueOf_cases hresult.sound p suspension
    rcases hcases with ⟨heq, -⟩ | ⟨heq, -⟩ <;> omega
  have hatom (hitems : t.items? = none) : TalliedSound n arity (k t) (lowerValue lower t) := by
    rw [lowerValue_atom hitems]
    have hclear := Clear.of_sourced (h.sourced.lowers True t ht) (h.tallied t ht).shaped
      fun _ => lackOption_of_anchored
    exact .map (h.tallied t ht) hclear (fun _ hresult => hvalue _ _ _ hresult)
      fun _ hresult => valueOf_cases hresult.sound _ _
  cases t with
  | literal | symbol => exact hatom rfl
  | list items p =>
    rw [lowerValue_list]
    have hclear : Clear n (Lower.inExpression (lower (.list items p)))
        (fun r => BoundedOption n (k (.list items p)) r.1) fun r => LackOption (loopLabel n) r.1 :=
      .of_sourced (.inExpression (h.sourced.lowers True _ ht))
        (.inExpression (h.sourced.lowers True _ ht) (h.tallied _ ht).shaped)
        fun _ => lackOption_of_anchored
    -- a list keeps its calls in tail position unless a wrapper is put around it
    exact .map (h.tallied _ ht).inExpression hclear (fun _ hresult => hvalue _ _ _ hresult)
      fun _ hresult => valueOf_cases hresult.sound _ _

theorem lowerStatement_tallied (ht : t.Suits (.loop n)) :
    Tallied n arity 0 (lowerStatement lower t)
      (fun first => endingOption (loopLabel n) first ≤ k t) (endingOption (loopLabel n))
      (TailedOption (loopLabel n) arity) := by
  refine .bind (h.tallied t ht) fun result hresult => ?_
  cases result with
  | none => exact .pure (Nat.zero_le _) rfl fun _ => by simp [TailedOption]
  | some node =>
    have hsame : node.asStatement.ending (loopLabel n) = node.ending (loopLabel n) := by
      rw [ending, returning_asStatement, ending]
    refine .pure (hsame.le.trans hresult.ending_le) hsame fun htailed => ?_
    rintro _ ⟨⟩
    exact (htailed node rfl).asStatement

theorem lowerBody_eq_nil_iff {body : List Node} {c d : Context}
    (hrun : lowerBody lower trees c = .ok body d) : body = [] ↔ trees.all isDropped = true := by
  induction trees generalizing c body with
  | nil =>
    obtain ⟨rfl, -⟩ := pure_ok hrun
    simp
  | cons t rest ih =>
    obtain ⟨first, e, hfirst, hrun⟩ := bind_ok hrun
    obtain ⟨others, hothers, rfl⟩ := map_ok hrun
    obtain ⟨result, hresult, rfl⟩ := map_ok hfirst
    have hnone : (result.map asStatement).toList = [] ↔ t.isDropped = true := by
      rw [← h.kept t c result e hresult]
      cases result <;> simp
    rw [List.append_eq_nil_iff, hnone, ih hothers, List.all_cons, Bool.and_eq_true]

theorem lowerBody_tallied (ht : SuitIn (.loop n) trees) :
    TalliedBody n arity ((bodyTail trees).map k).sum (lowerBody lower trees) := by
  induction trees with
  | nil => exact .pure ⟨rfl, Nat.le_refl _⟩ rfl (.of_lacks trivial)
  | cons t rest ih =>
    intro c body d hc hrun
    have hstays := ((lowerBody_shaped h.clear ht).run hrun hc).2
    obtain ⟨first, e, hfirst, hrun⟩ := bind_ok hrun
    obtain ⟨others, hothers, rfl⟩ := map_ok hrun
    obtain ⟨hpasses, hbound, hle, htailed⟩ := (lowerStatement_tallied h ht.1).run hfirst hc
    obtain ⟨-, hstill, hlacks⟩ := (lowerStatement_clear h.clear ht.1).run hfirst hc
    obtain ⟨hpasses', hbound', hle', htailed'⟩ := (ih ht.2).run hothers (hc.passes hpasses)
    refine ⟨hpasses.trans hpasses', ?_⟩
    dsimp only at hle' htailed' ⊢
    unfold bodyTail
    by_cases hnil : others = []
    · -- The statement is the last one.
      rw [if_pos ((lowerBody_eq_nil_iff h hothers).mp hnil)]
      subst hnil
      have hcount : bodyJumps (loopLabel n) (returningAll (first.toList ++ [])) =
          endingOption (loopLabel n) first := by
        cases first <;> simp [returningAll, bodyJumps, endingOption, ending]
      have hle_tail : endingOption (loopLabel n) first ≤ (([t] : List SExpr).map k).sum := by
        simpa using hbound
      refine ⟨⟨hstays, hcount.le.trans hle_tail⟩, by omega, fun _ harity hreg => ?_⟩
      obtain ⟨hreg, hfirst⟩ := htailed (by omega) harity hreg
      refine ⟨(htailed' (by omega) (harity.passes hpasses) hreg).1, ?_⟩
      cases first with
      | none => exact .of_lacks trivial
      | some node => exact ⟨trivial, hfirst⟩
    · -- The statement has no call in tail position, so it must not meet a jump.
      rw [if_neg (mt (lowerBody_eq_nil_iff h hothers).mpr hnil)]
      have hcount : bodyJumps (loopLabel n) (returningAll (first.toList ++ others)) = _ :=
        bodyJumps_returningAll_append hnil first.toList
      rw [hstill, Nat.zero_add] at hcount
      refine ⟨⟨hstays, hcount.le.trans hbound'.2⟩, by omega, fun _ harity hreg => ?_⟩
      obtain ⟨hreg, hfirst⟩ := hlacks (by omega) hreg
      obtain ⟨hreg, hrest⟩ := htailed' (by omega) (harity.passes hpasses) hreg
      exact ⟨hreg, .append hfirst hrest hnil⟩

/-! ## Branches and sequences -/

theorem lowerBranch_tallied (ht : t.Suits (.loop n)) :
    TalliedSound n arity (k t) (lowerBranch lower t) := by
  refine .bind (h.tallied t ht) fun result hresult => ?_
  cases result with
  | none => exact .pure ((Flat.inert rfl).bounded _) rfl fun _ => .lacks ⟨trivial, trivial⟩
  | some node => exact .pure hresult rfl fun htailed => htailed node rfl

end

theorem blockOf_tallied {m : Lower (List Node)} (h : TalliedBody n arity bound m)
    (p : Option Position) : TalliedSound n arity bound (m >>= fun body => pure ((block body).place p)) :=
  .bind h fun _ hbody => .pure ⟨sound_block hbody.1 p, hbody.2⟩ rfl fun htailed =>
    .block htailed.1 htailed.2

section

variable (h : LowersTallied n arity k lower)

include h

theorem lowerSequence_tallied (p : Option Position) (ht : SuitIn (.loop n) trees) :
    TalliedSound n arity ((bodyTail trees).map k).sum (lowerSequence lower p trees) := by
  match trees, ht with
  | [], _ => exact .pure ((flat_undefined p).bounded _) rfl (.lacks (lacks_undefined p))
  | [single], ht =>
    have hsingle : ((bodyTail [single]).map k).sum = k single := by simp [bodyTail]
    rw [hsingle]
    exact lowerBranch_tallied h ht.1
  | first :: second :: rest, ht =>
    exact blockOf_tallied (.inScope _ (lowerBody_tallied h ht)) p

theorem lowerIf_tallied (hargs : SuitIn (.loop n) form.args) :
    TalliedSound n arity ((SpecialForm.branch.tails form.args).map k).sum (lowerIf lower form) := by
  obtain ⟨node, name, args⟩ := form
  match args, hargs with
  | [], _ | [_], _ | _ :: _ :: _ :: _ :: _, _ => exact .refuse _
  | [test, consequent], hargs =>
    exact .after (lowerValue_clear h.clear hargs.1) fun test _ =>
      .bind (lowerBranch_tallied h hargs.2.1) fun consequent hthen =>
        .pure (hthen.choose test trivial) (ending_choose test consequent none)
          fun hthen htest => .choose htest hthen (by simp)
  | [test, consequent, alternate], hargs =>
    refine .after (lowerValue_clear h.clear hargs.1) fun test _ =>
      .bind (lowerBranch_tallied h hargs.2.1) fun consequent hthen =>
        .bind ((lowerBranch_tallied h hargs.2.2.1).shift _) fun alternate helse =>
          .pure (hthen.choose test helse) (ending_choose test consequent (some alternate))
            fun helse hthen htest => .choose htest hthen ?_
    rintro _ ⟨⟩
    exact helse

theorem lowerCondClauses_tallied : (clauses : List SExpr) → SuitIn (.loop n) clauses →
    Tallied n arity 0 (lowerCondClauses lower form clauses)
      (fun lowered => BoundedOption n ((clauses.flatMap clauseTail).map k).sum (chooseClause lowered))
      (fun lowered => endingOption (loopLabel n) (chooseClause lowered))
      (fun lowered => TailedOption (loopLabel n) arity (chooseClause lowered))
  | [], _ => .pure trivial rfl (by simp [chooseClause, TailedOption])
  | .list (test :: first :: more) p :: rest, hclauses => by
    have hclause := hclauses.1.itemsIn
    have htailed {node : Node} (hnode : node.Tailed (loopLabel n) arity) :
        TailedOption (loopLabel n) arity (some node) := by
      rintro _ ⟨⟩
      exact hnode
    simp only [List.flatMap_cons, clauseTail, List.map_append, List.sum_append]
    refine .ite (.ite (.refuse _) ?_) ?_
    · exact .bind (lowerSequence_tallied h p hclause.2) fun value hvalue =>
        .pure ⟨hvalue.toSound, hvalue.ending_le.trans (Nat.le_add_right _ _)⟩ rfl htailed
    · exact .after (lowerValue_clear h.clear hclause.1) fun test _ =>
        .bind (lowerSequence_tallied h p hclause.2) fun value hvalue =>
          .bind ((lowerCondClauses_tallied rest hclauses.2).shift _) fun clauses hrest =>
            .pure (hvalue.choose test hrest) (ending_choose test value (chooseClause clauses))
              fun hclauses hvalue htest => htailed (.choose htest hvalue hclauses)
  | .symbol _ _ :: _, _ | .literal _ _ :: _, _ | .list [] _ :: _, _ | .list [_] _ :: _, _ => .refuse _

theorem lowerCond_tallied (hargs : SuitIn (.loop n) form.args) :
    TalliedSound n arity ((SpecialForm.cond.tails form.args).map k).sum (lowerCond lower form) := by
  refine .bind (lowerCondClauses_tallied h form.args hargs) fun clauses hclauses => ?_
  cases hchoice : chooseClause clauses with
  | none => exact .pure ((flat_undefined none).bounded _) rfl fun _ => .lacks (lacks_undefined none)
  | some node =>
    rw [hchoice] at hclauses
    exact .pure hclauses rfl fun htailed => htailed node rfl

end

/-! ## Scoped bindings -/

theorem bodyJumps_returningAll_inert {nodes : List Node} (h : ∀ node ∈ nodes, node.kind.isInert = true) :
    bodyJumps (loopLabel n) (returningAll nodes) = 0 := by
  have hbefore : Still n nodes.dropLast :=
    still_of_inert fun node hnode => h node (List.dropLast_subset nodes hnode)
  rw [bodyJumps_returningAll, hbefore, Nat.zero_add]
  cases hlast : nodes.getLast? with
  | none => rfl
  | some last =>
    have hflat : last.Flat n := .inert (h last (List.mem_of_getLast? hlast))
    exact hflat.ending

variable (h : LowersTallied n arity k lower)

include h in
theorem declaredBody_tallied (kind : VariableKind) {pairs rest : List SExpr}
    (hpairs : SuitIn (.loop n) pairs) (hrest : SuitIn (.loop n) rest) :
    TalliedBody n arity ((bodyTail rest).map k).sum
      (do let declarations ← lowerPairs lower kind pairs
          let statements ← lowerBody lower rest
          return declarations ++ statements) := by
  refine .after (lowerPairs_clear h.clear kind hpairs) fun _ hinert =>
    .bind (lowerBody_tallied h hrest) fun statements hbody => ?_
  -- without statements the last declaration is in tail position, where it has no call either
  by_cases hnil : statements = []
  · subst hnil
    rw [List.append_nil]
    have hnone := bodyJumps_returningAll_inert (n := n) hinert
    exact .pure ⟨still_of_inert hinert, hnone.le.trans (Nat.zero_le _)⟩ hnone
      fun _ hlacks => .of_lacks hlacks
  · have hcount (before : List Node) (hbefore : Still n before) :
        bodyJumps (loopLabel n) (returningAll (before ++ statements)) =
          bodyJumps (loopLabel n) (returningAll statements) := by
      rw [bodyJumps_returningAll_append hnil, hbefore, Nat.zero_add]
    have hstill : Still n _ := still_of_inert hinert
    exact .pure ⟨hstill.append hbody.1, (hcount _ hstill).le.trans hbody.2⟩ (hcount _ hstill)
      fun htailed hlacks => .append hlacks htailed hnil

include h in
theorem lowerBinding_tallied (kind : VariableKind) (hargs : SuitIn (.loop n) form.args) :
    TalliedSound n arity (((SpecialForm.binding kind).tails form.args).map k).sum
      (lowerBinding lower form kind) := by
  obtain ⟨node, name, args⟩ := form
  have hdeclare {bound : Nat} {target : SExpr} {value : Option SExpr} (htarget : target.Suits (.loop n))
      (hvalue : ∀ t ∈ value, t.Suits (.loop n)) :
      TalliedSound n arity bound (lowerDeclaration lower kind target value) := by
    have hsourced := (lowerDeclaration_traced (H := True) h.sourced h.sourced kind htarget hvalue).sourced
    exact tallied_of_flat hsourced
      (.of_sourced hsourced ((lowerDeclaration_ensures kind target value).imp fun _ => .inert))
  have hscoped {form : Form} {target : SExpr} {rest : List SExpr} (htarget : target.Suits (.loop n))
      (hrest : SuitIn (.loop n) rest) : TalliedSound n arity ((bodyTail rest).map k).sum
        (lowerScopedBindings lower form kind target rest) :=
    .ite (.refuse _) <|
      blockOf_tallied (.inScope _ (declaredBody_tallied h kind htarget.bindingItems hrest)) _
  cases args with
  | nil => exact .refuse _
  | cons target values =>
    obtain ⟨htarget, hvalues⟩ := hargs
    cases target with
    | literal _ _ => exact .refuse _
    | symbol _ _ =>
      rcases values with _ | ⟨value, _ | ⟨_, _⟩⟩
      · exact .ite (hdeclare htarget (by simp)) (.refuse _)
      · exact hdeclare htarget (forall_some hvalues.1)
      · exact .refuse _
    | list items p =>
      unfold SpecialForm.tails
      rcases values with _ | ⟨value, _ | ⟨_, _⟩⟩
      · exact hscoped htarget hvalues
      · by_cases hpattern : isDestructuring (.list items p) = true
        · simp only [lowerBinding, hpattern, List.length_singleton, and_self, if_true]
          exact hdeclare htarget (forall_some hvalues.1)
        · simp only [lowerBinding, hpattern]
          exact hscoped htarget hvalues
      · exact hscoped htarget hvalues

/-! ## Jumps and transparent forms -/

theorem lowerRecur_tallied (h : LowersClear n lower) (hargs : SuitIn (.loop n) form.args) :
    TalliedSound n arity 1 (lowerRecur lower form) := by
  intro c node d hc hrun
  have hsound : node.Sound n := lowerRecur_sound c node d hrun
  have hjump : ¬(Watch.loop n).Jumpless := fun hfree => hfree "recur" none [] none trivial rfl
  have hpasses := (lowerRecur_sourced (H := True) h.sourced hjump Watch.known_only hargs).passes hrun
  obtain ⟨frame, rest, arguments, e, hloops, hlength, hgiven, rfl, rfl⟩ := lowerRecur_ok hrun
  have hvalues : Clear n (lowerValues lower form.args)
      (fun values => values.length = form.args.length) (LackIn (loopLabel n)) :=
    .of_ensures (lowerValues_traced h.sourced hargs).sourced (lowerValues_ensures _) fun _ hvalues =>
      (allowedIn_of_anchored hvalues).lackIn
  obtain ⟨hpasses', hvalues, hlacks⟩ := hvalues.run hgiven hc
  have hmet := hpasses'.met
  have hcount := met_countRecur (w := .loop n) hloops hpasses'.loops form.position
  refine ⟨hpasses, ?_⟩
  by_cases hlabel : frame.label = loopLabel n
  · -- The jump is for this loop, and it is the only one in tail position.
    have hending : (call ((ident frame.label).place form.position) arguments).ending
        (loopLabel n) = 1 := by
      rw [ending_of_expression rfl, hlabel]
      simp [call, of, valueJumps, isJumpTo, ident, typedIdent, Node.place, identifier?]
    rw [if_pos (Watch.mem_loop.mpr hlabel)] at hcount
    refine ⟨⟨hsound, hending.le⟩, by omega, fun _ harity hreg => ?_⟩
    obtain ⟨hreg, hlacks⟩ := hlacks (by omega) hreg
    have hframe : frame.arity = arity := harity frame (by simp [hloops]) hlabel
    refine ⟨hreg, .jump ?_ ?_ hlacks⟩
    · rw [← hlabel]
      rfl
    · rw [hvalues, hlength, hframe]
  · have hflat : (call ((ident frame.label).place form.position) arguments).Flat n :=
      .call (unnamed_ident hlabel _) _ _ _
    have hending : (call ((ident frame.label).place form.position) arguments).ending
        (loopLabel n) = 0 := hflat.ending
    refine ⟨hflat.bounded 1, by omega, fun _ _ hreg => ?_⟩
    obtain ⟨hreg, hlacks⟩ := hlacks (by omega) hreg
    exact ⟨hreg, .lacks ⟨trivial, ⟨hlabel, trivial⟩, hlacks⟩⟩

theorem SettledOr.tallied {part : Option SExpr} (h : SettledOr lower m part)
    (hlower : LowersTallied n arity k lower) (hpart : ∀ t ∈ part, t.Suits (.loop n))
    (hs : Sourced (.loop n) True m (Pending (.loop n))) :
    TalliedSound n arity (part.toList.map k).sum m := by
  cases part with
  | none => exact tallied_of_flat hs (.of_sourced hs (h.imp fun _ hsettled => hsettled.flat n))
  | some t =>
    have hvalue := lowerValue_tallied hlower (hpart t rfl)
    cases h
    simpa using hvalue

/-! ## Trees -/

include h in
theorem lowerSpecial_tallied {special : SpecialForm} (hargs : SuitIn (.loop n) form.args)
    (hs : Sourced (.loop n) True (lowerSpecial lower form special) (Pending (.loop n))) :
    TalliedSound n arity (((special.tails form.args).map k).sum + special.recurs)
      (lowerSpecial lower form special) := by
  cases hend : special.canEnd with
  | false => exact tallied_of_flat hs (lowerSpecial_flat h.clear hargs hs hend)
  | true =>
    cases special with
    | binding kind => exact lowerBinding_tallied h kind hargs
    | branch => exact lowerIf_tallied h hargs
    | cond => exact lowerCond_tallied h hargs
    | sequence => exact lowerSequence_tallied h _ hargs
    | recur => exact lowerRecur_tallied h.clear hargs
    | quasiquote => exact lowerQuasiquote_settledOr.tallied h (fun _ => suits_of_unquoted hargs) hs
    | operator op => exact (lowerOperator_settledOr op).tallied h (fun _ => suits_of_only hargs) hs
    | _ => cases hend

theorem TalliedSound.some (h : TalliedSound n arity bound m) {g : Node → Node}
    (hsound : ∀ node : Node, node.Sound n → (g node).Sound n)
    (hending : ∀ node : Node, (g node).ending (loopLabel n) = node.ending (loopLabel n))
    (htailed : ∀ node : Node, node.Tailed (loopLabel n) arity → (g node).Tailed (loopLabel n) arity) :
    TalliedOption n arity bound (m >>= fun node => pure (some (g node))) := by
  refine .bind h fun node hnode => .pure ⟨hsound node hnode.toSound, ?_⟩ (hending node) fun ht => ?_
  · exact (hending node).le.trans hnode.ending_le
  · rintro _ ⟨⟩
    exact htailed node ht

theorem TalliedSound.orPlace (h : TalliedSound n arity bound m) (p : Option Position) :
    TalliedOption n arity bound (do return Option.some ((← m).orPlace p)) :=
  h.some (fun _ hsound => hsound.orPlace p) (fun _ => ending_orPlace p)
    fun _ htailed => htailed.orPlace p

include h in
theorem lowerNamed_tallied {name : String} {q : Option Position} {args : List SExpr}
    (ht : (SExpr.list (.symbol name q :: args) p).Suits (.loop n)) :
    TalliedOption n arity ((SExpr.list (.symbol name q :: args) p).tailCount k)
      (lowerNamed lower (.list (.symbol name q :: args) p) name q args) := by
  have hitems := ht.itemsIn
  unfold lowerNamed
  simp only [SExpr.tailCount]
  cases hmeaning : HeadMeaning.ofName name with
  | special special =>
    have hs := (lowerSpecial_suited (H := True) h.sourced ht hmeaning).sourced
    exact (lowerSpecial_tallied h hitems.2 hs).orPlace p
  | dropped => exact .pure trivial rfl (by simp [TailedOption])
  | called =>
    have hcall : TalliedSound n arity 0
        (lowerNamedCall lower (.list (.symbol name q :: args) p) name q args) :=
      tallied_of_flat (Traced.pending
        (lowerNamedCall_traced h.sourced hitems.1.symbol hitems.1.position ht.position hitems.2)).sourced
        (lowerNamedCall_shaped h.clear _ (hitems.1.symbol _ (.head _)) q hitems.2)
    exact hcall.orPlace _

include h in
theorem lowerList_tallied {items : List SExpr} (ht : (SExpr.list items p).Suits (.loop n)) :
    TalliedOption n arity ((SExpr.list items p).tailCount k) (lowerList lower items p) := by
  cases items with
  | nil =>
    have hempty : TalliedSound n arity 0 (pure ((array []).place p)) :=
      .pure ((Flat.inert rfl).bounded 0) rfl (.lacks ⟨trivial, trivial⟩)
    exact hempty.some (fun _ => id) (fun _ => rfl) fun _ => id
  | cons head args =>
    cases head with
    | symbol name q => exact .inForm name p (lowerNamed_tallied h ht)
    | literal value q => exact .refuse _
    | list inner q =>
      have happlied : TalliedSound n arity 0 (lowerApplied lower _ (.list inner q) args) :=
        tallied_of_flat
          (Traced.pending (lowerApplied_traced h.sourced ht.itemsIn.1 ht.position ht.itemsIn.2)).sourced
          (lowerApplied_shaped h.clear _ ht.itemsIn.1 ht.itemsIn.2)
      exact happlied.some (fun _ => id) (fun _ => rfl) fun _ => id

theorem lower_eq_none_iff {c d : Context} (hrun : Lowering.lower t c = .ok result d) :
    result = none ↔ t.isDropped = true := by
  have hsome {m : Lower Node} {g : Node → Node} {c : Context}
      (hrun : (m >>= fun node => pure (some (g node))) c = .ok result d) : result ≠ none := by
    obtain ⟨node, -, rfl⟩ := map_ok hrun
    exact Option.some_ne_none _
  cases t with
  | literal value p =>
    obtain ⟨rfl, -⟩ := pure_ok hrun
    simp [isDropped]
  | symbol name p => simpa [isDropped] using hsome hrun
  | list items p =>
    rw [lower_list] at hrun
    cases items with
    | nil =>
      obtain ⟨rfl, -⟩ := pure_ok hrun
      simp [isDropped]
    | cons head args =>
      cases head with
      | literal value q => cases hrun
      | list inner q => simpa [isDropped] using hsome hrun
      | symbol name q =>
        have hrun := inForm_ok hrun
        unfold lowerNamed at hrun
        simp only [isDropped]
        generalize HeadMeaning.ofName name = meaning at hrun ⊢
        cases meaning with
        | special special => simpa using hsome hrun
        | dropped =>
          obtain ⟨rfl, -⟩ := pure_ok hrun
          simp
        | called => simpa using hsome hrun

theorem lower_tallied_within {fuel : Nat} (hfuel : t.depth ≤ fuel) (ht : t.Suits (.loop n)) :
    TalliedOption n arity (t.tailRecursWithin fuel) (Lowering.lower t) := by
  have hatom {t : SExpr} (hitems : t.items? = none) (ht : t.Suits (.loop n)) (bound : Nat) :
      TalliedOption n arity bound (Lowering.lower t) := by
    cases t with
    | list items p => cases hitems
    | literal value p =>
      refine .pure ((Flat.inert rfl).bounded _) rfl ?_
      rintro _ ⟨⟩
      exact .lacks ⟨trivial, trivial⟩
    | symbol name p =>
      have href := reference_sourced ht.symbol (.inl rfl) ht.position
      have hflat : TalliedSound n arity bound (Lower.ofExcept (reference name p)) :=
        tallied_of_flat (.imp (.ofExcept href) fun _ hnode => hnode.pending) (lowerSymbol_shaped href)
      exact hflat.some (fun _ => id) (fun _ => rfl) fun _ => id
  induction fuel generalizing t with
  | zero =>
    cases t with
    | list items p => cases hfuel
    | symbol | literal => exact hatom rfl ht _
  | succ fuel ih =>
    cases t with
    | symbol | literal => exact hatom rfl ht _
    | list items p =>
      have hbelow : LowersTallied n arity (tailRecursWithin fuel)
          (lowerBelow (SExpr.depth (.list items p))) := by
        refine ⟨Lowering.LowersOn.of_suits fun H u hu => ?_, fun u hu => ?_, fun u c result d hrun => ?_⟩
        · unfold lowerBelow
          split
          · exact lower_sourced.lowers H u hu
          · exact .fault _ nofun
        · unfold lowerBelow
          split
          · exact ih (by omega) hu
          · exact .refuse _
        · unfold lowerBelow at hrun
          split at hrun
          · exact lower_eq_none_iff hrun
          · cases hrun
      rw [lower_list_below]
      exact lowerList_tallied hbelow ht

theorem lower_tallied : LowersTallied n arity SExpr.tailRecurs Lowering.lower :=
  ⟨lower_sourced, fun _ ht => lower_tallied_within (Nat.le_refl _) ht, fun _ _ _ _ => lower_eq_none_iff⟩

end Lowering

end LispLowering
