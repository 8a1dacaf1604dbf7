import LispLowering.Proofs.Composition.Functions

/-!
# What bindings, functions and branches are made of
-/

namespace LispLowering

open Lowering SExpr Node ParamList

variable {arg : Option SExpr}

/-! ## Nodes -/

namespace Built

variable {leaves leaves' leaves'' : List Leaf} {slot : Slot}

theorem declare {kind : VariableKind} {id : Node} {init : Option Node}
    (hslot : slot.holds (declare kind id init) = true) (hid : Built leaves .expression id)
    (hinit : BuiltAll leaves' (Slot.expression.all init.toList)) :
    Built (leaves ++ leaves') slot (declare kind id init) :=
  .hold hslot (.one (.hold rfl (.cons hid hinit)))

theorem block {body : List Node} (h : BuiltAll leaves (Slot.statement.all body)) :
    Built leaves .statement (block body) :=
  .hold rfl h

theorem choose {test consequent : Node} {alternate : Option Node}
    (htest : Built leaves .expression test) (hthen : Built leaves' .any consequent)
    (helse : BuiltAll leaves'' (Slot.any.all alternate.toList)) :
    Built (leaves ++ (leaves' ++ leaves'')) .any (Node.choose test consequent alternate) := by
  unfold Node.choose
  cases alternate with
  | none =>
    split
    · exact .hold rfl (.cons htest (.cons hthen.asStatement helse))
    · next hexpr =>
      have hvalue : Built leaves' .expression consequent :=
        .narrow (by simpa [Slot.admits] using hexpr) hthen
      rw [helse.eq_nil rfl, List.append_nil]
      exact .hold rfl (.cons htest (.before hvalue (.one .undefined)))
  | some alternate =>
    have hother := helse.single rfl
    split
    · exact .hold rfl (.cons htest (.cons hthen.asStatement (.one hother.asStatement)))
    · next hexpr =>
      simp only [Option.map_some, Option.getD_some, Bool.or_eq_true, not_or, Bool.not_eq_true] at hexpr
      have hvalue : Built leaves' .expression consequent :=
        .narrow (by simp [Slot.admits, hexpr.1]) hthen
      have hvalue' : Built leaves'' .expression alternate :=
        .narrow (by simp [Slot.admits, hexpr.2]) hother
      exact .hold rfl (.cons htest (.cons hvalue (.one hvalue')))

end Built

namespace Lowering

variable {lower : Lowerer} {P : Comparison} {stored : Node → Prop} {form : Form}
  {t : SExpr} {ts : List SExpr}

theorem targetScript_symbol (name : String) (p : Option Position) :
    targetScript (.symbol name p) = .done := by
  unfold targetScript
  cases hread : Pattern.read (.symbol name p) with
  | error fault => rfl
  | ok pattern =>
    have hnone := Pattern.defaults_of_read (T := fun _ => False) (fun _ _ h => h.elim) hread
      (by simp [SExpr.children])
    dsimp only
    rw [List.eq_nil_iff_forall_not_mem.mpr hnone]
    rfl

/-! ## Bindings -/

theorem lowerDeclaration_performs (kind : VariableKind) (ht : P.trees t) {value : Option SExpr}
    (hvalue : ∀ t ∈ value, P.trees t) : P.Performs stored (declarationScript t value.toList)
      (lowerDeclaration · kind t value) (Gives .statement) := by
  refine .bind (lowerTarget_performs ht) fun id _ _ hid => ?_
  rw [← hid.2]
  refine .bind (lowerOption_performs hvalue) fun _ _ _ hinit => .bindTarget id (.pure ?_)
  rw [List.append_nil]
  exact .declare rfl hid.1 hinit

theorem lowerPairs_performs (kind : VariableKind) (hts : Each P.trees ts) :
    P.Performs stored (pairsScript ts) (lowerPairs · kind ts) (GivesAll .statement) := by
  induction ts using List.twoStepInduction with
  | nil | singleton => exact .pure .nil
  | cons_cons target value rest ih _ =>
    refine .bind (lowerDeclaration_performs kind hts.1 (forall_some hts.2.1)) fun _ _ _ hfirst => ?_
    exact .map (ih hts.2.2) fun _ _ _ hothers => .cons (hfirst.place _) hothers

theorem lowerScopedBindings_performs (kind : VariableKind) (ht : P.trees t) (hts : Each P.trees ts) :
    P.Performs stored (.scope [] (pairsScript t.bindingItems ++ .statements ts) .done)
      (lowerScopedBindings · form kind t ts) (Gives .any) := by
  refine .ite (.fault rfl) (.map (.inScope [] ?_) fun _ _ _ hbody =>
    .widen ((Built.block hbody).place _))
  exact .bind (lowerPairs_performs kind (bindingItems_of P.shown.hereditary ht)) fun _ _ _ hdecls =>
    .map (lowerBody_performs hts) fun _ _ _ hstmts => .appendAll hdecls hstmts

theorem lowerBinding_performs (kind : VariableKind) : P.PerformsForm stored (.binding kind) := by
  rintro ⟨node, name, _ | ⟨target, rest⟩⟩ hargs
  · exact .fault rfl
  have hdecl {target : SExpr} (ht : P.trees target) (value : Option SExpr)
      (hvalue : ∀ t ∈ value, P.trees t) :
      P.Performs stored (declarationScript target value.toList)
        (lowerDeclaration · kind target value) (Gives .any) :=
    (lowerDeclaration_performs kind ht hvalue).weaken fun _ _ _ h => .widen h
  cases target with
  | literal _ _ => exact .fault rfl
  | symbol name p =>
    rcases rest with _ | ⟨value, _ | ⟨_, _⟩⟩
    · exact .ite (hdecl hargs.1 none (by simp)) (.fault rfl)
    · exact hdecl hargs.1 (some value) (forall_some hargs.2.1)
    · exact .fault rfl
  | list items p =>
    have hscoped {rest : List SExpr} (hrest : Each P.trees rest)
        (h : ¬(rest.length = 1 ∧ isDestructuring (.list items p) = true)) :
        P.Performs stored (bindingScript (.list items p :: rest))
          (lowerScopedBindings · ⟨node, name, .list items p :: rest⟩ kind (.list items p) rest)
          (Gives .any) := by
      rw [bindingScript, if_neg h]
      exact lowerScopedBindings_performs kind hargs.1 hrest
    rcases rest with _ | ⟨value, _ | ⟨_, _⟩⟩
    · exact hscoped hargs.2 (by simp)
    · dsimp only [Comparison.Performs, lowerSpecial, lowerBinding, specialScript]
      split
      · next hpattern =>
        rw [bindingScript, if_pos ⟨rfl, hpattern⟩]
        exact hdecl hargs.1 (some value) (forall_some hargs.2.1)
      · next hpattern => exact hscoped hargs.2 fun h => hpattern h.2
    · exact hscoped hargs.2 (by simp)

theorem lowerAssignment_performs : P.PerformsForm stored .assignment := by
  rintro ⟨node, name, _ | ⟨target, _ | ⟨value, _ | _⟩⟩⟩ hargs
  iterate 2 exact .fault rfl
  · -- both kinds of target are followed by the value
    have hrest {leaves : List Leaf} {left : Node} (hleft : Built leaves .expression left) :
        P.Performs stored (.value value)
          (fun lower => if isAssignable left then
              lowerValue lower value >>= fun value => pure (assign left value)
            else Form.refusePart ⟨node, name, [target, value]⟩ target (.assignmentTarget target))
          fun leaves' _ result => Built (leaves ++ leaves') .any result :=
      .ite (.map (.value hargs.2.1) fun _ _ _ hvalue => .hold rfl (.cons hleft (.one hvalue))) (.fault rfl)
    dsimp only [Comparison.Performs, lowerSpecial, lowerAssignment, specialScript, assignmentScript]
    split
    · exact .bind (lowerTarget_performs hargs.1) fun _ _ _ hleft => hrest hleft.1
    · exact .bind (.value hargs.1) fun _ _ _ hleft => hrest hleft
  · exact .fault rfl

/-! ## Functions -/

theorem defaults_trees {list : ParamList} (hread : read t = .ok list) (ht : P.trees t) :
    ∀ u ∈ list.defaults, P.trees u :=
  defaults_of_read P.shown.hereditary hread (P.shown.hereditary.children ht)

theorem lowerFunctionParts_performs (isAsync isGenerator : Bool) (name : Option GenericName)
    (hts : Each P.trees ts) (hname : ∀ n ∈ name, P.view.visible (Symbol.identifier n.name)) :
    P.Performs stored (functionFormScript (name.map fun n => Symbol.identifier n.name) ts)
      (lowerFunctionParts · form isAsync isGenerator name ts) (Gives .any) := by
  cases ts with
  | nil => exact .fault rfl
  | cons params body =>
    refine .after (.ofSyntax _) fun _ hread => ?_
    simp only [functionFormScript, paramsScript, hread]
    cases name with
    | none =>
      refine .map (.function _ rfl rfl rfl (defaults_trees hread hts.1) (splitReturnType_of hts.2) nofun
        fun _ => ⟨params, hread⟩) fun f _ _ hleaves => ?_
      subst hleaves
      exact .define rfl rfl
    | some name =>
      refine .map (.function _ rfl rfl rfl (defaults_trees hread hts.1) (splitReturnType_of hts.2) ?_
        fun _ => ⟨params, hread⟩) fun f _ _ hleaves => ?_
      · simpa using hname
      · subst hleaves
        exact .define rfl rfl

theorem lowerFunction_performs (form : Form) (isAsync isGenerator : Bool) (hargs : Each P.trees form.args) :
    P.Performs stored (fnScript form.args) (lowerFunction · form isAsync isGenerator)
      (Gives .any) := by
  obtain ⟨node, head, args⟩ := form
  rcases args with _ | ⟨first, parts⟩
  · exact .fault rfl
  cases first with
  | symbol name p =>
    refine lowerFunctionParts_performs isAsync isGenerator (some _) hargs.2 ?_
    simpa using P.shown.declared name p hargs.1
  | literal | list => exact lowerFunctionParts_performs isAsync isGenerator none hargs nofun

theorem arrowOf_performs (isAsync : Bool) {params : ParamList}
    (hdefaults : ∀ t ∈ params.defaults, P.trees t) (hts : Each P.trees ts) :
    P.Performs stored (functionScript none params ts) (arrowOf · form isAsync params ts)
      (Gives .any) := by
  refine .map (.function _ rfl rfl rfl hdefaults hts nofun nofun) fun f _ _ hleaves => ?_
  subst hleaves
  exact .define rfl rfl

theorem lowerArrow_performs (form : Form) (isAsync : Bool) (hargs : Each P.trees form.args) :
    P.Performs stored (arrowScript form.args) (lowerArrow · form isAsync) (Gives .any) := by
  rcases form with ⟨node, name, _ | ⟨first, rest⟩⟩
  · exact .fault rfl
  · dsimp only [Comparison.Performs, lowerArrow, arrowScript]
    split
    · refine .after (.ofSyntax _) fun _ hread => ?_
      simp only [paramsScript, hread]
      exact arrowOf_performs isAsync (defaults_trees hread hargs.1) hargs.2
    · refine arrowOf_performs isAsync ?_ hargs
      simp [defaults, implicitParams_defaults]

theorem lowerAsyncTarget_performs (head : String) (hts : Each P.trees ts) :
    P.Performs stored (asyncTargetScript head ts) (lowerAsyncTarget · form head ts)
      (Gives .any) := by
  unfold Comparison.Performs lowerAsyncTarget
  split
  · exact lowerFunction_performs ⟨form.node, "fn", ts⟩ true false hts
  · exact lowerFunction_performs ⟨form.node, "fn*", ts⟩ true true hts
  · exact lowerArrow_performs ⟨form.node, "=>", ts⟩ true hts
  · exact .fault rfl

theorem lowerAsync_performs : P.PerformsForm stored .async := by
  rintro ⟨node, name, args⟩ hargs
  dsimp only [Comparison.Performs, lowerSpecial, lowerAsync]
  split
  · exact .fault rfl
  · exact lowerAsyncTarget_performs _ hargs.2
  · exact lowerAsyncTarget_performs _ (P.shown.hereditary.each hargs.1).2
  · exact .fault rfl

/-! ## Leaving and suspending -/

theorem earlyReturnMarker_built (key : String) (p : Option Position) {value : Node}
    (hvalue : Built leaves .expression value) :
    Built (leaves ++ [.mark (.object (markerEntries key value p))]) .expression
      (earlyReturnMarker key value p) := by
  have hmark : Built [] .entry ((property key ((bool true).place p)).place p) :=
    .hold rfl (.cons (.ident key) (.one ((Built.bool true).place p)))
  have hentry : Built leaves .entry ((property "value" value).place p) :=
    .hold rfl (.cons (.ident _) (.one hvalue))
  exact .marked rfl rfl rfl rfl (.cons hmark (.one hentry))

theorem leaveWith_outcome {V : RegistryView} (value : Option Node) {c c' : Context} (hc : Twin V c c')
    (hdepth : c.functionDepth ≠ 0) : Outcome V c c' (leaveWith form value c) (leaveWith form value c') := by
  obtain ⟨r, s, l, hr, rfl⟩ := hc.eq_with
  simp only [leaveWith, bind, EStateM.bind, get, getThe, MonadStateOf.get, EStateM.get]
  split
  · exact .ok (.refl hc)
  · refine .ok ⟨?_, V.grows_refl _, ⟨rfl, hr⟩, .refl _ _, {}, by simp, by simp⟩
    exact { Evolves.refl c with earlyReturn := fun hzero => absurd hzero hdepth }

theorem leaveWith_makes (lower : Lowerer) (stored : Node → Prop) {value : Option Node}
    (hvalue : BuiltAll leaves (Slot.expression.all value.toList))
    {c d : Context} {node : Node} (hfun : c.functionDepth ≠ 0)
    (hrun : leaveWith form value c = .ok node d) :
    d.scopes = c.scopes ∧ ∃ event, Step lower stored c.core event {} d.core ∧
      d.suspension = c.suspension ∧ event.parts = [.act .leave] ∧
      Built (leaves ++ event.leaves) .any node := by
  obtain ⟨_, _, hget, hrun⟩ := bind_ok hrun
  cases hget
  split at hrun
  · next hwrapper =>
    obtain ⟨rfl, rfl⟩ := pure_ok hrun
    exact ⟨rfl, .returns, .returns hwrapper hfun, rfl, rfl, .marked rfl rfl rfl rfl hvalue⟩
  · next hwrapper =>
    obtain ⟨_, _, hset, hrun⟩ := bind_ok hrun
    cases hset
    obtain ⟨rfl, rfl⟩ := pure_ok hrun
    have hnode := Built.getD hvalue (Built.undefined.place form.position)
    have hmarker := earlyReturnMarker_built c.options.earlyReturnKey form.position hnode
    exact ⟨rfl, _, .escapes hwrapper hfun, rfl, rfl, .hold rfl (.one hmarker)⟩

theorem leaveWith_logs (value : Option Node) : Logs [.leave] (leaveWith form value) := by
  intro c
  simp only [leaveWith, bind, EStateM.bind, get, getThe, MonadStateOf.get, EStateM.get]
  split
  · exact .unrecorded rfl rfl rfl rfl rfl
  · exact .unrecorded rfl rfl rfl rfl rfl

theorem lowerReturnOf_performs (htree : ∀ t ∈ arg, P.trees t) :
    P.Performs stored (.values arg.toList ++ .act .leave .done) (lowerReturnOf · form arg)
      (Gives .any) := by
  have harg : P.Performs stored _ _ _ := lowerOption_performs htree
  dsimp only [Comparison.Performs]
  rw [lowerReturnOf_eq, lowerReturnOf_eq]
  refine ⟨.thenAct _ fun c c' hc hagree => ?_, fun hl c node d hrun => ?_, fun hl below hbelow => ?_⟩
  · obtain ⟨hout, hok⟩ := harg.follows c c' hc hagree
    have hdepth : c'.functionDepth = c.functionDepth := by rw [hc.same]
    simp only [bind, EStateM.bind, get, getThe, MonadStateOf.get, EStateM.get, hdepth]
    split
    · exact (Follows.fault rfl : Follows P (.values arg.toList) _ _ _) c c' hc hagree
    · next hfun =>
      have hinside {d d' : Context} (hafter : After P.view c c' d d') : d.functionDepth ≠ 0 := by
        rwa [hafter.evolves.functionDepth]
      refine ⟨hout.bind fun value d d' _ hafter => leaveWith_outcome value hafter.twin (hinside hafter),
        fun node e hrun => ?_⟩
      obtain ⟨value, d, hvalue, hrun⟩ := bind_ok hrun
      obtain ⟨d', -, hafter⟩ := hout.of_ok hvalue
      obtain ⟨hscopes, _, _, hbuilt⟩ := hok value d hvalue
      obtain ⟨hleave, -⟩ := leaveWith_makes P.first stored hbuilt (hinside hafter) hrun
      exact ⟨hleave.trans hscopes, _, {}, .node node⟩
  · obtain ⟨_, _, hget, hrun⟩ := bind_ok hrun
    cases hget
    split at hrun
    · cases hrun
    · next hfun =>
      obtain ⟨value, c', hvalue, hleave⟩ := bind_ok hrun
      obtain ⟨events, δ, hevents, hδ, hparts, hbuilt⟩ := harg.makes hl c value c' hvalue
      have hinside : c'.functionDepth ≠ 0 := by
        rwa [show c'.functionDepth = c.functionDepth from (hevents.surroundings hl).2.2]
      obtain ⟨-, event, hstep, hsusp, hact, hnode⟩ :=
        leaveWith_makes P.first stored hbuilt hinside hleave
      refine ⟨events ++ [event], δ.union {}, hevents.append (.one hstep), ?_, ?_, ?_⟩
      · rw [hsusp, hδ, Suspension.union_empty]
      · simp [hparts, hact, Script.parts]
      · simpa [Gives] using hnode
  · rw [Script.parts_append, List.flatMap_append]
    refine .after .get fun _ c _ _ => ?_
    split
    · exact .refuse _
    · exact .bind (harg.logs hl below hbelow) fun _ value _ _ => leaveWith_logs value

theorem lowerReturn_performs : P.PerformsForm stored .returning := by
  rintro ⟨node, name, _ | ⟨arg, _ | _⟩⟩ hargs
  · exact lowerReturnOf_performs (show ∀ t ∈ none, P.trees t by simp)
  · exact lowerReturnOf_performs (forall_some hargs.1)
  · exact .fault rfl

theorem lowerYieldOf_performs (delegate : Bool) (harg : ∀ t ∈ arg, P.trees t) :
    P.Performs stored (.values arg.toList ++ .act .yield .done) (lowerYieldOf · form delegate arg)
      (Gives .any) := by
  refine .get (fun _ _ _ _ => rfl) fun _ => .ite (.fault rfl) ?_
  refine .bind (lowerOption_performs harg) fun _ _ _ hargument => ?_
  refine .map .noteYield fun _ _ _ hleaves => ?_
  subst hleaves
  exact .marked rfl rfl rfl rfl hargument

theorem lowerYield_performs (delegate : Bool) : P.PerformsForm stored (.yielding delegate) := by
  rintro ⟨node, name, _ | ⟨arg, _ | _⟩⟩ hargs
  · exact .ite (.fault rfl) (lowerYieldOf_performs delegate (show ∀ t ∈ none, P.trees t by simp))
  · exact lowerYieldOf_performs delegate (forall_some hargs.1)
  · exact .ite (.fault rfl) (.fault rfl)

theorem lowerAwait_performs : P.PerformsForm stored .awaiting := by
  rintro ⟨node, name, _ | ⟨arg, _ | _⟩⟩ hargs
  · exact .fault rfl
  · refine .bind (.value hargs.1) fun _ _ _ hargument => ?_
    refine .map .noteAwait fun _ _ _ hleaves => ?_
    subst hleaves
    exact .marked rfl rfl rfl rfl (.one hargument)
  · exact .fault rfl

/-! ## Branches and sequences -/

theorem lowerBranch_performs (ht : P.trees t) :
    P.Performs stored (.visit .statement t .done) (lowerBranch · t) (Gives .any) := by
  refine .map (.plain ht) fun node _ _ hleaves => ?_
  subst hleaves
  cases node with
  | none => exact .hold rfl .nil
  | some node => exact .node node

theorem lowerSequence_performs (p : Option Position) (hts : Each P.trees ts) :
    P.Performs stored (sequenceScript ts) (lowerSequence · p ts) (Gives .any) := by
  rcases ts with _ | ⟨single, _ | ⟨second, rest⟩⟩
  · exact .pure (.widen (Built.undefined.place p))
  · exact lowerBranch_performs hts.1
  · exact .map (.inScope [] (lowerBody_performs hts)) fun _ _ _ hbody =>
      .widen ((Built.block hbody).place p)

theorem lowerIf_performs : P.PerformsForm stored .branch := by
  rintro ⟨node, name, _ | ⟨test, _ | ⟨consequent, _ | ⟨alternate, _ | _⟩⟩⟩⟩ hargs
  iterate 2 exact .fault rfl
  · refine .bind (.value hargs.1) fun _ _ _ htest => ?_
    refine .map (lowerBranch_performs hargs.2.1) fun _ _ _ hthen => ?_
    have hnone : BuiltAll [] (Slot.any.all (none : Option Node).toList) := .nil
    simpa [Gives] using htest.choose hthen hnone
  · refine .bind (.value hargs.1) fun _ _ _ htest => ?_
    refine .bind (lowerBranch_performs hargs.2.1) fun _ _ _ hthen => ?_
    refine .map (lowerBranch_performs hargs.2.2.1) fun _ _ _ helse => ?_
    exact htest.choose hthen (.one helse)
  · exact .fault rfl

theorem lowerCondClauses_performs (hts : Each P.trees ts) :
    P.Performs stored (condScript ts) (lowerCondClauses · form ts)
      fun leaves _ clauses => BuiltAll leaves (Slot.any.all (chooseClause clauses).toList) := by
  induction ts with
  | nil => exact .pure .nil
  | cons clause rest ih =>
    unfold Comparison.Performs lowerCondClauses
    split
    · next test first more p =>
      have hclause := P.shown.hereditary.each hts.1
      show Performs P stored ((if isElse test then .done else .value test) ++
        (sequenceScript (first :: more) ++ condScript rest)) _ _ _
      split
      · cases rest with
        -- no clause may follow one that is always taken
        | nil =>
          rw [show condScript [] = .done from rfl, Script.append_done]
          exact .map (lowerSequence_performs p hclause.2) fun _ _ _ hvalue => .one hvalue
        | cons next rest => exact .fault rfl
      · refine .bind (.value hclause.1) fun _ _ _ htest => ?_
        refine .bind (lowerSequence_performs p hclause.2) fun _ _ _ hvalue => ?_
        exact .map (ih hts.2) fun _ _ _ hclauses => .one (htest.choose hvalue hclauses)
    · exact .fault rfl

theorem lowerCond_performs : P.PerformsForm stored .cond := fun _ hargs =>
  .map (lowerCondClauses_performs hargs) fun _ _ _ hclauses => .getD hclauses (.widen .undefined)

theorem switchCase_built (p : Option Position) {test : Option Node} {body : List Node}
    {leaves' : List Leaf} (htest : BuiltAll leaves (Slot.expression.all test.toList))
    (hbody : BuiltAll leaves' (Slot.statement.all body)) :
    Built (leaves ++ leaves') .switchClause (switchCase p test body) := by
  refine .hold rfl (htest.append ?_)
  split
  · exact hbody
  · have hbreak : BuiltAll [] (Slot.statement.all [of (.breakStatement none)]) :=
      .one (.hold rfl .nil)
    simpa using hbody.appendAll hbreak

theorem lowerSwitchClauses_performs (seenDefault : Bool) (hts : Each P.trees ts) :
    P.Performs stored (switchClausesScript ts)
      (lowerSwitchClauses · form seenDefault ts) (GivesAll .switchClause) := by
  induction ts generalizing seenDefault with
  | nil => exact .pure .nil
  | cons clause rest ih =>
    unfold Comparison.Performs lowerSwitchClauses
    split
    · next test body p =>
      have hclause := P.shown.hereditary.each hts.1
      refine .bind (.value hclause.2.1) fun _ _ _ htest => ?_
      refine .bind (lowerBody_performs hclause.2.2) fun body _ _ hbody => ?_
      refine .map (ih seenDefault hts.2) fun _ _ _ hcases => ?_
      rw [← List.append_assoc]
      exact .cons (switchCase_built p (.one htest) hbody) hcases
    · next body p =>
      have hclause := P.shown.hereditary.each hts.1
      refine .ite (.fault rfl) (.bind (lowerBody_performs hclause.2) fun _ _ _ hbody => ?_)
      refine .map (ih true hts.2) fun _ _ _ hcases => ?_
      have hnone : BuiltAll [] (Slot.expression.all (none : Option Node).toList) := .nil
      exact .cons (switchCase_built p hnone hbody) hcases
    · exact .fault rfl

theorem lowerSwitch_performs : P.PerformsForm stored .switching := by
  rintro ⟨node, name, _ | ⟨discriminant, clauses⟩⟩ hargs
  · exact .fault rfl
  · refine .bind (.value hargs.1) fun _ _ _ hdisc => .block ?_
    rw [Script.append_done]
    refine .map (lowerSwitchClauses_performs false hargs.2) fun _ _ _ hcases => ?_
    exact .hold rfl (.cons hdisc hcases)

theorem lowerLabelBody_performs (hts : Each P.trees ts) :
    P.Performs stored (.statements ts) (lowerLabelBody · ts) (Gives .statement) := by
  unfold Comparison.Performs lowerLabelBody
  split
  · next single =>
    refine .map (.plain hts.1) fun node _ _ hleaves => ?_
    subst hleaves
    cases node with
    | none => exact (Built.widen (Built.block .nil)).asStatement
    | some node => exact (Built.node node).asStatement
  · exact .map (lowerBody_performs hts) fun _ _ _ hbody => .block hbody

theorem lowerLabel_performs : P.PerformsForm stored .label := by
  rintro ⟨node, name, _ | ⟨label, _ | ⟨first, body⟩⟩⟩ hargs
  iterate 2 exact .fault rfl
  refine .block ?_
  rw [Script.append_done]
  refine .after (.symbolIn _ _ _) fun _ _ => ?_
  exact .map (lowerLabelBody_performs hargs.2) fun _ _ _ hbody => .hold rfl (.one hbody)

theorem lowerJump_calm {jump : Option String → NodeKind}
    (hjump : ∀ label, Built [] .any (of (jump label))) :
    Calm (Gives .any [] {}) (lowerJump form jump) := by
  unfold lowerJump
  split
  · exact .pure (hjump _)
  · exact .bind (.symbolIn form _ _) fun _ _ => .pure (hjump _)
  · exact .fault rfl

/-! ## Exceptions -/

theorem lowerThrow_performs : P.PerformsForm stored .throwing := by
  rintro ⟨node, name, _ | ⟨arg, _ | _⟩⟩ hargs
  · exact .fault rfl
  · exact .map (.value hargs.1) fun _ _ _ hargument => .hold rfl (.one hargument)
  · exact .fault rfl

theorem lowerScopedBody_performs {target : Node} {names : List String}
    (hnames : target.boundNames = names) (hts : Each P.trees ts) :
    P.Performs stored (.scope [] (.bind names (.statements ts)) .done)
      (lowerScopedBody · (some target) ts) (GivesAll .statement) := by
  subst hnames
  exact .inScope [] (.bindTarget target (lowerBody_performs hts))

theorem lowerCatch_performs (p : Option Position) (hts : Each P.trees ts) :
    P.Performs stored (catchScript ts) (lowerCatch · p ts) (Gives .handler) := by
  have hplain : P.Performs stored (.scope [] (.statements ts) .done)
      (fun lower => do
        let body ← lowerScopedBody lower none ts
        return ⟨.catchClause none (block body), p⟩) (Gives .handler) :=
    .map (.inScope [] (lowerBody_performs hts)) fun _ _ _ hbody => .hold rfl (.one (.block hbody))
  rcases ts with _ | ⟨first, body⟩
  · exact hplain
  cases first with
  | literal | list => exact hplain
  | symbol name q =>
    refine .bind (lowerTarget_performs hts.1) fun _ _ _ hparam => ?_
    refine .map (lowerScopedBody_performs hparam.2 hts.2) fun _ _ _ hbody => ?_
    exact .hold rfl (.cons hparam.1 (.one (.block hbody)))

def TryClauses.slots (clauses : TryClauses) : List (Slot × Node) :=
  Slot.handler.all clauses.handler.toList ++ Slot.statement.all clauses.finalizer.toList

theorem lowerTryClauses_performs (clauses : TryClauses) (leaves : List Leaf)
    (hclauses : BuiltAll leaves clauses.slots) (hts : Each P.trees ts) :
    P.Performs stored (tryClausesScript ts)
      (lowerTryClauses · form clauses ts)
      fun leaves' _ result => BuiltAll (leaves ++ leaves') result.slots := by
  induction ts generalizing clauses leaves with
  | nil => exact .pure (by simpa using hclauses)
  | cons clause rest ih =>
    unfold Comparison.Performs lowerTryClauses
    split
    · next parts p =>
      split
      · exact .fault rfl
      · next hfirst =>
        refine .bind (lowerCatch_performs p (P.shown.hereditary.each hts.1).2) fun handler leaves' _ hhandler => ?_
        obtain ⟨handler', finalizer⟩ := clauses
        simp only [Bool.or_eq_true, not_or, Bool.not_eq_true, Option.isSome_eq_false_iff,
          Option.isNone_iff_eq_none] at hfirst
        obtain ⟨rfl, rfl⟩ := hfirst
        rw [hclauses.eq_nil rfl]
        exact ih ⟨some handler, none⟩ leaves' (.one hhandler) hts.2
    · next body p =>
      refine .block ?_
      split
      · exact .fault rfl
      · next hfirst =>
        refine .bind (lowerBody_performs (P.shown.hereditary.each hts.1).2) fun _ _ _ hbody => ?_
        obtain ⟨handler, finalizer⟩ := clauses
        obtain rfl : finalizer = none := by simpa using hfirst
        have hhandler : BuiltAll leaves (Slot.handler.all handler.toList) := by
          simpa [TryClauses.slots, Slot.all] using hclauses
        simp only [← List.append_assoc]
        exact ih _ _ (hhandler.append (.one ((Built.block hbody).place p))) hts.2
    · exact .fault rfl

theorem exists_catch {clauses result : TryClauses} {c d : Context}
    (h : lowerTryClauses lower form clauses ts c = .ok result d) (hresult : result.handler ≠ none)
    (hclauses : clauses.handler = none) : ts.any (SExpr.isForm "catch") = true := by
  induction ts generalizing clauses c with
  | nil =>
    obtain ⟨rfl, -⟩ := pure_ok h
    exact absurd hclauses hresult
  | cons clause rest ih =>
    unfold lowerTryClauses at h
    split at h
    · simp [SExpr.isForm, SExpr.head?]
    · split at h
      · cases h
      · obtain ⟨body, c', -, h⟩ := bind_ok h
        simp [ih h hclauses]
    · cases h

end Lowering

end LispLowering
