import LispLowering.Proofs.Composition.Control

/-!
# What loops are made of
-/

namespace LispLowering.Lowering

open Node

open SExpr (Each)

variable {P : Comparison} {stored : Node → Prop} {form : Form} {ts : List SExpr}

/-! ## Heads of `for` loops -/

theorem forHead_calm (p : Option Position) {counter current start stop step : Node}
    {leaves₁ leaves₂ leaves₃ leaves₄ : List Leaf} (hcounter : Built leaves₁ .expression counter)
    (hcurrent : Built [] .expression current) (hstart : Built leaves₂ .expression start)
    (hstop : Built leaves₃ .expression stop) (hstep : Built leaves₄ .expression step) :
    Calm (fun head => ∀ body leaves', BuiltAll leaves' (Slot.statement.all body) →
        Built (leaves₁ ++ (leaves₂ ++ (leaves₃ ++ (leaves₄ ++ leaves')))) .any
          (forNode p head current body)) (forHead p counter current start stop step) := by
  have hdeclr {leaves leaves' : List Leaf} {id init : Node} (hid : Built leaves .expression id)
      (hinit : Built leaves' .expression init) :
      Built (leaves ++ leaves') .declarator (declarator id init) :=
    .hold rfl (.cons hid (.one hinit))
  have hbinary {leaves : List Leaf} {node : Node} (op : BinaryOp) (h : Built leaves .expression node) :
      Built leaves .expression ((binary op current node).place p) :=
    .hold rfl (.cons hcurrent (.one h))
  have hfor {head : ForHead} {body : List Node} {leaves leaves' leaves'' leaves₅ : List Leaf}
      (hdeclarators : BuiltAll leaves (Slot.declarator.all head.declarators))
      (htest : Built leaves' .expression head.test) (hnext : Built leaves'' .expression head.step)
      (hbody : BuiltAll leaves₅ (Slot.statement.all body)) :
      Built (leaves ++ (leaves' ++ (leaves'' ++ leaves₅))) .any (forNode p head current body) := by
    refine .hold rfl (.cons (.hold rfl hdeclarators) (.cons htest (.cons ?_ (.one ?_))))
    · exact .hold rfl (.cons hcurrent (.one (hbinary .add hnext)))
    · exact (Built.block hbody).place p
  unfold forHead
  split
  · next down hdown =>
    refine .pure fun _ _ hbody => ?_
    rw [← List.append_assoc]
    exact hfor (.one (hdeclr hcounter hstart)) (hbinary _ hstop) hstep hbody
  · refine .bind (.fresh "step") fun stepName _ => .pure fun _ _ hbody => ?_
    have href : Built [] .expression ((ident stepName).place p) := (Built.ident _).place p
    have hascending : Built [] .expression
        ((binary .gt ((ident stepName).place p) ((number 0).place p)).place p) :=
      .hold rfl (.cons href (.one ((Built.number 0).place p)))
    have htest : Built (leaves₃ ++ leaves₃) .expression
        (computedHead p stepName counter current start stop step).test :=
      .hold rfl (.skip hascending (.cons (hbinary .lt hstop) (.one (hbinary .gt hstop))))
    have hdeclarators : BuiltAll ((leaves₁ ++ leaves₂) ++ leaves₄) (Slot.declarator.all
        (computedHead p stepName counter current start stop step).declarators) :=
      .cons (hdeclr hcounter hstart) (.one (hdeclr href hstep))
    refine .regroup (fun _ => ?_) (hfor hdeclarators htest href hbody)
    simp only [List.mem_append, List.not_mem_nil]
    tauto

theorem lowerOrNumber_performs (p : Option Position) (default : Binary64) {tree : Option SExpr}
    (htree : ∀ t ∈ tree, P.trees t) :
    P.Performs stored (.values tree.toList) (lowerOrNumber · p default tree)
      (Gives .expression) := by
  cases tree with
  | none => exact .pure ((Built.number default).place p)
  | some t => exact .value (htree t rfl)

/-! ## Conditions, ranges and collections -/

theorem lowerWhile_performs : P.PerformsForm stored .whileLoop := by
  rintro ⟨node, name, _ | ⟨test, body⟩⟩ hargs
  · exact .fault rfl
  · refine .bind (.value hargs.1) fun _ _ _ htest => ?_
    refine .map (.inScope [] (lowerBody_performs hargs.2)) fun _ _ _ hbody => ?_
    exact .hold rfl (.cons htest (.one ((Built.block hbody).place _)))

theorem lowerFor_performs : P.PerformsForm stored .forLoop := by
  rintro ⟨node, name, _ | ⟨spec, body⟩⟩ hargs
  · exact .fault rfl
  · dsimp only [Comparison.Performs, lowerSpecial, lowerFor, specialScript, forScript]
    cases hrange : ForRange.ofItems? spec.bindingItems with
    | none => exact .fault rfl
    | some range =>
      have htrees := ForRange.all_of_items (bindingItems_of P.shown.hereditary hargs.1) hrange
      refine .block ?_
      -- the parts of the block and the scope of the body, as one sequence
      simp only [Script.append_assoc]
      refine .bind (lowerTarget_performs htrees.counter) fun counter _ _ hcounter => ?_
      cases counter.identifier? with
      | none => exact .fault rfl
      | some name =>
        -- the counter is not noted yet when the limit and the step are lowered
        refine .bind (lowerOrNumber_performs _ 0 htrees.start) fun _ _ _ hstart => .unnoted _ ?_
        show Performs P stored (.value range.stop ++ .values range.step.toList ++ _) _ _ _
        rw [Script.append_assoc]
        refine .bind (.value htrees.stop) fun _ _ _ hstop => ?_
        refine .bind (lowerOrNumber_performs _ 1 htrees.step) fun _ _ _ hstep => ?_
        have hcurrent : Built [] .expression
            ((ident name).place (counter.position.or node.position)) := (Built.ident name).place _
        refine .after (forHead_calm _ hcounter.1 hcurrent hstart hstop hstep) fun _ hhead => ?_
        exact .map (lowerScopedBody_performs hcounter.2 hargs.2) fun body leaves₅ _ hbody =>
          hhead body leaves₅ hbody

theorem lowerIteration_performs (hargs : Each P.trees form.args) :
    P.Performs stored (iterationScript form.args)
      (lowerIteration · form) fun leaves _ parts => BuiltAll leaves
        [(.declaration, parts.left), (.expression, parts.right), (.statement, parts.body)] := by
  rcases form with ⟨node, name, _ | ⟨spec, body⟩⟩
  · exact .fault rfl
  · have hitems := bindingItems_of P.shown.hereditary hargs.1
    dsimp only [Comparison.Performs, lowerIteration, iterationScript]
    generalize spec.bindingItems = items at hitems
    rcases items with _ | ⟨target, _ | ⟨collection, _ | ⟨_, _⟩⟩⟩
    iterate 2 exact .fault rfl
    · refine .bind (lowerTarget_performs hitems.1) fun target leaves _ htarget => ?_
      refine .bind (.value hitems.2.1) fun _ _ _ hright => ?_
      refine .map (lowerScopedBody_performs htarget.2 hargs.2) fun _ _ _ hbody => ?_
      have hnone : BuiltAll [] (Slot.expression.all (none : Option Node).toList) := .nil
      have hleft : Built (leaves ++ []) .declaration (declare .fixed target none) :=
        .declare rfl htarget.1 hnone
      rw [List.append_nil] at hleft
      exact .cons (hleft.place _) (.cons hright (.one ((Built.block hbody).place _)))
    · exact .fault rfl

theorem lowerForOf_performs (awaits : Bool) : P.PerformsForm stored (.forOf awaits) := by
  intro form hargs
  cases awaits with
  | false => exact .map (lowerIteration_performs hargs) fun _ _ _ hparts => .hold rfl hparts
  | true =>
    refine .bind (lowerIteration_performs hargs) fun _ _ _ hparts => ?_
    refine .map .noteAwait fun _ _ _ hleaves => ?_
    subst hleaves
    exact .marked rfl rfl rfl rfl hparts

theorem lowerForIn_performs : P.PerformsForm stored .forIn := fun _ hargs =>
  .map (lowerIteration_performs hargs) fun _ _ _ hparts => .hold rfl hparts

/-! ## Loops with `recur` -/

theorem lowerLoopVariables_performs (p : Option Position) (hts : Each P.trees ts) :
    P.Performs stored (pairsScript ts) (lowerLoopVariables · p ts)
      fun leaves _ bindings =>
        BuiltAll leaves (Slot.statement.all (bindings.map LoopVariable.declaration)) ∧
          ∀ binding ∈ bindings, binding.IsDeclared := by
  induction ts using List.twoStepInduction with
  | nil | singleton => exact .pure ⟨.nil, by simp⟩
  | cons_cons target value rest ih _ =>
    show Performs P stored (targetScript target ++
      (.values [value] ++ .bind (targetNames target) .done) ++ pairsScript rest) _ _ _
    simp only [Script.append_assoc]
    refine .bind (lowerTarget_performs hts.1) fun id leaves _ hid => ?_
    rw [← hid.2]
    refine .bind (.value hts.2.1) fun init leaves' _ hinit => .bindTarget id ?_
    refine .map (ih hts.2.2) fun _ _ _ hothers => ⟨?_, ?_⟩
    · have hdecl : Built (leaves ++ leaves') .statement (declareChanging id (some init)) :=
        .declare rfl hid.1 (.one hinit)
      rw [← List.append_assoc]
      exact .cons (hdecl.place _) hothers.1
    · exact List.forall_mem_cons.mpr ⟨⟨init, _, rfl⟩, hothers.2⟩

section

variable (label : String) (p : Option Position) {pairs : List SExpr} (hpairs : Each P.trees pairs)

include hpairs

theorem lowerLoopParts_follows {body : List SExpr} (hts : Each P.trees body) :
    P.Walks (.scope [] (pairsScript pairs ++ (Script.statements body).inPlace .looped) .done)
      (lowerLoopParts · label p pairs body) := by
  have hvariables : P.Walks (pairsScript pairs) (lowerLoopVariables · p pairs) :=
    (lowerLoopVariables_performs p hpairs).walks
  have hbody : P.Walks (.statements body) (lowerBody · body) := (lowerBody_performs hts).walks
  exact .inScope [] (.bind hvariables fun _ _ => .wrap (.inLoop _ (.inPlace _ (.wrap hbody))))

theorem lowerLoopParts_makes (body : List SExpr) (hl : Transparent P.first) :
    Makes P.first stored ((pairsScript pairs).parts ++ Place.statement.all body)
      (lowerLoopParts P.first label p pairs body) fun leaves _ parts =>
        (∀ binding ∈ parts.bindings, binding.IsDeclared) ∧ ∃ statements,
          parts.body = returningAll statements ∧ BuiltAll leaves (Slot.statement.all
            (parts.bindings.map LoopVariable.declaration ++ statements)) := by
  refine .inScope (.bind ((lowerLoopVariables_performs p hpairs).makes hl) fun _ _ _ hbinds => ?_) _
  have hbody : Makes P.first stored (Place.statement.all body) (lowerReturningBody P.first body)
      fun leaves _ lowered => ∃ statements, lowered = returningAll statements ∧
        BuiltAll leaves (Slot.statement.all statements) :=
    .map (lowerBody_makes hl body) fun statements _ _ hstmts => ⟨statements, rfl, hstmts⟩
  refine .map (.inLoop hbody _) fun _ _ _ hlowered => ⟨hbinds.2, ?_⟩
  obtain ⟨statements, hreturning, hstmts⟩ := hlowered
  exact ⟨statements, hreturning, .appendAll hbinds.1 hstmts⟩

theorem lowerLoopParts_logs {body : List SExpr} (hts : Each P.trees body) :
    P.Logs ((pairsScript pairs).parts ++ Place.looped.all body)
      (lowerLoopParts P.first label p pairs body) := by
  intro hl below hbelow
  have hvariables : P.Performs (fun _ => True) _ (lowerLoopVariables · p pairs) _ :=
    lowerLoopVariables_performs p hpairs
  have hbody : P.Performs (fun _ => True) _ (lowerBody · body) _ := lowerBody_performs hts
  have hstmts := hbody.logs hl below hbelow
  rw [Script.parts_statements, Place.acts_all] at hstmts
  rw [List.flatMap_append, Place.acts_all]
  refine .inScope (.bind (hvariables.logs hl below hbelow) fun _ bindings _ _ => ?_) _
  exact ((hstmts.map returningAll).inLoop _).map _

end

theorem loopPairs_calm (t : SExpr) : Calm (fun pairs => pairs = t.bindingItems) (loopPairs form t) :=
  .ite (.fault rfl) (.pure rfl)

theorem countRecur_steady (p : Option Position) :
    Steady (fun _ => True)
      (modify fun c => { c with loops := countRecur p c.loops } : Lower Unit) where
  agree := by
    intro V c c' hc
    obtain ⟨r, s, l, hr, rfl⟩ := hc.eq_with
    refine .ok ⟨{ Evolves.refl c with loops := ?_ }, V.grows_refl _, ⟨rfl, hr⟩, .refl _ _, {}, by simp,
      by simp⟩
    show SameLoops c.loops (countRecur p c.loops)
    cases c.loops with
    | nil => trivial
    | cons frame rest => exact ⟨rfl, rfl, rfl⟩
  ends := by
    rintro c _ _ ⟨⟩
    exact ⟨rfl, trivial⟩

theorem countRecur_performs (p : Option Position) :
    let count : Lower Unit := modify fun c => { c with loops := countRecur p c.loops }
    Performs P stored (.act .jump .done) count count fun leaves _ _ => leaves = [] := by
  refine .event .jumps {} rfl ((countRecur_steady p).imp fun _ _ => rfl) (fun c _ d hrun => ?_)
    (.countRecur p)
  cases hrun
  exact ⟨.jumps, by simp⟩

theorem lowerRecur_performs : P.PerformsForm stored .recur := by
  refine fun form hargs => .get (fun _ _ _ _ => rfl) fun c => ?_
  split
  · exact .fault rfl
  · next frame _ _ =>
    refine .ite (.fault rfl) (.bind (lowerValues_performs hargs) fun _ _ _ h => ?_)
    have hcallee : Built [] .expression ((ident frame.label).place form.position) :=
      (Built.ident _).place _
    refine .map (countRecur_performs _) fun _ _ _ hleaves => ?_
    rw [hleaves, List.append_nil]
    exact .widen (hcallee.call h)

end LispLowering.Lowering
