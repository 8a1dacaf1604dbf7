import LispLowering.Proofs.Provenance.Values

/-!
# Control under watch
-/

namespace LispLowering.Lowering

open Node SExpr

variable {w : Watch} {H : Prop} {lower : Lowerer} {Q : SExpr → Prop} {form : Form} {p : Option Position}
  {trees : List SExpr}
  {body rest : List SExpr}

/-- The step gives a node that is allowed as soon as it has a position. -/
abbrev TracedNode (w : Watch) (lower : Lowerer) (H : Prop) (m m' : Lower Node) : Prop :=
  Traced w lower H Node.erase m m' (Pending w)

/-- The form gives such a node wherever its head and its parts are fit for being lowered. -/
abbrev TracesForm (w : Watch) (Q : SExpr → Prop) (step : Lowerer → Form → Lower Node) : Prop :=
  ∀ ⦃lower : Lowerer⦄ ⦃form : Form⦄ ⦃H : Prop⦄, LowersOn w Q lower → w.Known form.position →
    Each Q form.args → TracedNode w lower H (step lower form) (step lower form.erase)

theorem Traced.pending {m m' : Lower Node} (h : Traced w lower H Node.erase m m' (Anchored w)) :
    TracedNode w lower H m m' :=
  h.imp fun _ hnode => hnode.pending

/-! ## Bindings -/

variable (h : LowersSourced w lower) (hp : w.Known form.position) (hargs : SuitIn w form.args)

include h in
theorem lowerDeclaration_traced (hQ : LowersOn w Q lower)
    (kind : VariableKind) {target : SExpr} {value : Option SExpr} (htarget : target.Suits w)
    (hvalue : ∀ t ∈ value, Q t) : TracedNode w lower H (lowerDeclaration lower kind target value)
      (lowerDeclaration lower kind target.erase (value.map SExpr.erase)) :=
  .bind (lowerTarget_traced h htarget) fun id => .bind (lowerOption_traced hQ hvalue) fun init =>
    .bind (.bindTarget id) fun _ => .pure (id.erase_declare kind init) fun ⟨⟨⟨_, hid⟩, hinit⟩, _⟩ =>
      pending rfl ⟨allowed rfl hid.known ⟨hid.allowed, allowedOption_of_anchored hinit⟩, trivial⟩

theorem lowerPairs_traced (h : LowersSourced w lower) (hQ : LowersOn w Q lower) (kind : VariableKind)
    {H : Prop} : (pairs : List SExpr) → (∀ pair ∈ pairsOf pairs, pair.1.Suits w ∧ Q pair.2) →
    Traced w lower H eraseAll (lowerPairs lower kind pairs)
      (lowerPairs lower kind (pairs.map SExpr.erase)) (AllowedIn w)
  | [], _ | [_], _ => .pure rfl fun _ => trivial
  | _ :: _ :: rest, hpairs => by
    obtain ⟨⟨htarget, hvalue⟩, hrest⟩ := List.forall_mem_cons.mp hpairs
    exact .bind (lowerDeclaration_traced h hQ kind htarget (forall_some hvalue)) fun _ =>
      .bind (lowerPairs_traced h hQ kind rest hrest) fun _ =>
        .pure (by simp) fun ⟨⟨_, hdecl⟩, hothers⟩ => ⟨(hdecl.place htarget.position).allowed, hothers⟩

/-- The parts of a binding form: a target with its values, or a list of pairs with a body. -/
structure BindingParts (w : Watch) (Q : SExpr → Prop) (target : SExpr) (rest : List SExpr) : Prop where
  known : w.Known target.position
  declared : target.items? = none ∨ isDestructuring target = true → target.Suits w
  pairs : ∀ pair ∈ pairsOf target.bindingItems, pair.1.Suits w ∧ Q pair.2
  rest : Each Q rest

theorem BindingParts.of_suits {target : SExpr} (htarget : target.Suits w) (hrest : SuitIn w rest) :
    BindingParts w (Suits w) target rest where
  known := htarget.position
  declared := fun _ => htarget
  pairs := suits_pairsOf htarget.bindingItems
  rest := hrest

include h hp in
theorem lowerScopedBindings_traced (hQ : LowersOn w Q lower)
    (kind : VariableKind) {target : SExpr} (hparts : BindingParts w Q target rest) :
    TracedNode w lower H (lowerScopedBindings lower form kind target rest)
      (lowerScopedBindings lower form.erase kind target.erase (rest.map SExpr.erase)) := by
  unfold lowerScopedBindings
  simp only [bindingItems_erase, List.length_map]
  refine .ite Iff.rfl (.refusePart hp hparts.known) (.bind (f := eraseAll)
    (R := AllowedIn w) (.inScope [] ?_) fun _ => .pure ?_ fun hbody => pending_at rfl hp hbody.2)
  · refine .bind (lowerPairs_traced h hQ kind _ hparts.pairs) fun _ =>
      .bind (lowerBody_traced hQ hparts.rest) fun _ => .pure (by simp) ?_
    rintro ⟨⟨-, hdecls⟩, hstmts⟩
    exact hdecls.append hstmts
  · rw [Form.position_erase]
    rfl

include h hp in
theorem lowerBinding_traced (hQ : LowersOn w Q lower) (kind : VariableKind)
    (hparts : ∀ target rest, form.args = target :: rest → BindingParts w Q target rest) :
    TracedNode w lower H (lowerBinding lower form kind) (lowerBinding lower form.erase kind) := by
  obtain ⟨node, name, args⟩ := form
  cases args with
  | nil => exact .refuseForm hp
  | cons target rest =>
    have hparts := hparts target rest rfl
    have hscoped : TracedNode w lower H _ _ := lowerScopedBindings_traced h hp hQ kind hparts
    match target, rest, hparts, hscoped with
    | .literal _ _, _, hparts, _ => exact .refusePart hp hparts.known
    | .symbol _ _, [], hparts, _ =>
      exact .ite Iff.rfl (lowerDeclaration_traced h hQ kind (hparts.declared (.inl rfl)) (by simp))
        (.refuseForm hp)
    | .symbol _ _, [value], hparts, _ =>
      exact lowerDeclaration_traced h hQ kind (hparts.declared (.inl rfl)) (forall_some hparts.rest.1)
    | .symbol _ _, _ :: _ :: _, _, _ => exact .refuseForm hp
    | .list items p, [value], hparts, hscoped =>
      exact .ite_of (by rw [isDestructuring_erase]) (fun htarget =>
        lowerDeclaration_traced h hQ kind (hparts.declared (.inr htarget)) (forall_some hparts.rest.1))
        fun _ => hscoped
    | .list items p, [], _, hscoped | .list items p, _ :: _ :: _, _, hscoped => exact hscoped

theorem lowerAssignment_traced : TracesForm w (Suits w) lowerAssignment := by
  rintro lower ⟨node, name, args⟩ H h hp hargs
  match args, hargs with
  | [], _ | [_], _ | _ :: _ :: _ :: _, _ => exact .refuseForm hp
  | [target, value], hargs =>
    have hassign {H : Prop} (place : Node) : TracedNode w lower (H ∧ place.Anchored w)
        (if isAssignable place then do return assign place (← lowerValue lower value)
          else Form.refusePart ⟨node, name, [target, value]⟩ target (.assignmentTarget target))
        (if isAssignable place.erase then do
            return assign place.erase (← lowerValue lower value.erase)
          else Form.refusePart ⟨node.erase, name, [target.erase, value.erase]⟩ target.erase
            (.assignmentTarget target.erase)) :=
      .ite (by rw [isAssignable_erase]) (.map (lowerValue_traced h hargs.2.1) (fun _ => rfl)
        fun hplace _ hvalue => pending rfl ⟨hplace.2.allowed, hvalue.allowed⟩)
        (.refusePart hp hargs.1.position)
    refine .ite (by rw [isDestructuring_erase]) ?_ ?_
    · exact .bind (lowerTarget_traced h hargs.1) fun place => hassign place
    · exact .bind (lowerValue_traced h hargs.1) fun place => hassign place

/-! ## Branches and sequences -/

theorem lowerBranch_traced (h : LowersOn w Q lower) {t : SExpr} (ht : Q t) :
    Traced w lower H Node.erase (lowerBranch lower t) (lowerBranch lower t.erase) (Anchored w) := by
  refine .map (h.traced ht) (fun result => ?_) fun _ result hresult => ?_
  · cases result with
    | none => simp [null, Node.literal, of, Node.place, NodeKind.erase, eraseOption]
    | some node => rfl
  · cases result with
    | none => exact anchored_null (h.known ht)
    | some node => exact hresult node rfl

theorem lowerSequence_traced (h : LowersOn w Q lower) (hp : w.Known p) (ht : Each Q trees) :
    Traced w lower H Node.erase (lowerSequence lower p trees)
      (lowerSequence lower none (trees.map SExpr.erase)) (Anchored w) := by
  match trees, ht with
  | [], _ => exact .pure rfl fun _ => anchored_undefined hp
  | [single], ht => exact lowerBranch_traced h ht.1
  | first :: second :: rest, ht =>
    exact .map (.inScope _ (lowerBody_traced h ht)) (fun _ => rfl) fun _ _ hbody =>
      anchored rfl hp hbody

theorem pending_choose {test consequent : Node} {alternate : Option Node} (htest : test.Allowed w)
    (hthen : consequent.Allowed w) (halternate : AllowedOption w alternate)
    (hnone : alternate = none → w.gaps .fallback) : (choose test consequent alternate).Pending w ∧
      (w.gaps .choice → (choose test consequent alternate).Allowed w) := by
  unfold choose
  split
  · have hinner : (NodeKind.ifStatement test consequent.asStatement
        (alternate.map asStatement)).fold w.shut True And w.Allows := by
      refine ⟨htest, hthen.asStatement, ?_⟩
      cases alternate with
      | none => trivial
      | some node => exact Allowed.asStatement halternate
    exact ⟨pending rfl hinner, fun hgap => allowed_gap rfl rfl hgap hinner⟩
  · have hinner : (NodeKind.conditional test consequent
        (alternate.getD undefined)).fold w.shut True And w.Allows := by
      refine ⟨htest, hthen, ?_⟩
      cases alternate with
      | none =>
        have hgap : w.Placed undefined := .inr ⟨rfl, .inl ⟨.fallback, hnone rfl, rfl⟩⟩
        exact allowed_typedIdent (Watch.not_own (.inl rfl) (by decide)) hgap
      | some node => exact halternate
    exact ⟨pending rfl hinner, fun hgap => allowed_gap rfl rfl hgap hinner⟩

theorem lowerIf_traced (h : LowersOn w Q lower) (hp : w.Known form.position)
    (hargs : Each Q form.args) (hgap : form.args.length = 2 → w.gaps .fallback) :
    TracedNode w lower H (lowerIf lower form) (lowerIf lower form.erase) := by
  obtain ⟨node, name, args⟩ := form
  match args, hargs with
  | [], _ | [_], _ | _ :: _ :: _ :: _ :: _, _ => exact .refuseForm hp
  | [test, consequent], hargs =>
    have hnone : AllowedOption w none := trivial
    exact .bind (lowerValue_traced h hargs.1) fun test =>
      .bind (lowerBranch_traced h hargs.2.1) fun consequent =>
        .pure (erase_choose ..) fun ⟨⟨_, htest⟩, hthen⟩ =>
          (pending_choose htest.allowed hthen.allowed hnone fun _ => hgap rfl).1
  | [test, consequent, alternate], hargs =>
    exact .bind (lowerValue_traced h hargs.1) fun _ =>
      .bind (lowerBranch_traced h hargs.2.1) fun _ =>
        .bind (lowerBranch_traced h hargs.2.2.1) fun alternate =>
          .pure (erase_choose ..) fun ⟨⟨⟨_, htest⟩, hthen⟩, halternate⟩ =>
            have hsome : AllowedOption w (some alternate) := halternate.allowed
            (pending_choose htest.allowed hthen.allowed hsome nofun).1

/-- What clauses choose, together with the clauses that they come from. -/
def ChoiceOf (w : Watch) (clauses : List SExpr) (choice : Option Node) : Prop :=
  (choice = none → clauses = []) ∧
    ∀ node ∈ choice, node.Pending w ∧ ((0 < testCount clauses → w.gaps .choice) → node.Allowed w)

theorem choiceOf_cons {test value : Node} {later : Option Node} {clause : SExpr}
    (hclause : clause.isElseClause = false) (htest : test.Allowed w) (hvalue : value.Allowed w)
    (hlater : ChoiceOf w rest later)
    (hfallback : testCount (clause :: rest) = (clause :: rest).length → w.gaps .fallback)
    (hchoice : 2 ≤ testCount (clause :: rest) → w.gaps .choice) :
    ChoiceOf w (clause :: rest) (some (choose test value later)) := by
  have hcount : testCount (clause :: rest) = testCount rest + 1 := by simp [testCount, hclause]
  have halternate : AllowedOption w later := by
    cases later with
    | none => trivial
    | some node =>
      exact (hlater.2 node rfl).2 fun _ => hchoice (by omega)
  have hnone : later = none → w.gaps .fallback := by
    intro heq
    have hrest := hlater.1 heq
    subst hrest
    exact hfallback (by rw [hcount]; rfl)
  obtain ⟨hpending, hallowed⟩ := pending_choose htest hvalue halternate hnone
  refine ⟨nofun, ?_⟩
  rintro _ ⟨⟩
  exact ⟨hpending, fun hgap => hallowed (hgap (by omega))⟩

/-- A clause in a form: a list of trees with the property. A symbol in it may be a target. -/
def ClauseParts (w : Watch) (Q : SExpr → Prop) (clause : SExpr) : Prop :=
  w.Known clause.position ∧ ∀ items p, clause = .list items p →
    Each Q items ∧ ∀ text q, .symbol text q ∈ items → (SExpr.symbol text q).Suits w

theorem ClauseParts.of_suits {clause : SExpr} (h : clause.Suits w) : ClauseParts w (Suits w) clause := by
  refine ⟨h.position, ?_⟩
  rintro items p rfl
  exact ⟨h.itemsIn, fun text q => suitIn_iff.mp h.itemsIn _⟩

theorem lowerCondClauses_traced (h : LowersOn w Q lower) (hp : w.Known form.position)
    (clauses : List SExpr) (hclauses : Each (ClauseParts w Q) clauses)
    (hfallback : testCount clauses = clauses.length → w.gaps .fallback)
    (hchoice : 2 ≤ testCount clauses → w.gaps .choice) :
    Traced w lower H (List.map CondClause.erase) (lowerCondClauses lower form clauses)
      (lowerCondClauses lower form.erase (clauses.map SExpr.erase)) fun lowered =>
        ChoiceOf w clauses (chooseClause lowered) := by
  induction clauses generalizing H with
  | nil => exact .pure rfl fun _ => ⟨fun _ => rfl, by simp [chooseClause]⟩
  | cons clause rest ih =>
    -- a clause that has no value beside its test is refused
    rcases clause with ⟨_, _⟩ | ⟨_, _⟩ | ⟨_ | ⟨test, _ | ⟨first, more⟩⟩, p⟩
    iterate 4 exact .refusePart hp hclauses.1.1
    have hclause := (hclauses.1.2 _ _ rfl).1
    have hvalue {H : Prop} : Traced w lower H Node.erase (lowerSequence lower p (first :: more))
        (lowerSequence lower none ((first :: more).map SExpr.erase)) (Anchored w) :=
      lowerSequence_traced h hclauses.1.1 hclause.2
    have hempty : (rest.map SExpr.erase).isEmpty = rest.isEmpty := by cases rest <;> rfl
    simp only [List.map_cons, erase_list, lowerCondClauses, isElse_erase, hempty]
    by_cases helse : isElse test = true
    · rw [if_pos helse, if_pos helse]
      refine .ite Iff.rfl (.refusePart hp hclauses.1.1) (.map hvalue (fun _ => rfl)
        fun _ value hvalue => ⟨fun hnone => absurd hnone (Option.some_ne_none value), ?_⟩)
      rintro _ ⟨⟩
      exact ⟨hvalue.pending, fun _ => hvalue.allowed⟩
    · rw [if_neg helse, if_neg helse]
      have htest : (list (test :: first :: more) p).isElseClause = false := by
        simpa [isElseClause] using helse
      have hcount : testCount (list (test :: first :: more) p :: rest) = testCount rest + 1 := by
        simp [testCount, htest]
      have hfallback' : testCount rest = rest.length → w.gaps .fallback := fun hall =>
        hfallback (by rw [hcount, hall]; rfl)
      have hchoice' : 2 ≤ testCount rest → w.gaps .choice := fun _ => hchoice (by omega)
      refine .bind (lowerValue_traced h hclause.1) fun _ => .bind hvalue fun _ =>
        .bind (ih hclauses.2 hfallback' hchoice') fun _ => .pure rfl ?_
      rintro ⟨⟨⟨-, hlowered⟩, hvalue⟩, hclauses⟩
      exact choiceOf_cons htest hlowered.allowed hvalue.allowed hclauses hfallback hchoice

theorem lowerCond_traced (h : LowersOn w Q lower) (hp : w.Known form.position)
    (hargs : Each (ClauseParts w Q) form.args) (hgaps : ∀ gap ∈ condGaps form.args, w.gaps gap) :
    TracedNode w lower H (lowerCond lower form) (lowerCond lower form.erase) := by
  have hfallback : testCount form.args = form.args.length → w.gaps .fallback := fun hall =>
    hgaps _ (List.mem_append_left _ (by simp [hall]))
  have hchoice : 2 ≤ testCount form.args → w.gaps .choice := fun hmany =>
    hgaps _ (List.mem_append_right _ (by simp [hmany]))
  refine .map (lowerCondClauses_traced h hp form.args hargs hfallback hchoice) (fun clauses => ?_)
    fun _ clauses hclauses => ?_
  · rw [chooseClause_erase]
    cases chooseClause clauses <;> rfl
  · cases hchosen : chooseClause clauses with
    | none => exact pending_ident (Watch.not_own (.inl rfl) (by decide))
    | some node => exact (hclauses.2 node hchosen).1

theorem lowerDo_traced : TracesForm w Q lowerDo := by
  intro lower form H h hp hargs
  unfold lowerDo
  rw [Form.position_erase]
  exact Traced.pending (lowerSequence_traced h hp hargs)

/-! ## Switches and labels -/

theorem allowed_switchCase {body : List Node} {test : Option Node} (hp : w.Known p)
    (hgap : w.gaps .exit) (htest : AllowedOption w test) (hbody : AllowedIn w body) :
    (switchCase p test body).Allowed w := by
  refine allowed rfl hp ⟨htest, ?_⟩
  split
  · exact hbody
  · exact AllowedIn.append hbody (.single (allowed_gap rfl rfl hgap trivial))

include h hp in
theorem lowerSwitchClauses_traced
    (hgap : w.gaps .exit) (seenDefault : Bool) (clauses : List SExpr)
    (hclauses : SuitIn w clauses) :
    Traced w lower H eraseAll (lowerSwitchClauses lower form seenDefault clauses)
      (lowerSwitchClauses lower form.erase seenDefault (clauses.map SExpr.erase)) (AllowedIn w) := by
  induction clauses generalizing H seenDefault with
  | nil => exact .pure rfl fun _ => trivial
  | cons clause rest ih =>
    have hknown := hclauses.1.position
    -- only a list that begins with a symbol can be a clause
    rcases clause with ⟨_, _⟩ | ⟨_, _⟩ | ⟨_ | ⟨⟨head, q⟩ | ⟨_, _⟩ | ⟨_, _⟩, parts⟩, p⟩
    iterate 3 exact .refusePart hp hknown
    rotate_left
    iterate 2 exact .refusePart hp hknown
    have hclause := hclauses.1.itemsIn
    rw [List.map_cons, erase_list, List.map_cons, erase_symbol]
    by_cases hcase : head = "case"
    · subst hcase
      cases parts with
      | nil => exact .refusePart hp hknown
      | cons test body =>
        refine .bind (lowerValue_traced h hclause.2.1) fun _ =>
          .bind (lowerBody_traced h hclause.2.2) fun _ =>
            .bind (ih seenDefault hclauses.2) fun _ => .pure ?_ ?_
        · rw [eraseAll, erase_switchCase]
          rfl
        · rintro ⟨⟨⟨-, htest⟩, hbody⟩, hcases⟩
          exact ⟨allowed_switchCase hknown hgap htest.allowed hbody, hcases⟩
    · by_cases hdefault : head = "default"
      · subst hdefault
        refine .ite Iff.rfl (.refusePart hp hknown) ?_
        refine .bind (lowerBody_traced h hclause.2) fun _ =>
          .bind (ih true hclauses.2) fun _ => .pure ?_ ?_
        · rw [eraseAll, erase_switchCase]
          rfl
        · rintro ⟨⟨-, hbody⟩, hcases⟩
          exact ⟨allowed_switchCase hknown hgap trivial hbody, hcases⟩
      · obtain ⟨fault, heq⟩ := lowerSwitchClauses_other form seenDefault hcase hdefault q p parts rest
        obtain ⟨fault', heq'⟩ := lowerSwitchClauses_other form.erase seenDefault hcase hdefault none
          none (parts.map SExpr.erase) (rest.map SExpr.erase)
        rw [heq, heq']
        exact .refusePart hp hknown

include h hp hargs in
theorem lowerSwitch_traced (hgap : w.gaps .exit) :
    TracedNode w lower H (lowerSwitch lower form) (lowerSwitch lower form.erase) := by
  obtain ⟨node, name, args⟩ := form
  match args, hargs with
  | [], _ => exact .refuseForm hp
  | discriminant :: clauses, hargs =>
    exact .bind (lowerValue_traced h hargs.1) fun _ =>
      .bind (lowerSwitchClauses_traced h hp hgap false clauses hargs.2)
        fun _ => .pure rfl fun ⟨⟨_, hdisc⟩, hcases⟩ => pending rfl ⟨hdisc.allowed, hcases⟩

theorem lowerLabelBody_traced (h : LowersOn w Q lower) (ht : Each Q trees) (hgap : w.gaps .block) :
    Traced w lower H Node.erase (lowerLabelBody lower trees)
      (lowerLabelBody lower (trees.map SExpr.erase)) (Allowed w) := by
  have hblock : Traced w lower H Node.erase (lowerBody lower trees >>= fun body => pure (Node.block body))
      (lowerBody lower (trees.map SExpr.erase) >>= fun body => pure (Node.block body))
      (Allowed w) :=
    .map (lowerBody_traced h ht) (fun _ => rfl) fun _ _ hbody => allowed_gap rfl rfl hgap hbody
  match trees, ht with
  | [], _ => exact hblock
  | _ :: _ :: _, _ => exact hblock
  | [single], ht =>
    refine .map (h.traced ht.1) (fun result => ?_) fun _ result hresult => ?_
    · cases result <;> simp [eraseOption, Node.block, of, NodeKind.erase]
    · cases result with
      | none => exact Allowed.asStatement (allowed_gap rfl rfl hgap trivial)
      | some node => exact (hresult node rfl).allowed.asStatement

include h hp hargs in
theorem lowerLabel_traced (hgap : w.gaps .block) :
    TracedNode w lower H (lowerLabel lower form) (lowerLabel lower form.erase) := by
  obtain ⟨node, name, args⟩ := form
  match args, hargs with
  | [], _ | [_], _ => exact .refuseForm hp
  | label :: first :: more, hargs =>
    exact symbolIn_traced hp (forall_some hargs.1) fun _ _ =>
      .map (lowerLabelBody_traced h hargs.2 hgap) (fun _ => rfl) fun _ _ hbody => pending rfl hbody

theorem lowerJump_traced {jump : Option String → NodeKind}
    (herase : ∀ label, (jump label).erase = jump label)
    (hjump : ∀ label : Option String, (∀ name ∈ label, w.Silent name) → (of (jump label)).Pending w)
    (hp : w.Known form.position) (hargs : SuitIn w form.args) :
    TracedNode w lower H (lowerJump form jump) (lowerJump form.erase jump) := by
  obtain ⟨node, name, args⟩ := form
  match args, hargs with
  | [], _ => exact .pure (congrArg of (herase none)) fun _ => hjump none nofun
  | _ :: _ :: _, _ => exact .refuseForm hp
  | [label], hargs =>
    refine symbolIn_traced hp (forall_some hargs.1) fun name hname =>
      .pure (congrArg of (herase (some name))) fun _ => hjump _ ?_
    rintro _ ⟨⟩
    exact hname

theorem pending_break (label : Option String) : (of (.breakStatement label)).Pending w :=
  pending rfl trivial

theorem pending_continue {label : Option String} (h : ∀ name ∈ label, w.Silent name) :
    (of (.continueStatement label)).Pending w := by
  refine ⟨fun name hname heq => ?_, trivial, nofun, Watch.sited_none, List.forall_mem_nil _⟩
  exact h name heq name hname .label

/-! ## Exceptions -/

theorem lowerThrow_traced : TracesForm w Q lowerThrow := by
  rintro lower ⟨node, name, args⟩ H h hp hargs
  match args, hargs with
  | [], _ | _ :: _ :: _, _ => exact .refuseForm hp
  | [arg], hargs =>
    exact .map (lowerValue_traced h hargs.1) (fun _ => rfl) fun _ _ harg => pending rfl harg.allowed

theorem lowerScopedBody_traced (h : LowersOn w Q lower) (target : Option Node)
    (hbody : Each Q body) : Traced w lower H eraseAll (lowerScopedBody lower target body)
      (lowerScopedBody lower (eraseOption target) (body.map SExpr.erase)) (AllowedIn w) := by
  cases target with
  | none => exact .inScope _ (lowerBody_traced h hbody)
  | some target =>
    exact .inScope _ (.bind (.bindTarget target) fun _ => lowerBody_traced h hbody)

include h in
theorem lowerCatch_traced (hQ : LowersOn w Q lower) (hp : w.Known p) (hgap : w.gaps .block)
    {parts : List SExpr} (hparts : Each Q parts)
    (htarget : ∀ text q, .symbol text q ∈ parts → (SExpr.symbol text q).Suits w) : Traced w lower H Node.erase (lowerCatch lower p parts)
      (lowerCatch lower none (parts.map SExpr.erase)) (Allowed w) := by
  have hplain : Traced w lower H Node.erase
      (lowerScopedBody lower none parts >>= fun body => pure ⟨.catchClause none (Node.block body), p⟩)
      (lowerScopedBody lower none (parts.map SExpr.erase) >>= fun body =>
        pure ⟨.catchClause none (Node.block body), none⟩) (Allowed w) :=
    .map (lowerScopedBody_traced hQ none hparts) (fun _ => rfl) fun _ _ hbody =>
      allowed rfl hp ⟨trivial, allowed_gap rfl rfl hgap hbody⟩
  match parts, hparts with
  | .symbol name q :: body, hparts =>
    exact .bind (lowerTarget_traced h (htarget name q (.head _))) fun param =>
      .bind (lowerScopedBody_traced hQ (some param) hparts.2) fun _ =>
        .pure rfl fun ⟨⟨_, hparam⟩, hbody⟩ =>
          allowed rfl hp ⟨hparam.allowed, allowed_gap rfl rfl hgap hbody⟩
  | [], _ | .literal _ _ :: _, _ | .list _ _ :: _, _ => exact hplain

/-- What is asked of a part of a `try` form behind its body, which should be a clause. -/
def TryParts (w : Watch) (Q : SExpr → Prop) (part : SExpr) : Prop :=
  w.Known part.position ∧ (isTryClause part = true → ClauseParts w Q part)

def TryClauses.Allowed (w : Watch) (clauses : TryClauses) : Prop :=
  AllowedOption w clauses.handler ∧ AllowedOption w clauses.finalizer

theorem lowerTryClauses_traced (h : LowersSourced w lower) (hQ : LowersOn w Q lower)
    (hp : w.Known form.position) (hgap : w.gaps .block) {H : Prop} :
    (clauses : TryClauses) → (H → clauses.Allowed w) →
    (trees : List SExpr) → Each (TryParts w Q) trees →
    Traced w lower H TryClauses.erase (lowerTryClauses lower form clauses trees)
      (lowerTryClauses lower form.erase clauses.erase (trees.map SExpr.erase)) (TryClauses.Allowed w)
  | _, hclauses, [], _ => .pure rfl hclauses
  | _, _, .symbol _ _ :: _, htrees | _, _, .literal _ _ :: _, htrees | _, _, .list [] _ :: _, htrees
  | _, _, .list (.literal _ _ :: _) _ :: _, htrees | _, _, .list (.list _ _ :: _) _ :: _, htrees =>
    .refusePart hp htrees.1.1
  | clauses, hclauses, .list (.symbol head q :: parts) p :: rest, htrees => by
    obtain ⟨hknown, hparts⟩ := htrees.1
    rw [List.map_cons, erase_list, List.map_cons, erase_symbol]
    by_cases hcatch : head = "catch"
    · subst hcatch
      obtain ⟨⟨-, hitems⟩, htarget⟩ := (hparts rfl).2 _ _ rfl
      refine .ite (by simp) (.refusePart hp hknown)
        (.bind (lowerCatch_traced h hQ hknown hgap hitems fun text q hsymbol =>
          htarget text q (.tail _ hsymbol)) fun handler => ?_)
      have hnext : H ∧ handler.Allowed w → TryClauses.Allowed w { clauses with handler := some handler } :=
        fun ⟨hH, hhandler⟩ => ⟨hhandler, (hclauses hH).2⟩
      exact lowerTryClauses_traced h hQ hp hgap _ hnext rest htrees.2
    · by_cases hfinally : head = "finally"
      · subst hfinally
        obtain ⟨⟨-, hitems⟩, -⟩ := (hparts rfl).2 _ _ rfl
        refine .ite (by simp) (.refusePart hp hknown)
          (.bind (lowerBody_traced hQ hitems) fun body => ?_)
        have hnext : H ∧ AllowedIn w body →
            TryClauses.Allowed w { clauses with finalizer := some ((Node.block body).place p) } :=
          fun ⟨hH, hbody⟩ => ⟨(hclauses hH).1, allowed rfl hknown hbody⟩
        exact lowerTryClauses_traced h hQ hp hgap _ hnext rest htrees.2
      · obtain ⟨fault, heq⟩ := lowerTryClauses_other form clauses hcatch hfinally q p parts rest
        obtain ⟨fault', heq'⟩ := lowerTryClauses_other form.erase clauses.erase hcatch hfinally none
          none (parts.map SExpr.erase) (rest.map SExpr.erase)
        rw [heq, heq']
        exact .refusePart hp hknown

include h hp in
theorem lowerTry_traced (hQ : LowersOn w Q lower)
    (hbody : Each Q (form.args.takeWhile fun arg => !isTryClause arg))
    (hclauses : Each (TryParts w Q) (form.args.dropWhile fun arg => !isTryClause arg))
    (hgap : w.gaps .block) :
    TracedNode w lower H (lowerTry lower form) (lowerTry lower form.erase) := by
  have htake : form.erase.args.takeWhile (fun arg => !isTryClause arg) =
      (form.args.takeWhile fun arg => !isTryClause arg).map SExpr.erase := by
    simp [Form.erase, List.takeWhile_map, Function.comp_def]
  have hdrop : form.erase.args.dropWhile (fun arg => !isTryClause arg) =
      (form.args.dropWhile fun arg => !isTryClause arg).map SExpr.erase := by
    simp [Form.erase, List.dropWhile_map, Function.comp_def]
  unfold lowerTry
  rw [htake, hdrop]
  exact .bind (lowerBody_traced hQ hbody) fun _ =>
    .bind (lowerTryClauses_traced h hQ hp hgap {} (fun _ => ⟨trivial, trivial⟩) _ hclauses) fun _ =>
      .ite (by simp [TryClauses.erase]) (.refuseForm hp) <| .pure rfl fun ⟨⟨_, hbody⟩, hclauses⟩ =>
        pending rfl ⟨allowed_gap rfl rfl hgap hbody, hclauses.1, hclauses.2⟩

/-! ## Iteration -/

theorem lowerWhile_traced : TracesForm w Q lowerWhile := by
  rintro lower ⟨node, name, args⟩ H h hp hargs
  match args, hargs with
  | [], _ => exact .refuseForm hp
  | test :: body, hargs =>
    exact .bind (lowerValue_traced h hargs.1) fun _ =>
      .bind (lowerScopedBody_traced h none hargs.2) fun _ =>
        .pure (by rw [Form.position_erase]; rfl) fun ⟨⟨_, htest⟩, hbody⟩ =>
          pending rfl ⟨htest.allowed, allowed rfl hp hbody⟩

def ForHead.Allowed (w : Watch) (head : ForHead) : Prop :=
  AllowedIn w head.declarators ∧ head.test.Allowed w ∧ head.step.Allowed w

theorem lowerOrNumber_traced (h : LowersOn w Q lower) (hp : w.Known p) (default : Binary64)
    {tree : Option SExpr} (ht : ∀ t ∈ tree, Q t) :
    Traced w lower H Node.erase (lowerOrNumber lower p default tree)
      (lowerOrNumber lower none default (tree.map SExpr.erase)) (Anchored w) := by
  cases tree with
  | none => exact .pure rfl fun _ => anchored rfl hp trivial
  | some t => exact lowerValue_traced h (ht t rfl)

theorem pending_forNode (hp : w.Known p) {head : ForHead} {current : Node} {body : List Node}
    (hhead : head.Allowed w) (hcurrent : current.Allowed w) (hbody : AllowedIn w body) :
    (forNode p head current body).Pending w := by
  have hnext : ((Node.binary .add current head.step).place p).Allowed w :=
    allowed rfl hp ⟨hcurrent, hhead.2.2⟩
  exact pending rfl ⟨allowed rfl hp hhead.1, hhead.2.1,
    allowed rfl hp ⟨hcurrent, hnext⟩, allowed rfl hp hbody⟩

theorem identifier?_not_mem {node : Node} {name : String} (h : node.Allowed w)
    (hname : node.identifier? = some name) : name ∉ w.names := by
  intro hmem
  obtain ⟨kind, q⟩ := node
  cases kind with
  | identifier own ascribed =>
    cases hname
    exact h.1.spares _ hmem rfl
  | _ => cases hname

/-- What a `for` loop is made of apart from its body. -/
structure RangeParts where
  counter : Node
  current : Node
  start : Node
  stop : Node
  step : Node

def lowerRange (lower : Lowerer) (form : Form) (spec : SExpr) : Lower RangeParts := do
  match ForRange.ofItems? spec.bindingItems with
  | none => form.refusePart spec (.forRange spec)
  | some range =>
    let counter ← lowerTarget lower range.counter
    match counter.identifier? with
    | none => form.refusePart range.counter (.invalidPart "loop variable" "for" range.counter)
    | some name =>
      let start ← lowerOrNumber lower form.position 0 range.start
      let stop ← lowerValue lower range.stop
      let step ← lowerOrNumber lower form.position 1 range.step
      return ⟨counter, (ident name).place (counter.position.or form.position), start, stop, step⟩

theorem lowerFor_eq {spec : SExpr} (hargs : form.args = spec :: body) : lowerFor lower form = do
      let parts ← lowerRange lower form spec
      let head ← forHead form.position parts.counter parts.current parts.start parts.stop parts.step
      let body ← lowerScopedBody lower (some parts.counter) body
      return forNode form.position head parts.current body := by
  unfold lowerFor lowerRange
  rw [hargs]
  dsimp only
  cases ForRange.ofItems? spec.bindingItems with
  | none => rfl
  | some range =>
    simp only [bind_assoc]
    congr 1
    funext counter
    cases counter.identifier? with
    | none => rfl
    | some name => simp only [bind_assoc, pure_bind]

/-- The parts of a range are allowed. -/
structure RangeParts.Allowed (w : Watch) (parts : RangeParts) : Prop where
  counter : parts.counter.Anchored w
  current : parts.current.Allowed w
  start : parts.start.Allowed w
  stop : parts.stop.Allowed w
  step : parts.step.Allowed w

def RangeParts.erase (parts : RangeParts) : RangeParts :=
  ⟨parts.counter.erase, parts.current.erase, parts.start.erase, parts.stop.erase, parts.step.erase⟩

theorem forHead_traced (hp : w.Known p) {parts : RangeParts} (hparts : H → parts.Allowed w) :
    Traced w lower H ForHead.erase (forHead p parts.counter parts.current parts.start parts.stop parts.step)
      (forHead none parts.erase.counter parts.erase.current parts.erase.start parts.erase.stop
        parts.erase.step) (ForHead.Allowed w) := by
  have hdeclr {id init : Node} (hid : id.Anchored w) (hinit : init.Allowed w) :
      (declarator id init).Allowed w := allowed rfl hid.known ⟨hid.allowed, hinit⟩
  simp only [forHead, RangeParts.erase, countsDown?_erase]
  cases countsDown? parts.step with
  | some down =>
    refine .pure ?_ fun hH => ?_
    · cases down <;> simp [literalHead, ForHead.erase, declarator, NodeKind.erase, Node.binary,
        of, Node.place]
    · obtain ⟨hcounter, hcurrent, hstart, hstop, hstep⟩ := hparts hH
      exact ⟨.single (hdeclr hcounter hstart), allowed rfl hp ⟨hcurrent, hstop⟩, hstep⟩
  | none =>
    refine .bind (.fresh (by decide)) fun stepName => .pure ?_ ?_
    · simp [computedHead, ForHead.erase, declarator, NodeKind.erase, Node.binary, Node.conditional,
        ident, typedIdent, number, Node.literal, of, Node.place]
    · rintro ⟨hH, hname⟩
      obtain ⟨hcounter, hcurrent, hstart, hstop, hstep⟩ := hparts hH
      have href := anchored_ident hname hp
      have hcompared (op : BinaryOp) : ((Node.binary op parts.current parts.stop).place p).Allowed w :=
        allowed rfl hp ⟨hcurrent, hstop⟩
      have hascending : ((Node.binary .gt ((ident stepName).place p)
          ((number 0).place p)).place p).Allowed w :=
        allowed rfl hp ⟨href.allowed, allowed_literal hp⟩
      exact ⟨⟨hdeclr hcounter hstart, hdeclr href hstep, trivial⟩,
        allowed rfl hp ⟨hascending, hcompared .lt, hcompared .gt⟩, href.allowed⟩

include h hp in
theorem lowerRange_traced {spec : SExpr}
    (hspec : spec.Suits w) : Traced w lower H RangeParts.erase (lowerRange lower form spec)
      (lowerRange lower form.erase spec.erase) (RangeParts.Allowed w) := by
  unfold lowerRange
  rw [bindingItems_erase, ForRange.ofItems?_erase, Form.position_erase]
  cases hrange : ForRange.ofItems? spec.bindingItems with
  | none => exact .refusePart hp hspec.position
  | some range =>
    have hrange := ForRange.all_of_items hspec.bindingItems hrange
    refine .bind (lowerTarget_traced h hrange.counter) fun counter => ?_
    rw [Node.identifier?_erase, Node.position_erase]
    cases hname : counter.identifier? with
    | none => exact .refusePart hp hrange.counter.position
    | some name =>
      exact .bind (lowerOrNumber_traced h hp 0 hrange.start) fun _ =>
        .bind (lowerValue_traced h hrange.stop) fun _ =>
        .bind (lowerOrNumber_traced h hp 1 hrange.step) fun _ =>
          .pure rfl fun ⟨⟨⟨⟨_, hcounter⟩, hstart⟩, hstop⟩, hstep⟩ =>
            ⟨hcounter, allowed_ident (identifier?_not_mem hcounter.allowed hname)
              (hcounter.known.or_left hp.1), hstart.allowed, hstop.allowed, hstep.allowed⟩

theorem lowerFor_traced : TracesForm w (Suits w) lowerFor := by
  rintro lower ⟨node, name, args⟩ H h hp hargs
  cases args with
  | nil => exact .refuseForm hp
  | cons spec body =>
    rw [lowerFor_eq rfl, lowerFor_eq rfl, Form.position_erase]
    exact .bind (lowerRange_traced h hp hargs.1) fun parts =>
      .bind (forHead_traced hp fun ⟨_, hparts⟩ => hparts) fun _ =>
        .bind (lowerScopedBody_traced h (some parts.counter) hargs.2) fun _ =>
          .pure rfl fun ⟨⟨⟨_, hparts⟩, hhead⟩, hbody⟩ => pending_forNode hp hhead hparts.current hbody

def IterationParts.Allowed (w : Watch) (parts : IterationParts) : Prop :=
  parts.left.Allowed w ∧ parts.right.Allowed w ∧ parts.body.Allowed w

include h hp hargs in
theorem lowerIteration_traced :
    Traced w lower H IterationParts.erase (lowerIteration lower form) (lowerIteration lower form.erase)
      (IterationParts.Allowed w) := by
  obtain ⟨node, name, args⟩ := form
  cases args with
  | nil => exact .refuseForm hp
  | cons spec body =>
    have hitems := hargs.1.bindingItems
    simp only [lowerIteration, Form.erase, List.map_cons, Form.position, SExpr.position_erase,
      bindingItems_erase]
    generalize spec.bindingItems = items at hitems ⊢
    rcases items with _ | ⟨target, _ | ⟨collection, _ | _⟩⟩
    · exact .refusePart hp hargs.1.position
    · exact .refusePart hp hargs.1.position
    · refine .bind (lowerTarget_traced h hitems.1) fun target =>
        .bind (lowerValue_traced h hitems.2.1) fun _ =>
          .bind (lowerScopedBody_traced h (some target) hargs.2) fun _ => .pure ?_ ?_
      · simp [IterationParts.erase, declare, Node.block, of, Node.place, NodeKind.erase]
      · rintro ⟨⟨⟨_, htarget⟩, hright⟩, hbody⟩
        exact ⟨allowed rfl hp ⟨allowed rfl htarget.known ⟨htarget.allowed, trivial⟩, trivial⟩,
          hright.allowed, allowed rfl hp hbody⟩
    · exact .refusePart hp hargs.1.position

theorem lowerForOf_traced (awaits : Bool) : TracesForm w (Suits w) (lowerForOf · · awaits) := by
  intro lower form H h hp hargs
  refine .bind (lowerIteration_traced h hp hargs) fun _ => ?_
  cases awaits with
  | false => exact .pure rfl fun ⟨_, hparts⟩ => pending rfl hparts
  | true =>
    exact .bind .noteAwait fun _ => .pure rfl fun ⟨⟨_, hparts⟩, _⟩ => pending rfl hparts

theorem lowerForIn_traced : TracesForm w (Suits w) lowerForIn := fun _ _ _ h hp hargs =>
  .map (lowerIteration_traced h hp hargs) (fun _ => rfl) fun _ _ hparts => pending rfl hparts

end LispLowering.Lowering
