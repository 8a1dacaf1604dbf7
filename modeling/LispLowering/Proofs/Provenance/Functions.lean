import LispLowering.Proofs.Provenance.Control

/-!
# Functions and loops under watch
-/

namespace LispLowering.Lowering

open Node SExpr Nat ParamList FunctionSpec

variable {w : Watch} {H : Prop} {lower : Lowerer} {Q : SExpr → Prop} {form : Form} {p : Option Position}
  {R : List Node → Prop} {arg : Option SExpr} {count : Nat} {d : Context} {frame : LoopFrame}
  {params : List Pattern} {rest : List LoopFrame}

/-! ## Parameters -/

def ParamAt (w : Watch) (param : Pattern) (target : Node) : Prop :=
  target.Allowed w ∧ target.position = param.position

theorem lowerParamTargets_traced (h : LowersSourced w lower) {H : Prop} : (index : Nat) →
    (params : List Pattern) → (∀ param ∈ params, param.Suits w) →
    Traced w lower H eraseAll (lowerParamTargets lower index params)
      (lowerParamTargets lower index (params.map Pattern.erase)) (List.Forall₂ (ParamAt w) params)
  | _, [], _ => .pure rfl fun _ => .nil
  | index, param :: rest, hparams => by
    obtain ⟨hparam, hrest⟩ := List.forall_mem_cons.mp hparams
    refine .bind (pattern_traced h param hparam) fun target =>
      .bind (lowerParamTargets_traced h (index + 1) rest hrest) fun _ =>
        .pure ?_ fun ⟨⟨_, htarget⟩, htargets⟩ => .cons ?_ htargets
    · rw [Pattern.position_erase]
      cases target <;> rfl
    · cases target with
      | none =>
        have hown : "__unused_" ++ Text.decimal index ∉ w.names :=
          Watch.not_own (.inr (.inr (.inr (.inl ⟨index, rfl⟩)))) (by simp)
        exact ⟨allowed_ident hown htarget, rfl⟩
      | some target => exact ⟨htarget.1, htarget.2.1⟩

variable {targets body : List Node} {spec : FunctionSpec} {label : String} {c : Context}

theorem allowedIn_targets (h : List.Forall₂ (ParamAt w) params targets) : AllowedIn w targets := by
  induction h with
  | nil => trivial
  | cons htarget _ ih => exact ⟨htarget.1, ih⟩

theorem paramEntries_traced (hp : w.Known p)
    (hknown : ∀ param ∈ params, w.Known param.position)
    (htargets : H → List.Forall₂ (ParamAt w) params targets) :
    Traced w lower H eraseAll (Lower.each (paramEntry p) (params.zip targets))
      (Lower.each (paramEntry none) ((params.zip targets).map (Prod.map Pattern.erase Node.erase)))
      (AllowedIn w) := by
  induction params generalizing targets H with
  | nil => exact .pure rfl fun _ => trivial
  | cons param rest ih =>
    cases targets with
    | nil => exact .pure rfl fun _ => trivial
    | cons target others =>
      rw [List.forall_mem_cons] at hknown
      have hcons (hH : H) : ParamAt w param target ∧ List.Forall₂ (ParamAt w) rest others :=
        List.forall₂_cons.mp (htargets hH)
      have hentry : Traced w lower H Node.erase (paramEntry p (param, target))
          (paramEntry none (param.erase, target.erase)) (Allowed w) := by
        simp only [paramEntry, Pattern.name?_erase]
        cases param.name? with
        | none => exact .fault (hknown.1.or_left hp.1).1
        | some name =>
          refine .pure (erase_keyed ..) fun hH => ?_
          obtain ⟨hallowed, hpos⟩ := (hcons hH).1
          have htarget : w.Known target.position := by
            rw [hpos]
            exact hknown.1
          exact (hallowed.keyed htarget _).allowed
      exact .bind hentry fun _ => .bind (ih hknown.2 fun hH => (hcons hH.1).2) fun _ =>
        .pure rfl fun ⟨⟨_, hentry⟩, hentries⟩ => ⟨hentry, hentries⟩

theorem shapeParams_traced {list : ParamList} (hp : w.Known p) (hlist : list.Suits w)
    (htargets : H → List.Forall₂ (ParamAt w) list.params targets) :
    Traced w lower H eraseAll (shapeParams list p targets)
      (shapeParams list.erase none (eraseAll targets)) (AllowedIn w) := by
  have hzip : list.erase.params.zip (eraseAll targets) =
      (list.params.zip targets).map (Prod.map Pattern.erase Node.erase) := by
    rw [ParamList.erase, eraseAll_eq_map, List.zip_map]
  unfold shapeParams
  rw [hzip]
  refine .ite_of Iff.rfl (fun hstruct => ?_) fun _ =>
    .pure rfl fun hH => allowedIn_targets (htargets hH)
  obtain ⟨hgap, hknown⟩ := hlist.map hstruct
  exact .map (paramEntries_traced hp hknown htargets)
    (fun _ => by simp [NodeKind.erase, object, of]) fun _ _ hentries =>
      .single (allowed rfl hp ⟨allowed rfl hp hentries, allowed_gap rfl rfl hgap trivial⟩)

theorem allowed_defaultOf? {target default : Node} (h : target.Allowed w)
    (hdefault : defaultOf? target = some default) : default.Allowed w := by
  obtain ⟨kind, q⟩ := target
  cases kind with
  | assignmentPattern target value =>
    cases hdefault
    exact h.2.2
  | _ => cases hdefault

theorem Table.mem_insert {α : Type} {table : Table α} {name : String} {value : α} {row : String × α}
    (h : row ∈ table.insert name value) : row = (name, value) ∨ row ∈ table := by
  induction table with
  | nil => exact .inl (List.mem_singleton.mp h)
  | cons first rest ih =>
    unfold Table.insert at h
    split at h
    · exact (List.mem_cons.mp h).imp_right (List.mem_cons_of_mem _)
    · rcases List.mem_cons.mp h with h | h
      · exact .inr (h ▸ (.head _))
      · exact (ih h).imp_right (List.mem_cons_of_mem _)

theorem allowed_defaultsFrom {pairs : List (Pattern × Node)}
    (hpairs : ∀ pair ∈ pairs, pair.2.Allowed w) (index : Nat) {table : Table Node}
    (htable : ∀ row ∈ table, row.2.Allowed w) :
    ∀ row ∈ defaultsFrom index pairs table, row.2.Allowed w := by
  induction pairs generalizing index table with
  | nil => exact htable
  | cons pair rest ih =>
    obtain ⟨htarget, hrest⟩ := List.forall_mem_cons.mp hpairs
    refine ih hrest (index + 1) ?_
    split
    · next default hdefault =>
      intro row hrow
      rcases Table.mem_insert hrow with rfl | hrow
      · exact allowed_defaultOf? htarget hdefault
      · exact htable row hrow
    · exact htable

/-- The function comes from trees that suit the watch. -/
structure FunctionSpec.Suits (w : Watch) (spec : FunctionSpec) : Prop where
  params : spec.params.Suits w
  body : SuitIn w spec.body
  position : w.Known spec.position

theorem remember_sourced (hspec : spec.Suits w) (htargets : H → AllowedIn w targets) :
    Sourced w H (spec.remember targets) fun _ => True := by
  rcases spec.remember_cases targets with heq | ⟨name, -, -, heq⟩
  · rw [heq]
    exact .pure fun _ => trivial
  · rw [heq]
    intro c
    unfold declareFunction
    dsimp only
    cases hdeclare : c.registry.declare (Symbol.identifier name) (spec.entry targets) with
    | error e =>
      refine .error (.of_kept rfl rfl (le_refl _) rfl) (fun _ hc _ => ⟨hc.helper, hc.registry⟩)
        fun _ => ?_
      unfold Registry.declare at hdeclare
      split at hdeclare
      · cases hdeclare
        exact .fault _ hspec.position.1
      · cases hdeclare
    | ok registry =>
      refine .ok (.of_kept rfl rfl (le_refl _) rfl) fun hH hc _ =>
        ⟨⟨hc.helper, fun default hdefault => ?_, fun hstrict key found hfound => ?_⟩, trivial⟩
      · rcases Registry.stores_of_declare hdeclare hdefault with hold | ⟨target, htarget, hdefaultOf⟩
        · exact hc.registry.found default hold
        · exact allowed_defaultOf? (everyIn_iff.mp (htargets hH) target htarget) hdefaultOf
      · rw [Registry.get?_of_declare hdeclare] at hfound
        split at hfound
        · cases hfound
          exact allowed_defaultsFrom (fun _ hpair =>
            everyIn_iff.mp (htargets hH) _ (List.of_mem_zip hpair).2) 0 nofun
        · exact hc.registry.kept hstrict key found hfound

theorem lowerParams_traced (h : LowersSourced w lower) (hspec : spec.Suits w) :
    Traced w lower H eraseAll (spec.lowerParams lower) (spec.erase.lowerParams lower) (AllowedIn w) :=
  .bind (lowerParamTargets_traced h 0 _ hspec.params.params) fun targets =>
    .bind (shapeParams_traced hspec.position hspec.params fun hH => hH.2) fun _ =>
      .bind ⟨remember_sourced hspec fun hH => allowedIn_targets hH.1.2,
        fun _ => spec.remember_erases targets⟩ fun _ => .pure rfl fun ⟨⟨_, hshaped⟩, _⟩ => hshaped

/-! ## Building a function -/

theorem lowerInside_traced (h : LowersOn w Q lower) (params : List Node) (hbody : Each Q spec.body) :
    Traced w lower H (Prod.map eraseAll id) (spec.lowerInside lower params)
      (spec.erase.lowerInside lower (eraseAll params)) fun inside => AllowedIn w inside.1 := by
  have hnames : (eraseAll params).flatMap boundNames = params.flatMap boundNames := by
    rw [eraseAll_eq_map, List.flatMap_map]
    simp
  unfold lowerInside
  rw [hnames]
  exact .inFunction <| .inScope _ <| .ite Iff.rfl (lowerReturningBody_traced h hbody)
    (lowerBody_traced h hbody)

theorem allowedIn_catchEarlyReturn {key : String} (hp : w.Known p) (h : AllowedIn w body) :
    AllowedIn w (catchEarlyReturn key p body) := by
  have hcaught : ((ident caughtName).place p).Allowed w :=
    allowed_ident (Watch.not_own (.inr (.inr (.inl rfl))) (by decide)) hp
  have hmark : ((Node.index ((ident caughtName).place p) ((string key).place p)).place p).Allowed w :=
    allowed rfl hp ⟨hcaught, allowed_literal hp⟩
  have hvalue : ((member ((ident caughtName).place p) "value").place p).Allowed w :=
    allowed rfl hp ⟨hcaught, trivial⟩
  have htest : Allowed w ⟨.ifStatement ((logical .and ((ident caughtName).place p) ((Node.index
        ((ident caughtName).place p) ((string key).place p)).place p)).place p)
      ⟨.returnStatement (some ((member ((ident caughtName).place p) "value").place p)), p⟩
      none, p⟩ :=
    allowed rfl hp ⟨allowed rfl hp ⟨hcaught, hmark⟩, allowed rfl hp hvalue, trivial⟩
  have hrethrow : Allowed w ⟨.throwStatement ((ident caughtName).place p), p⟩ := allowed rfl hp hcaught
  exact .single (allowed rfl hp ⟨allowed rfl hp h,
    allowed rfl hp ⟨hcaught, allowed rfl hp ⟨htest, hrethrow, trivial⟩⟩, trivial⟩)

theorem buildFunction_traced (h : LowersOn w Q lower) (hp : w.Known spec.position)
    (hparams : Traced w lower H eraseAll (spec.lowerParams lower) (spec.erase.lowerParams lower) R)
    (hbody : Each Q spec.body) :
    Traced w lower H Function.erase (buildFunction lower spec) (buildFunction lower spec.erase) fun f =>
      (f.id = spec.name.map Symbol.identifier ∧ f.isArrow = spec.isArrow) ∧
        R f.params ∧ AllowedIn w f.body := by
  rw [buildFunction_eq, buildFunction_eq]
  refine .bind hparams fun params =>
    .bind (lowerInside_traced h params hbody) fun ⟨body, leftEarly⟩ => .get fun c =>
      .pure ?_ fun ⟨⟨⟨_, hparams⟩, hinside⟩, _⟩ => ⟨⟨rfl, rfl⟩, hparams, ?_⟩
  · cases leftEarly <;> rfl
  · split
    · exact allowedIn_catchEarlyReturn hp hinside
    · exact hinside

/-! ## Function forms -/

theorem lowerFunctionParts_traced (h : LowersSourced w lower) (hp : w.Known form.position)
    (isAsync isGenerator : Bool) {name : Option GenericName} {parts : List SExpr}
    (hname : ∀ generic ∈ name, Symbol.identifier generic.name ∉ w.names) (hparts : SuitParts w parts) :
    TracedNode w lower H (lowerFunctionParts lower form isAsync isGenerator name parts)
      (lowerFunctionParts lower form.erase isAsync isGenerator name (parts.map SExpr.erase)) := by
  cases parts with
  | nil => exact .refuseForm hp
  | cons params body =>
    have hbody : SuitIn w (splitReturnType body).2 := splitReturnType_of hparts.items.2
    simp only [lowerFunctionParts, List.map_cons, splitReturnType_erase, Form.position_erase]
    refine .bindSyntax (read_suits_of_parts hparts) (read_erases params)
      fun _ _ hlist =>
        .bind (buildFunction_traced h hp (lowerParams_traced h ⟨hlist, hbody, hp⟩) hbody) fun f => ?_
    cases name with
    | none => exact .pure rfl fun hall => pending_at rfl hp (every_function hall.2.2.1 hall.2.2.2)
    | some generic =>
      refine .pure rfl ?_
      rintro ⟨_, hid, hf⟩
      refine ⟨fun watched hwatched heq => ?_, every_function hf.1 hf.2, by simp, hp.1,
        List.forall_mem_nil _⟩
      have hsome : some (Symbol.identifier generic.name) = some watched := hid.1.symm.trans heq
      exact hname generic rfl (Option.some.inj hsome ▸ hwatched)

theorem lowerFunction_traced (h : LowersSourced w lower) (hp : w.Known form.position)
    (isAsync isGenerator : Bool) (hargs : SuitParts w form.args) :
    TracedNode w lower H (lowerFunction lower form isAsync isGenerator)
      (lowerFunction lower form.erase isAsync isGenerator) := by
  obtain ⟨node, name, args⟩ := form
  match args, hargs with
  | [], _ => exact .refuseForm hp
  | .symbol text q :: rest, hargs =>
    refine lowerFunctionParts_traced h hp _ _ ?_ hargs.behind_symbol
    rintro _ ⟨⟩ hmem
    exact hargs.items.1.symbol _ hmem .generic
  | .literal value q :: rest, hargs | .list items q :: rest, hargs =>
    exact lowerFunctionParts_traced h hp _ _ (by simp) hargs

/-! ## Arrow functions -/

def implicitTargets (count : Nat) : List Node :=
  (List.range count).map fun index => ident (Symbol.identifier ("$" ++ Text.decimal index))

theorem eraseAll_implicitTargets (count : Nat) :
    eraseAll (implicitTargets count) = implicitTargets count := by
  rw [eraseAll_eq_map, implicitTargets, List.map_map]
  rfl

theorem lowerParams_implicit (hparams : spec.params = ⟨implicitParams count, false⟩)
    (hname : spec.name = none) : spec.lowerParams lower = pure (implicitTargets count) := by
  have htargets (start : Nat) (indices : List Nat) : lowerParamTargets lower start
          (indices.map fun index => ⟨.identifier ("$" ++ Text.decimal index) none, none, none⟩) =
        pure (indices.map fun index => ident (Symbol.identifier ("$" ++ Text.decimal index))) := by
    induction indices generalizing start with
    | nil => rfl
    | cons index rest ih =>
      rw [List.map_cons, lowerParamTargets, ih]
      rfl
  simp only [lowerParams, hparams, implicitParams, htargets, remember, hname]
  rfl

theorem lowerParams_implicit_traced (hparams : spec.params = ⟨implicitParams count, false⟩)
    (hname : spec.name = none) : Traced w lower H eraseAll (spec.lowerParams lower)
      (spec.erase.lowerParams lower) (· = implicitTargets count) := by
  have herase : spec.erase.params = ⟨implicitParams count, false⟩ := by
    rw [FunctionSpec.erase, hparams, ParamList.erase, implicitParams_erase]
  rw [lowerParams_implicit hparams hname, lowerParams_implicit herase hname]
  exact .pure (eraseAll_implicitTargets _) fun _ => rfl

theorem allowedIn_implicitTargets (hshut : w.shut = false)
    (hgap : count ≠ 0 → w.gaps .implicit) : AllowedIn w (implicitTargets count) := by
  refine everyIn_iff.mpr fun _ htarget => ?_
  obtain ⟨index, hindex, rfl⟩ := List.mem_map.mp htarget
  have hcount : count ≠ 0 := by
    have := List.mem_range.mp hindex
    omega
  have hcovers : Gap.implicit.covers
      (.identifier (Symbol.identifier ("$" ++ Text.decimal index)) none) = true := by
    simp only [Gap.covers, decide_eq_true_eq]
    exact head?_implicit index
  exact allowed_typedIdent (Watch.not_implicit hshut index)
    (.inr ⟨rfl, .inl ⟨.implicit, hgap hcount, hcovers⟩⟩)

theorem every_implicit {f : Function} (hgap : count ≠ 0 → w.gaps .implicit)
    (harrow : f.isArrow = true) (hparams : f.params = implicitTargets count)
    (hbody : AllowedIn w f.body) : f.fold w.shut True And w.Allows := by
  cases hshut : w.shut with
  | false =>
    rw [← hshut]
    exact every_function (hparams ▸ allowedIn_implicitTargets hshut hgap) hbody
  | true =>
    by_cases hempty : f.params = []
    · rw [← hshut]
      exact every_function (hempty ▸ trivial) hbody
    · exact every_shut harrow hempty

theorem arrowOf_traced (h : LowersOn w Q lower) (hp : w.Known form.position)
    {isAsync : Bool} {params : ParamList} {body : List SExpr}
    (hparams : ∀ spec : FunctionSpec, spec.params = params → spec.body = body → spec.name = none →
      spec.position = form.position → Traced w lower H eraseAll (spec.lowerParams lower)
        (spec.erase.lowerParams lower) R) (hbody : Each Q body)
    (hf : ∀ f : Function, f.isArrow = true → R f.params → AllowedIn w f.body →
      f.fold w.shut True And w.Allows) : TracedNode w lower H (arrowOf lower form isAsync params body)
      (arrowOf lower form.erase isAsync params.erase (body.map SExpr.erase)) := by
  unfold arrowOf
  rw [Form.position_erase]
  exact .map (buildFunction_traced h hp (hparams _ rfl rfl rfl rfl) hbody) (fun _ => rfl)
    fun _ f hbuilt => pending_at rfl hp (hf f hbuilt.1.2 hbuilt.2.1 hbuilt.2.2)

theorem lowerImplicit_traced (h : LowersOn w Q lower) (hp : w.Known form.position) (isAsync : Bool)
    (hvector : hasParamVector form.args = false) (hargs : Each Q form.args)
    (hgaps : ∀ gap ∈ arrowGaps form.args, w.gaps gap) :
    TracedNode w lower H (lowerArrow lower form isAsync) (lowerArrow lower form.erase isAsync) := by
  obtain ⟨node, name, args⟩ := form
  cases args with
  | nil => exact .refuseForm hp
  | cons first rest =>
    have hgap : implicitArity (first :: rest) ≠ 0 → w.gaps .implicit := fun hcount =>
      hgaps _ (by simp [arrowGaps, hvector, hcount])
    refine .ite_of (by rw [← List.map_cons, hasParamVector_erase])
      (fun hthen => absurd (hvector.symm.trans hthen) Bool.false_ne_true) fun _ => ?_
    have harrow : TracedNode w lower H (arrowOf lower ⟨node, name, first :: rest⟩ isAsync _ _) _ :=
      arrowOf_traced h hp (fun _ hparams _ hname _ => lowerParams_implicit_traced hparams hname) hargs fun _ =>
        every_implicit hgap
    rw [ParamList.erase, implicitParams_erase] at harrow
    rwa [← List.map_cons, implicitArity_erase]

section

variable (h : LowersSourced w lower) (hp : w.Known form.position)

include h hp

theorem lowerArrow_traced (isAsync : Bool)
    (hargs : SuitIn w form.args) (hgaps : ∀ gap ∈ arrowGaps form.args, w.gaps gap) :
    TracedNode w lower H (lowerArrow lower form isAsync) (lowerArrow lower form.erase isAsync) := by
  cases hvector : hasParamVector form.args with
  | false => exact lowerImplicit_traced h hp isAsync hvector hargs hgaps
  | true =>
    obtain ⟨node, name, _ | ⟨first, rest⟩⟩ := form
    · cases hvector
    · -- A vector of parameters is no parameter map.
      have hmap : ¬(first.isForm "hash-map" = true ∨ first.isForm "empty-map" = true) := by
        intro hform
        cases rest with
        | nil => cases hvector
        | cons second more =>
          simp only [isForm, decide_eq_true_eq] at hform
          rcases hform with hform | hform <;> simp [hasParamVector, isForm, hform] at hvector
      refine .ite_of (by rw [← List.map_cons, hasParamVector_erase]) (fun _ => ?_)
        fun helse => absurd hvector helse
      exact .bindSyntax (read_suits hargs.1 (fun hform => absurd (.inl hform) hmap)
        fun hform => absurd hform hmap) (read_erases first) fun _ _ hlist =>
          arrowOf_traced h hp (fun _ hparams hbody _ hpos => lowerParams_traced h
            ⟨hparams ▸ hlist, hbody ▸ hargs.2, hpos ▸ hp⟩) hargs.2
            fun _ _ => every_function

theorem lowerAsyncTarget_traced {head : String} {args : List SExpr} (hargs : SuitIn w args)
    (hparts : head ∈ functionHeads → SuitParts w args)
    (hgaps : head = "=>" → ∀ gap ∈ arrowGaps args, w.gaps gap) :
    TracedNode w lower H (lowerAsyncTarget lower form head args)
      (lowerAsyncTarget lower form.erase head (args.map SExpr.erase)) := by
  have hknown (head : String) : w.Known (Form.position ⟨form.node, head, args⟩) := hp
  unfold lowerAsyncTarget
  split
  · exact lowerFunction_traced h (hknown "fn") _ _ (hparts (by decide))
  · exact lowerFunction_traced h (hknown "fn*") _ _ (hparts (by decide))
  · exact lowerArrow_traced h (hknown "=>") _ hargs (hgaps rfl)
  · exact .refuseForm hp

theorem lowerAsync_traced (hargs : SuitParts w form.args)
    (hgaps : ∀ gap ∈ specialGaps .async form.args, w.gaps gap) :
    TracedNode w lower H (lowerAsync lower form) (lowerAsync lower form.erase) := by
  obtain ⟨node, name, args⟩ := form
  match args, hargs, hgaps with
  | [], _, _ => exact .refuseForm hp
  | .symbol head q :: rest, hargs, hgaps =>
    refine lowerAsyncTarget_traced h hp
      hargs.behind_symbol.items (fun _ => hargs.behind_symbol) ?_
    rintro rfl
    exact hgaps
  | [.list (.symbol head q :: rest) r], hargs, hgaps =>
    have hlist := hargs.items.1
    have htarget : TracedNode w lower H
        (lowerAsyncTarget lower ⟨node, name, [.list (.symbol head q :: rest) r]⟩ head rest)
        (lowerAsyncTarget lower (Form.erase ⟨node, name, [.list (.symbol head q :: rest) r]⟩) head
          (rest.map SExpr.erase)) := by
      refine lowerAsyncTarget_traced h hp hlist.itemsIn.2 hlist.parts ?_
      rintro rfl gap hgap
      exact hlist.formGaps gap (List.mem_append_left _ hgap)
    rw [Form.erase, List.map_singleton, erase_list, List.map_cons] at htarget ⊢
    exact htarget
  | [.list [] _], _, _ | [.list (.literal _ _ :: _) _], _, _
  | [.list (.list _ _ :: _) _], _, _ | [.literal _ _], _, _ | .list [] _ :: _ :: _, _, _
  | .list (.symbol _ _ :: _) _ :: _ :: _, _, _ | .list (.literal _ _ :: _) _ :: _ :: _, _, _
  | .list (.list _ _ :: _) _ :: _ :: _, _, _ | .literal _ _ :: _ :: _, _, _ =>
    exact .refuseForm hp

end

/-! ## Leaving and suspending -/

theorem allowed_earlyReturnMarker {key : String} {value : Node} (hp : w.Known p)
    (h : value.Allowed w) : (earlyReturnMarker key value p).Allowed w :=
  allowed rfl hp ⟨allowed rfl hp ⟨allowed_literal hp, trivial⟩, allowed rfl hp ⟨h, trivial⟩, trivial⟩

theorem leaveWith_sourced {value : Option Node} (hp : w.Known form.position)
    (hvalue : H → ∀ node ∈ value, node.Anchored w) : Sourced w H (leaveWith form value) (Pending w) := by
  intro c
  show Ends w H _ c ((if c.wrapperDepth = 0 then pure (return? value) else do
    set { c with earlyReturn := true }
    return throw (earlyReturnMarker c.options.earlyReturnKey
      (value.getD (undefined.place form.position)) form.position) : Lower Node) c)
  split
  · exact .ok (.refl _) fun hH hc _ => ⟨hc, pending rfl (allowedOption_of_anchored (hvalue hH))⟩
  · refine .ok (.of_kept rfl rfl (le_refl _) rfl) fun hH hc _ =>
      ⟨⟨hc.helper, hc.registry⟩, pending rfl (allowed_earlyReturnMarker hp ?_)⟩
    cases value with
    | none => exact (anchored_undefined hp).allowed
    | some value => exact (hvalue hH value rfl).allowed

theorem lowerReturnOf_traced (h : LowersOn w Q lower) (hp : w.Known form.position)
    (harg : ∀ t ∈ arg, Q t) : TracedNode w lower H (lowerReturnOf lower form arg)
      (lowerReturnOf lower form.erase (arg.map SExpr.erase)) := by
  exact .get fun c => .ite Iff.rfl (.refuseForm hp) (.bind (lowerOption_traced h harg) fun value =>
    ⟨leaveWith_sourced hp fun hH => hH.2, fun _ => leaveWith_erases form value⟩)

theorem lowerReturn_traced : TracesForm w Q lowerReturn := by
  rintro lower ⟨node, name, args⟩ H h hp hargs
  rcases args with _ | ⟨arg, _ | ⟨_, _⟩⟩
  · exact lowerReturnOf_traced h hp (by simp)
  · refine lowerReturnOf_traced h hp ?_
    simpa using hargs.1
  · exact .refuseForm hp

theorem lowerYieldOf_traced (h : LowersOn w Q lower) (hp : w.Known form.position) (delegate : Bool)
    (harg : ∀ t ∈ arg, Q t) :
    TracedNode w lower H (lowerYieldOf lower form delegate arg)
      (lowerYieldOf lower form.erase delegate (arg.map SExpr.erase)) :=
  .get fun _ => .ite Iff.rfl (.refuseForm hp) (.bind (lowerOption_traced h harg) fun _ =>
    .bind .noteYield fun _ => .pure rfl fun ⟨⟨_, hargument⟩, _⟩ =>
      pending rfl (allowedOption_of_anchored hargument))

theorem lowerYield_traced (delegate : Bool) : TracesForm w Q (lowerYield · · delegate) := by
  rintro lower ⟨node, name, args⟩ H h hp hargs
  rcases args with _ | ⟨arg, _ | ⟨_, _⟩⟩
  · exact .ite Iff.rfl (.refuseForm hp)
      (lowerYieldOf_traced h hp delegate (by simp))
  · refine lowerYieldOf_traced h hp delegate ?_
    simpa using hargs.1
  · exact .ite Iff.rfl (.refuseForm hp) (.refuseForm hp)

theorem lowerAwait_traced : TracesForm w Q lowerAwait := by
  rintro lower ⟨node, name, args⟩ H h hp hargs
  match args, hargs with
  | [], _ | _ :: _ :: _, _ => exact .refuseForm hp
  | [arg], hargs =>
    exact .bind (lowerValue_traced h hargs.1) fun _ => .bind .noteAwait fun _ =>
      .pure rfl fun ⟨⟨_, hargument⟩, _⟩ => pending rfl hargument.allowed

/-! ## Loops with `recur` -/

/-- The declarations of loop variables are allowed, and their targets have positions. -/
def VariablesAllowed (w : Watch) (bindings : List LoopVariable) : Prop :=
  ∀ binding ∈ bindings, binding.declaration.Allowed w ∧ binding.target.Anchored w

theorem lowerLoopVariables_traced (h : LowersSourced w lower) (hp : w.Known p) {H : Prop} :
    (pairs : List SExpr) → SuitIn w pairs →
    Traced w lower H (List.map LoopVariable.erase) (lowerLoopVariables lower p pairs)
      (lowerLoopVariables lower none (pairs.map SExpr.erase)) (VariablesAllowed w)
  | [], _ | [_], _ => .pure rfl fun _ => nofun
  | target :: _ :: rest, hpairs => by
    refine .bind (lowerTarget_traced h hpairs.1) fun id => .bind (lowerValue_traced h hpairs.2.1)
      fun _ => .bind (.bindTarget id) fun _ =>
        .bind (lowerLoopVariables_traced h hp rest hpairs.2.2) fun _ =>
          .pure ?_ fun ⟨⟨⟨⟨_, hid⟩, hinit⟩, _⟩, hothers⟩ => List.forall_mem_cons.mpr ⟨⟨?_, hid⟩, hothers⟩
    · simp [LoopVariable.erase, declareChanging, declare, of, Node.place, NodeKind.erase]
    · have hq : w.Known (target.position.or p) := hp.or hpairs.1.position.1
      exact allowed rfl hq ⟨allowed rfl hid.known ⟨hid.allowed, hinit.allowed⟩, trivial⟩

theorem lowerLoopParts_traced (h : LowersSourced w lower) (hp : w.Known p) {pairs body : List SExpr}
    (hlabel : H → label ∉ w.names) (hpairs : SuitIn w pairs) (hbody : SuitIn w body) :
    Traced w lower H LoweredLoop.erase (lowerLoopParts lower label p pairs body)
      (lowerLoopParts lower label none (pairs.map SExpr.erase) (body.map SExpr.erase)) fun parts =>
        VariablesAllowed w parts.bindings ∧ AllowedIn w parts.body := by
  refine .inScope _ (.bind (lowerLoopVariables_traced h hp pairs hpairs) fun bindings => ?_)
  have hinside {H : Prop} := lowerReturningBody_traced (H := H) h hbody
  rw [List.length_map]
  exact .bind ⟨.inLoop (fun hH => hlabel hH.1) Watch.sited_none hinside.sourced, fun he =>
    .inLoop { label, arity := bindings.length } ((hinside (H := True)).erases he)⟩ fun ⟨_, _⟩ =>
      .pure rfl fun ⟨⟨_, hbinds⟩, hinside⟩ => ⟨hbinds, hinside⟩

theorem allowedIn_closedBody (hp : w.Known p) (h : AllowedIn w body) : AllowedIn w (closedBody p body) := by
  unfold closedBody
  split
  · exact h
  · exact h.append (.single (allowed rfl hp trivial))

theorem allowedIn_loopStatements {bindings : List LoopVariable} (hp : w.Known p)
    (hlabel : label ∉ w.names) (hbinds : VariablesAllowed w bindings) (hbody : AllowedIn w body) :
    AllowedIn w (loopStatements label p (bindings.map LoopVariable.declaration)
      (closedBody p (bodyWithJumps label (bindings.map LoopVariable.target) body))) := by
  have hdecls : AllowedIn w (bindings.map LoopVariable.declaration) := by
    refine everyIn_iff.mpr fun _ hdecl => ?_
    obtain ⟨binding, hbinding, rfl⟩ := List.mem_map.mp hdecl
    exact (hbinds binding hbinding).1
  have htargets : ∀ target ∈ bindings.map LoopVariable.target,
      target.Allowed w ∧ w.Known target.position := by
    intro target htarget
    obtain ⟨binding, hbinding, rfl⟩ := List.mem_map.mp htarget
    exact ⟨(hbinds binding hbinding).2.allowed, (hbinds binding hbinding).2.known⟩
  have hclosed := allowedIn_closedBody hp (AllowedIn.withJumps hlabel htargets body hbody)
  exact hdecls.append (.single (allowed rfl hp
    (allowed rfl hp ⟨allowed_literal hp, allowed rfl hp hclosed⟩)))

theorem lowerLoopParts_sited (h : LowersSourced w lower) (hp : w.Known p) {pairs body : List SExpr}
    (hpairs : SuitIn w pairs) (hbody : SuitIn w body) {parts : LoweredLoop}
    (hrun : lowerLoopParts lower label p pairs body c = .ok parts d) (hc : c.Marked w) :
    w.Sited parts.frame.firstRecur := by
  unfold lowerLoopParts Lower.inScope at hrun
  obtain ⟨_, _, hrun, rfl, -⟩ := within_ok hrun
  obtain ⟨bindings, c', hvars, hrun⟩ := bind_ok hrun
  obtain ⟨inside, hinside, rfl⟩ := map_ok hrun
  have hmarked := ((lowerLoopVariables_traced (H := True) h hp pairs hpairs).sourced.passes hvars).marked hc
  exact (lowerReturningBody_traced (H := True) h hbody).sourced.sited_inLoop Watch.sited_none hmarked
    hinside

theorem lowerLoop_traced : TracesForm w (SExpr.Suits w) lowerLoop := by
  rintro lower ⟨node, name, args⟩ H h hp hargs
  cases args with
  | nil => exact .refuseForm hp
  | cons bindings body =>
    have hpos : (Form.erase ⟨node, name, bindings :: body⟩).position = none := Form.position_erase _
    simp only [lowerLoop, loopPairs, Form.erase, List.map_cons, items?_erase,
      bindingItems_erase, List.length_map, Option.isNone_map] at hpos ⊢
    rw [hpos]
    by_cases hpairs : (bindings.items?.isNone || decide (bindings.bindingItems.length % 2 ≠ 0)) = true
    · rw [if_pos hpairs, if_pos hpairs]
      exact .bindRefusePart hp hargs.1.position
    rw [if_neg hpairs, if_neg hpairs]
    refine .bindPure <| .bind (.fresh (by decide)) fun label => ?_
    have hparts := lowerLoopParts_traced (H := H ∧ label ∉ w.names) h hp (fun hH => hH.2)
      hargs.1.bindingItems hargs.2
    refine ⟨fun c => ?_, fun he => .bind (hparts.erases he).inExpression ?_⟩
    · have hends := hparts.sourced.inExpression c
      show Ends w _ _ c (EStateM.bind _ _ c)
      unfold EStateM.bind
      cases hrun : Lower.inExpression (lowerLoopParts lower label _ bindings.bindingItems body) c with
      | error e d =>
        rw [hrun] at hends
        cases hends with
        | error hpasses hrest hraised => exact .error hpasses hrest hraised
      | ok result d =>
        obtain ⟨hpasses, hrest⟩ := hparts.sourced.inExpression.of_ok hrun
        dsimp only
        split
        · refine .error hpasses (fun hH hc hquiet => (hrest hH hc hquiet).1) fun hc => .fault _ ?_
          obtain ⟨_, _, htracked, rfl, -⟩ := within_ok hrun
          obtain ⟨_, _, hinner, rfl, -⟩ := within_ok htracked
          exact (hp.or (lowerLoopParts_sited h hp hargs.1.bindingItems hargs.2 hinner hc)).1
        · refine .ok hpasses fun hH hc hquiet => ?_
          obtain ⟨hd, hbinds, hbody⟩ := hrest hH hc hquiet
          exact ⟨hd, (anchored_wrapped (allowedIn_loopStatements hp hH.2 hbinds hbody) _ hp).pending⟩
    · rintro ⟨parts, suspension⟩
      refine .ite (not_congr (by rw [← bodyJumps_erase label parts.body]; rfl)) (.refuse _ _) (.pure ?_)
      rw [erase_wrapped, erase_loopStatements, erase_closedBody, erase_bodyWithJumps]
      simp [LoweredLoop.erase, LoopVariable.erase, Function.comp_def]

theorem lowerRecur_outside (h : c.loops = []) :
    lowerRecur lower form c = (form.refuse (.outside "recur" .loop) : Lower Node) c := by
  simp only [lowerRecur, bind, EStateM.bind, get, getThe, MonadStateOf.get, EStateM.get, h]

theorem lowerRecur_inside (h : c.loops = frame :: rest) : lowerRecur lower form c =
      (if form.args.length ≠ frame.arity then form.refuse (.recurCount frame.arity form.args.length)
      else do
        let arguments ← lowerValues lower form.args
        modify fun c => { c with loops := countRecur form.position c.loops }
        return call ((ident frame.label).place form.position) arguments : Lower Node) c := by
  simp only [lowerRecur, bind, EStateM.bind, get, getThe, MonadStateOf.get, EStateM.get, h]

theorem lowerRecur_ok {node : Node} (h : lowerRecur lower form c = .ok node d) :
    ∃ frame rest arguments e, c.loops = frame :: rest ∧ form.args.length = frame.arity ∧
      lowerValues lower form.args c = .ok arguments e ∧
      d = { e with loops := countRecur form.position e.loops } ∧
      node = call ((ident frame.label).place form.position) arguments := by
  cases hloops : c.loops with
  | nil =>
    rw [lowerRecur_outside hloops] at h
    cases h
  | cons frame rest =>
    rw [lowerRecur_inside hloops] at h
    split at h
    · cases h
    · next hcount =>
      obtain ⟨arguments, e, hgiven, h⟩ := bind_ok h
      obtain ⟨_, hmodify, rfl⟩ := map_ok h
      cases hmodify
      exact ⟨frame, rest, arguments, e, rfl, Decidable.not_not.mp hcount, hgiven, rfl, rfl⟩

theorem met_countRecur {e : Context}
    (hloops : c.loops = frame :: rest) (hsame : SameLoops c.loops e.loops) (p : Option Position) :
    Context.met w { e with loops := countRecur p e.loops } =
      e.met w + if frame.label ∈ w.names then 1 else 0 := by
  rw [hloops] at hsame
  cases he : e.loops with
  | nil =>
    rw [he] at hsame
    exact hsame.elim
  | cons top others =>
    rw [he] at hsame
    simp only [Context.met, he, countRecur, hsame.1]
    split <;> rfl

theorem marked_countRecur (hp : w.Sited p) (h : c.Marked w) :
    Context.Marked w { c with loops := countRecur p c.loops } := by
  unfold Context.Marked at h ⊢
  cases hloops : c.loops with
  | nil => nofun
  | cons frame rest =>
    rw [hloops, List.forall_mem_cons] at h
    exact List.forall_mem_cons.mpr ⟨Known.or h.1 hp, h.2⟩

theorem lowerRecur_sourced (h : LowersOn w Q lower) (hjump : ¬w.Jumpless) (hp : w.Known form.position)
    (hargs : Each Q form.args) : Sourced w H (lowerRecur lower form) (Pending w) := by
  intro c
  cases hloops : c.loops with
  | nil =>
    rw [lowerRecur_outside hloops]
    exact Sourced.refuseForm hp _ c
  | cons frame rest => ?_
  rw [lowerRecur_inside hloops]
  split
  · exact Sourced.refuseForm hp _ c
  have hvalues := (lowerValues_traced (H := H) h hargs).sourced c
  show Ends w H _ c (EStateM.bind _ _ c)
  unfold EStateM.bind
  generalize lowerValues lower form.args c = r at hvalues ⊢
  cases hvalues with
  | error hpasses hrest hraised => exact .error hpasses hrest hraised
  | @ok arguments e hpasses hrest =>
    have hcount := met_countRecur (w := w) hloops hpasses.loops form.position
    have hsame : SameLoops e.loops (countRecur form.position e.loops) := by
      cases e.loops with
      | nil => trivial
      | cons top others => exact ⟨rfl, rfl, rfl⟩
    have hrecurs : e.recurs ≤ Context.recurs { e with loops := countRecur form.position e.loops } := by
      unfold Context.recurs
      cases e.loops with
      | nil => exact le_refl _
      | cons top others => exact le_succ _
    have hcounted : e.Passes w { e with loops := countRecur form.position e.loops } :=
      ⟨rfl, rfl, le_refl _, hsame, hrecurs, marked_countRecur hp.1, fun hw => absurd hw hjump⟩
    refine Ends.after (H := ∀ value ∈ arguments, value.Anchored w) (.ok hcounted ?_) hpasses hrest
    intro hgiven he hquiet
    -- a jump to a watched loop would have been counted
    have hlabel : frame.label ∉ w.names := by
      intro hwatched
      rw [if_pos hwatched] at hcount
      exact absurd (hcount.symm.trans hquiet.met) (succ_ne_self _)
    exact ⟨⟨he.helper, he.registry⟩, pending rfl ⟨allowed_ident hlabel hp, allowedIn_of_anchored hgiven⟩⟩

theorem lowerRecur_traced (hjump : ¬w.Jumpless) : TracesForm w Q lowerRecur := by
  refine fun _ _ H h hp hargs => ⟨lowerRecur_sourced h hjump hp hargs, fun he => .get fun c => ?_⟩
  dsimp only [Context.erase]
  cases c.loops with
  | nil => exact .refuse _ _
  | cons frame rest =>
    refine .ite ?_ (.refuse _ _) ?_
    · simp [Form.erase, LoopFrame.erase]
    · refine .bind ((lowerValues_traced (H := True) h hargs).erases he) fun _ => ?_
      rw [Form.position_erase]
      refine .bind (.modify fun c => ?_) fun _ => .pure rfl
      simp only [Context.erase, countRecur_erase]

end LispLowering.Lowering
