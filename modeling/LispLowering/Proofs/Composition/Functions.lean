import LispLowering.Proofs.Composition.Places

/-!
# What functions are made of
-/

namespace LispLowering

open Lowering List Node FunctionSpec

variable {leaves : List Leaf} {rest : List (Pattern × Node)} {table : Table Node}

/-! ## Tables and registries -/

theorem Table.find?_insert {α : Type} (table : Table α) (name : String) (value : α) (key : String) :
    (Table.insert name value table).find? key = if key = name then some value else table.find? key := by
  induction table with
  | nil => rfl
  | cons entry rest ih =>
    obtain ⟨other, old⟩ := entry
    unfold Table.insert
    split
    · next hname =>
      subst hname
      by_cases hkey : key = name <;> simp [Table.find?, hkey]
    · next hname =>
      by_cases hkey : key = other
      · have hne : other ≠ name := fun h => hname h.symm
        simp [Table.find?, hkey, hne]
      · simp [Table.find?, hkey, ih]

namespace Lowering

/-- The pair at `k` of those from `start` on gives the default `value` under `key`. -/
def DefaultAt (start : Nat) (pairs : List (Pattern × Node)) (key : String) (k : Nat) (value : Node) :
    Prop :=
  ∃ param target, pairs[k]? = some (param, target) ∧ param.key (start + k) = key ∧
    defaultOf? target = some value

variable {start : Nat} {value : Node} {key : String}

theorem defaultAt_succ (pair : Pattern × Node) {k : Nat} :
    DefaultAt start (pair :: rest) key (k + 1) value ↔ DefaultAt (start + 1) rest key k value := by
  simp only [DefaultAt, getElem?_cons_succ, Nat.add_right_comm start 1 k, Nat.add_assoc]

theorem find?_defaultsFrom_singleton {pair : Pattern × Node} :
    (defaultsFrom start [pair] table).find? key = some value ↔
      DefaultAt start (pair :: rest) key 0 value ∨
        table.find? key = some value ∧ ∀ v, ¬DefaultAt start (pair :: rest) key 0 v := by
  obtain ⟨param, target⟩ := pair
  cases hdefault : defaultOf? target with
  | none => simp [defaultsFrom, DefaultAt, hdefault]
  | some default =>
    simp only [defaultsFrom, hdefault, Table.find?_insert]
    by_cases hkey : key = param.key start <;> simp [DefaultAt, hdefault, hkey, Ne.symm]

theorem find?_defaultsFrom {pairs : List (Pattern × Node)} :
    (defaultsFrom start pairs table).find? key = some value ↔
      (∃ k, DefaultAt start pairs key k value ∧ ∀ j > k, ∀ v, ¬DefaultAt start pairs key j v) ∨
      table.find? key = some value ∧ ∀ j v, ¬DefaultAt start pairs key j v := by
  induction pairs generalizing start table with
  | nil => simp [defaultsFrom, DefaultAt]
  | cons pair rest ih =>
    -- the first pair is to the others what the table is to it
    have hcons : defaultsFrom start (pair :: rest) table =
      defaultsFrom (start + 1) rest (defaultsFrom start [pair] table) := rfl
    rw [hcons, ih, find?_defaultsFrom_singleton]
    simp only [← defaultAt_succ pair]
    constructor
    · rintro (⟨k, hk, hlast⟩ | ⟨hzero | ⟨htable, hzero⟩, hnone⟩)
      · refine .inl ⟨k + 1, hk, fun j hj v => ?_⟩
        obtain ⟨j, rfl⟩ := Nat.exists_eq_add_of_lt hj
        exact hlast _ (by omega) v
      · refine .inl ⟨0, hzero, fun j hj v => ?_⟩
        obtain ⟨j, rfl⟩ := Nat.exists_eq_add_of_lt hj
        exact hnone _ v
      · refine .inr ⟨htable, fun j v => ?_⟩
        cases j with
        | zero => exact hzero v
        | succ j => exact hnone j v
    · rintro (⟨k, hk, hlast⟩ | ⟨htable, hnone⟩)
      · cases k with
        | zero => exact .inr ⟨.inl hk, fun j v => hlast (j + 1) (by omega) v⟩
        | succ k => exact .inl ⟨k, hk, fun j _ v => hlast (j + 1) (by omega) v⟩
      · exact .inr ⟨.inr ⟨htable, hnone 0⟩, fun j v => hnone (j + 1) v⟩

end Lowering

namespace Registry

variable {registry registry' : Registry} {name : String} {entry : FunctionEntry}

theorem declare_eq_ok (h : registry.declare name entry = .ok registry') :
    registry' = { registry with entries := registry.entries.insert name entry } := by
  unfold declare at h
  split at h
  · cases h
  · cases h
    rfl

theorem get?_of_declare (h : registry.declare name entry = .ok registry') (key : String) :
    registry'.get? key = if key = name then some entry else registry.get? key := by
  rw [declare_eq_ok h]
  exact Table.find?_insert registry.entries name entry key

theorem stores_of_declare {spec : FunctionSpec} {targets : List Node} {default : Node}
    (hdeclare : registry.declare name (spec.entry targets) = .ok registry') (h : registry'.Stores default) :
    registry.Stores default ∨ ∃ target ∈ targets, defaultOf? target = some default := by
  obtain ⟨name', entry, index, hentry, hdefault⟩ := h
  rw [get?_of_declare hdeclare] at hentry
  split at hentry
  · cases hentry
    obtain ⟨param, -, hfind⟩ := Option.bind_eq_some_iff.mp hdefault
    rcases find?_defaultsFrom.mp hfind with ⟨k, ⟨param', target, hpair, -, hvalue⟩, -⟩ | ⟨hnone, -⟩
    · exact .inr ⟨target, (of_mem_zip (mem_of_getElem? hpair)).2, hvalue⟩
    · cases hnone
  · exact .inl ⟨name', entry, index, hentry, hdefault⟩

end Registry

theorem defaultOf?_held {target default : Node} (h : defaultOf? target = some default) :
    (.expression, default) ∈ target.kind.slots := by
  unfold defaultOf? at h
  split at h
  · next inner value hkind =>
    cases h
    simp [hkind, NodeKind.slots]
  · cases h

variable {targets : List Node}

theorem Registry.StoresOnly.extend {P : Node → Prop} {registry registry' : Registry}
    (h : registry.StoresOnly P)
    (htargets : ∀ target ∈ targets, ∀ n, (.expression, n) ∈ target.kind.slots → P n)
    (hstores : ∀ default, registry'.Stores default → registry.Stores default ∨
      ∃ target ∈ targets, defaultOf? target = some default) : registry'.StoresOnly P := by
  intro default hdefault
  rcases hstores default hdefault with hold | ⟨target, htarget, hdefaultOf⟩
  · exact h default hold
  · exact htargets target htarget default (defaultOf?_held hdefaultOf)

namespace Lowering

/-! ## Parameters -/

variable {lower : Lowerer} {P : Comparison} {stored : Node → Prop}

theorem boundNames_getD {param : Pattern} {target : Option Node}
    (h : Pattern.Targets param.kind leaves target) (index : Nat) (p : Option Position) :
    (target.getD ((ident ("__unused_" ++ Text.decimal index)).place p)).boundNames =
      param.paramNames index := by
  obtain ⟨kind, default, q⟩ := param
  cases target with
  | none =>
    obtain rfl : kind = .skip := h.skipped.mp rfl
    rfl
  | some node =>
    have hnames : node.boundNames = Pattern.kindNames kind := h.names
    cases kind with
    | skip => exact absurd (h.skipped.mpr rfl) (by simp)
    | _ => exact hnames

/-- The targets of parameters: one for each, and together they bind the names of the parameters. -/
structure BindsParams (index : Nat) (params : List Pattern) (targets : List Node) : Prop where
  length : targets.length = params.length
  names : targets.flatMap boundNames = paramsNames index params

theorem lowerParamTargets_performs (index : Nat) {params : List Pattern}
    (hdefaults : ∀ t ∈ params.flatMap Pattern.defaults, P.trees t) :
    P.Performs stored (defaultsScript index params) (lowerParamTargets · index params)
      fun leaves _ targets =>
        BuiltAll leaves (Slot.expression.all targets) ∧ BindsParams index params targets := by
  induction params generalizing index with
  | nil => exact .pure ⟨.nil, rfl, rfl⟩
  | cons param rest ih =>
    rw [flatMap_cons, forall_mem_append] at hdefaults
    refine .bind (pattern_performs hdefaults.1) fun _ _ _ htarget =>
      .unnoted _ (.map (ih (index + 1) hdefaults.2) fun _ _ _ htargets => ⟨?_, ?_, ?_⟩)
    · exact .cons (.getD htarget.built ((Built.ident _).place _)) htargets.1
    · rw [length_cons, length_cons, htargets.2.length]
    · rw [flatMap_cons, boundNames_getD htarget, htargets.2.names, paramsNames]

theorem paramEntries_calm (p : Option Position) (params : List Pattern)
    (hlength : targets.length = params.length)
    (htargets : BuiltAll leaves (Slot.expression.all targets)) :
    Calm (fun entries => BuiltAll leaves (Slot.patternEntry.all entries) ∧
        entryNames entries = targets.flatMap boundNames)
      (Lower.each (paramEntry p) (params.zip targets)) := by
  induction params generalizing targets leaves with
  | nil =>
    obtain rfl := length_eq_zero_iff.mp hlength
    exact .pure ⟨htargets, rfl⟩
  | cons param rest ih =>
    cases targets with
    | nil => cases hlength
    | cons target targets =>
      obtain ⟨leaves₁, leaves₂, hmem, htarget, hothers⟩ := htargets.uncons rfl
      have hentry : Calm (fun entry => Built leaves₁ .patternEntry entry ∧ ∀ others,
          entryNames (entry :: others) = target.boundNames ++ entryNames others)
          (paramEntry p (param, target)) := by
        dsimp only [paramEntry]
        cases param.name? with
        | some name => exact .pure ⟨htarget.keyed _ (.inr rfl), fun _ => rfl⟩
        | none => exact .fault rfl
      refine .bind hentry fun _ hentry =>
        .bind (ih (Nat.succ.inj hlength) hothers) fun _ hentries => .pure ⟨?_, ?_⟩
      · exact .regroup hmem (.cons hentry.1 hentries.1)
      · rw [hentry.2, hentries.2, flatMap_cons]

theorem shapeParams_calm {index : Nat} {list : ParamList}
    (htargets : BuiltAll leaves (Slot.expression.all targets) ∧ BindsParams index list.params targets)
    (p : Option Position) : Calm (fun shaped => BuiltAll leaves (Slot.expression.all shaped) ∧
        shaped.flatMap boundNames = paramsNames index list.params) (shapeParams list p targets) := by
  obtain ⟨hbuilt, hbinds⟩ := htargets
  refine .ite ?_ (.pure ⟨hbuilt, hbinds.names⟩)
  refine .bind (paramEntries_calm p list.params hbinds.length hbuilt) fun _ hentries =>
    .pure ⟨.one (.hold rfl (.before (.hold rfl hentries.1) (.one (.hold rfl .nil)))), ?_⟩
  rw [flatMap_singleton, ← hbinds.names, ← hentries.2]
  rfl

variable {spec : FunctionSpec} {c d : Context}

theorem remember_ok (h : spec.remember targets c = .ok () d) :
    ∃ registry declarations, d = { c with registry, declarations } ∧
      ∀ default, registry.Stores default → c.registry.Stores default ∨
        ∃ target ∈ targets, defaultOf? target = some default := by
  rcases spec.remember_cases targets with hpure | ⟨name, -, -, hdeclare⟩
  · rw [hpure] at h
    obtain ⟨-, rfl⟩ := pure_ok h
    exact ⟨d.registry, d.declarations, rfl, fun _ => .inl⟩
  · rw [hdeclare] at h
    unfold declareFunction at h
    split at h
    · next registry hreg =>
      cases h
      exact ⟨registry, _, rfl, fun _ => Registry.stores_of_declare hreg⟩
    · cases h

theorem remember_outcome {V : RegistryView} {c' d' : Context} (hafter : After V c c' d d')
    (hname : ∀ name ∈ spec.name, V.visible (Symbol.identifier name))
    (hgrows : ∀ name registry, spec.isDeclared = true → spec.name = some name →
      d.registry.declare (Symbol.identifier name) (spec.entry targets) = .ok registry →
      V.grows c.registry registry) :
    Outcome V c c' (spec.remember targets d) (spec.remember targets d') := by
  rcases spec.remember_cases targets with hpure | ⟨name, hspec, hdeclared, hdeclare⟩
  · rw [hpure]
    exact .ok hafter
  · have hvisible := hname name hspec
    rw [hdeclare]
    unfold declareFunction
    cases hreg : d.registry.declare (Symbol.identifier name) (spec.entry targets) with
    | error e =>
      rw [V.declare_error hafter.twin.registry hvisible hreg]
      obtain ⟨s, t, l, hs, rfl⟩ := hafter.twin.eq_with
      have hevolves := hafter.evolves
      exact .error (Registry.declare_faultless _ _ _ e hreg)
        ⟨{ hevolves with }, hafter.grows, ⟨rfl, hs⟩, hafter.tries.snoc _, hafter.waits⟩
    | ok r =>
      obtain ⟨r', hreg', halike⟩ := V.declare_ok hafter.twin.registry hvisible hreg
      rw [hreg']
      obtain ⟨s, t, l, -, rfl⟩ := hafter.twin.eq_with
      have hevolves := hafter.evolves
      exact .ok ⟨{ hevolves with }, hgrows name r hdeclared hspec hreg, ⟨rfl, halike⟩,
        hafter.tries.snoc _, hafter.waits⟩

section

variable (hdefaults : ∀ t ∈ spec.params.defaults, P.trees t)

include hdefaults

theorem lowerParams_follows (hname : ∀ name ∈ spec.name, P.view.visible (Symbol.identifier name))
    (hread : spec.isDeclared = true → ∃ t, ParamList.read t = .ok spec.params) :
    Follows P (defaultsScript 0 spec.params.params)
      (fun params => params.flatMap boundNames = paramsNames 0 spec.params.params)
      (spec.lowerParams P.first) (spec.lowerParams P.second) := by
  intro c c' hc hagree
  have htargets : P.Performs (fun _ => True) _ (lowerParamTargets · 0 spec.params.params) _ :=
    lowerParamTargets_performs 0 hdefaults
  obtain ⟨hout, hok⟩ := htargets.follows c c' hc hagree
  refine ⟨hout.bindFrom fun targets d d' hrun hafter => ?_, fun params d hrun => ?_⟩
  · rcases shapeParams_cases spec.params spec.position targets with ⟨params, hshape⟩ | ⟨q, hshape⟩
    · rw [hshape]
      have hremember : Outcome P.view c c' (spec.remember targets d) (spec.remember targets d') :=
        remember_outcome hafter hname fun name registry hdeclared hspec hreg =>
          P.declares spec c d targets _ registry hdefaults
            ⟨hdeclared, ⟨name, hspec, rfl⟩, hread hdeclared, params, hshape⟩ hrun hafter.grows hreg
      exact hremember.bindFrom fun _ _ _ _ hafter => .ok hafter
    · rw [hshape]
      exact .error (Diagnostic.blameless_fault _ q rfl) hafter
  · obtain ⟨targets, e, htargets, hrun⟩ := bind_ok hrun
    obtain ⟨shaped, e', hshape, hrun⟩ := bind_ok hrun
    obtain ⟨_, hremember, rfl⟩ := map_ok hrun
    obtain ⟨hscopes, _, _, hbinds⟩ := hok targets e htargets
    obtain ⟨hsame, -, hnames⟩ := (shapeParams_calm hbinds spec.position).steady.ends e _ e' hshape
    obtain ⟨_, _, rfl, -⟩ := remember_ok hremember
    exact ⟨hsame.trans hscopes, hnames⟩

variable (stored) in
theorem lowerParams_ok (hl : Transparent P.first) {params : List Node}
    (h : spec.lowerParams P.first c = .ok params d) :
    ∃ (c₁ : Context) (registry : Registry) (declarations : List (String × FunctionEntry))
      (targets : List Node) (events : List Event) (δ : Suspension),
      Run P.first stored c.core events δ c₁.core ∧ c₁.suspension = c.suspension.union δ ∧
      events.flatMap Event.parts = Place.value.all spec.params.defaults ∧
      BuiltAll (events.flatMap Event.leaves) (Slot.expression.all targets) ∧
      BuiltAll (events.flatMap Event.leaves) (Slot.expression.all params) ∧
      d = { c₁ with registry, declarations } ∧ ∀ default, registry.Stores default →
        c₁.registry.Stores default ∨ ∃ target ∈ targets, defaultOf? target = some default := by
  obtain ⟨targets, c₁, htargets, h⟩ := bind_ok h
  obtain ⟨_, c₂, hshape, h⟩ := bind_ok h
  obtain ⟨_, hremember, rfl⟩ := map_ok h
  have hperforms : P.Performs stored _ (lowerParamTargets · 0 spec.params.params) _ :=
    lowerParamTargets_performs 0 hdefaults
  obtain ⟨events, δ, hrun, hδ, hparts, hbuilt⟩ := hperforms.makes hl c targets c₁ htargets
  rw [parts_defaultsScript] at hparts
  obtain ⟨hcore, hsusp, hparams, -⟩ :=
    (shapeParams_calm hbuilt spec.position).idle c₁ params c₂ hshape
  obtain ⟨registry, declarations, rfl, hreg⟩ := remember_ok hremember
  rw [← hcore] at hrun
  exact ⟨c₂, registry, declarations, targets, events, δ, hrun, hsusp.trans hδ, hparts, hbuilt.1,
    hparams, rfl, hreg⟩

end

variable (stored) in
theorem lowerInside_ok (hl : Transparent lower) {params body : List Node} {leftEarly : Bool}
    (h : spec.lowerInside lower params c = .ok (body, leftEarly) d) :
    ∃ k events δ statements, Run lower stored (c.core.inside c.registry) events δ k ∧
      events.flatMap Event.parts = Place.statement.all spec.body ∧
      BuiltAll (events.flatMap Event.leaves) (Slot.statement.all statements) ∧
      body = spec.returned statements ∧ leftEarly = k.earlyReturn ∧ k.options = c.options ∧
      d.core = { c.core with registry := k.registry } ∧ d.suspension = c.suspension := by
  have hbody : Makes lower stored (Place.statement.all spec.body)
      (if spec.returnsLast then lowerReturningBody lower spec.body else lowerBody lower spec.body)
      fun leaves _ body => ∃ statements, body = spec.returned statements ∧
        BuiltAll leaves (Slot.statement.all statements) := by
    unfold returned
    split
    · exact .map (lowerBody_makes hl _) fun statements _ _ hstmts => ⟨statements, rfl, hstmts⟩
    · exact (lowerBody_makes hl _).weaken fun statements _ _ hstmts => ⟨statements, rfl, hstmts⟩
  unfold lowerInside at h
  obtain ⟨_, _, hinner, heq, rfl⟩ := within_ok h
  obtain ⟨events, δ, hrun, -, hparts, statements, hreturned, hstmts⟩ := hbody.inScope _ _ _ _ hinner
  cases heq
  obtain ⟨hopts, -, hdepth⟩ := hrun.surroundings hl
  refine ⟨_, events, δ, statements, hrun, hparts, hstmts, hreturned, rfl, hopts, ?_, rfl⟩
  -- one function less encloses the code behind the body than the code at its end
  exact congrArg₂ (fun options depth => Core.mk options _ _ depth _) hopts
    (Nat.sub_eq_of_eq_add hdepth)

theorem lowerInside_follows (hbody : SExpr.Each P.trees spec.body) (params : List Node) :
    P.Walks (.scope (params.flatMap boundNames) ((Script.statements spec.body).inPlace .inner) .done)
      (spec.lowerInside · params) := by
  have hbody : P.Walks (.statements spec.body) (lowerBody · spec.body) :=
    (lowerBody_performs hbody).walks
  exact .inFunction (.inScope _ (.inPlace .inner (.ite (.wrap hbody) hbody)))

/-! ## Records -/

theorem shapeParams_logs (list : ParamList) (p : Option Position) (targets : List Node) :
    Logs [] (shapeParams list p targets) := by
  rcases shapeParams_cases list p targets with ⟨params, h⟩ | ⟨q, h⟩
  · rw [h]
    exact .pure params
  · rw [h]
    exact .refuse _

theorem remember_logs (spec : FunctionSpec) (targets : List Node) :
    Logs (spec.declaredName?.map fun name => Act.declare ⟨name, spec.params, spec.body⟩).toList
      (spec.remember targets) := by
  unfold FunctionSpec.declaredName? remember
  cases spec.name with
  | none => cases spec.isDeclared <;> exact .pure ()
  | some name =>
    cases spec.isDeclared with
    | false => exact .pure ()
    | true => exact .declareFunction (Symbol.identifier name) (spec.entry targets)

theorem lowerInside_logs (hbody : SExpr.Each P.trees spec.body) (params : List Node) :
    P.Logs (Place.inner.all spec.body) (spec.lowerInside P.first params) := by
  intro hl below hbelow
  have hstmts : P.Performs (fun _ => True) _ (lowerBody · spec.body) _ :=
    lowerBody_performs hbody
  have hlogs := hstmts.logs hl below hbelow
  rw [Place.acts_all]
  rw [Script.parts_statements, Place.acts_all] at hlogs
  refine .inFunction (.inScope ?_ _)
  split
  · exact hlogs.map returningAll
  · exact hlogs

theorem buildFunction_logs (hdefaults : ∀ t ∈ spec.params.defaults, P.trees t)
    (hbody : SExpr.Each P.trees spec.body) : P.Logs spec.parts (buildFunction P.first spec) := by
  intro hl below hbelow
  have htargets : P.Performs (fun _ => True) _ (lowerParamTargets · 0 spec.params.params) _ :=
    lowerParamTargets_performs 0 hdefaults
  have hdeclared : (spec.declaredName?.map fun name =>
      Part.act (.declare ⟨name, spec.params, spec.body⟩)).toList.flatMap (Part.acts below) =
        (spec.declaredName?.map fun name => Act.declare ⟨name, spec.params, spec.body⟩).toList := by
    cases spec.declaredName? <;> rfl
  have hparams : Logs _ (spec.lowerParams P.first) :=
    .bind (htargets.logs hl below hbelow) fun _ targets _ _ =>
      .after (shapeParams_logs _ _ targets) fun _ params _ _ =>
        (remember_logs spec targets).map fun _ => params
  rw [parts_defaultsScript] at hparams
  rw [buildFunction_eq, parts, script, parts_functionScript, flatMap_append, flatMap_append, hdeclared,
    ← append_assoc, Place.acts_all .default]
  refine .bind hparams fun _ params _ _ => .settle (lowerInside_logs hbody params hl below hbelow)
    fun _ _ _ _ => .after .get fun _ _ _ _ => .pure _

end Lowering

/-! ## Functions -/

section

variable {P : Comparison} {stored : Node → Prop} (spec : FunctionSpec)
  (hdefaults : ∀ t ∈ spec.params.defaults, P.trees t)

include hdefaults

theorem Makes.function (hl : Transparent P.first) :
    Makes P.first stored spec.parts (buildFunction P.first spec)
      fun leaves _ f => leaves = [.function f] := by
  intro c f d hbuild
  rw [buildFunction_eq] at hbuild
  obtain ⟨params, _, hparams, hbuild⟩ := bind_ok hbuild
  obtain ⟨⟨_, _⟩, c₂, hinside, hbuild⟩ := bind_ok hbuild
  obtain ⟨_, _, hget, hbuild⟩ := bind_ok hbuild
  cases hget
  obtain ⟨rfl, rfl⟩ := pure_ok hbuild
  obtain ⟨c₁, registry, _, targets, events, δ, hrun, hδ, hparts, htargets, hbuilt, rfl, hreg⟩ :=
    lowerParams_ok stored hdefaults hl hparams
  obtain ⟨k, events', δ', statements, hrun', hparts', hstmts, rfl, rfl, hopts, hcore,
    hsusp⟩ := lowerInside_ok stored hl hinside
  have hstep := Step.function hrun hparts htargets hbuilt hreg hrun' hparts' hstmts
  have hkey : d.options = k.options := (congrArg Core.options hcore).trans hopts.symm
  refine ⟨[.function spec (spec.enclose params statements k)], δ, ?_, hsusp.trans hδ, ?_, ?_⟩
  · rw [hcore]
    exact .one hstep
  · simp [Event.parts]
  · simp [Event.leaves, enclose, hkey]

variable {name : Option String} {params : ParamList} {body : List SExpr}

omit hdefaults in
theorem Performs.function (hdeclared : spec.declaredName? = name) (hparams : spec.params = params)
    (hbody : spec.body = body) (hdefaults : ∀ t ∈ params.defaults, P.trees t)
    (hts : SExpr.Each P.trees body)
    (hname : ∀ name ∈ spec.name, P.view.visible (Symbol.identifier name))
    (hread : spec.isDeclared = true → ∃ t, ParamList.read t = .ok params) :
    P.Performs stored (functionScript name params body) (buildFunction · spec)
      fun leaves _ f => leaves = [.function f] := by
  subst hdeclared hparams hbody
  refine ⟨?_, Makes.function spec hdefaults, buildFunction_logs hdefaults hts⟩
  dsimp only
  rw [buildFunction_eq, buildFunction_eq]
  -- the names that the body starts with are those of the lowered parameters
  refine .block (.bind (.inPlace _ (lowerParams_follows hdefaults hname hread)) fun params hparams => ?_)
  rw [← hparams]
  exact .declaring _ (.thenSteady (lowerInside_follows hts params) fun _ _ =>
    .get (fun _ _ _ _ => rfl) fun _ => .pure ⟨_, {}, rfl⟩)

end

end LispLowering
