import LispLowering.Proofs.EarlyReturn.Completeness
import LispLowering.Proofs.Hygiene
import LispLowering.Proofs.Resolution
import LispLowering.Proofs.Suspension.Tracking

/-!
# Defaults that are copied into calls
-/

namespace LispLowering

open Lowering List Node SExpr Option

/-! ## What a value shows -/

/-- The value of a tree that is lowered from the state `c` to the state `d` shows what the tree says.

* A name is in it only if the tree, the state or lowering itself gives the name.
* It waits for something only if the tree does, if no default in the tree and in the state waits.
* It throws a marked object out of a function only if the tree leaves the function, if no default in the
  tree and in the state does. -/
structure StandsFor (tree : SExpr) (c : Context) (value : Node) (d : Context) : Prop where
  names : ∀ name, ¬IsOwnName name → (∀ stem ∈ freshStems, name ∉ Context.drawn stem c d) →
    Vacant [tree] c name → value.Lacks name
  waits : tree.Prompt → c.registry.Prompt → Awaits [value] ∨ Yields [value] → tree.Suspends
  leaves : tree.Orderly c.options.earlyReturnKey → c.registry.Harmless c.options.earlyReturnKey →
    (Scan.uncaught c.options.earlyReturnKey).Finds value → tree.LeavesEarly true

namespace Lowering

variable {tree : SExpr} {c d : Context} {value : Node}

variable (h : lowerValue lower tree c = .ok value d)

include h

theorem lowerValue_lacks {name : String}
    (hforeign : ¬IsOwnName name) (hdrawn : ∀ stem ∈ freshStems, name ∉ Context.drawn stem c d)
    (hvacant : Vacant [tree] c name) : value.Lacks name := by
  have htree : tree.Suits (.only name hforeign) := (avoidIn_iff.mp hvacant.trees tree (.head _)).suits
  have hhidden : (Watch.only name hforeign).Hidden c.nextFresh d.nextFresh := by
    intro stem hstem n hlow hhigh hmem
    exact hdrawn stem hstem (Context.mem_drawn.mpr ⟨n, hlow, hhigh, mem_singleton.mp hmem⟩)
  obtain ⟨-, hvalue⟩ := (lowerValue_traced lower_sourced htree).sourced.run h hvacant.state.unwatched hhidden
  exact hvalue.allowed.lacks

theorem lowerValue_suspends (htree : tree.Prompt)
    (hc : c.registry.Prompt) (hvalue : Awaits [value] ∨ Yields [value]) : tree.Suspends := by
  obtain ⟨δ, hstep, -⟩ := (lower_transparent.value tree).rebase h
  have htracked := lowerValue_tracked ⟨lower_transparent, lower_tracked, hc⟩ htree rfl hstep hc
  -- whatever is found in the value has been noted, and a note comes from a part that waits
  have hnoted : δ ≠ {} := by
    rintro rfl
    rcases hvalue with ⟨n, hn, hfinds⟩ | ⟨n, hn, hfinds⟩
    · cases mem_singleton.mp hn
      cases htracked.tracks.awaits_of ⟨_, .head _, hfinds⟩
    · cases mem_singleton.mp hn
      cases htracked.tracks.yields_iff.mp ⟨_, .head _, hfinds⟩
  obtain ⟨part, hpart, hsuspends⟩ := htracked.suspends hnoted
  cases tree with
  | list items p =>
    cases mem_singleton.mp hpart
    exact hsuspends.2
  | symbol | literal => cases hpart

theorem lowerValue_leavesEarly
    (htree : tree.Orderly c.options.earlyReturnKey) (hc : c.registry.Harmless c.options.earlyReturnKey)
    (hvalue : (Scan.uncaught c.options.earlyReturnKey).Finds value) : tree.LeavesEarly true := by
  obtain ⟨δ, hstep, -⟩ := (lower_transparent.value tree).rebase h
  obtain ⟨-, hleaf⟩ := lowerValue_leaving (lower_leavingSource hc) htree rfl hstep rfl hc
  rcases exists_mem_partAt.mp (hleaf.uncaught hvalue) with ⟨-, hleaves⟩ | ⟨hplace, -⟩
  · exact hleaves
  · cases hplace

theorem lowerValue_standsFor : StandsFor tree c value d :=
  ⟨fun _ => lowerValue_lacks h, lowerValue_suspends h, lowerValue_leavesEarly h⟩

end Lowering

/-! ## Where a default is lowered -/

/-- The tree is the default of the parameter at `index`. When the function `spec` is declared in the state
`c`, the tree is lowered to `value` from the state `e` to the state `e'`: after the parameters in front of
it and after what its own parameter binds. -/
structure DefaultRun (spec : FunctionSpec) (c : Context) (index : Nat) (tree : SExpr) (e : Context)
    (value : Node) (e' : Context) : Prop where
  before : ∃ param targets c' target, spec.params.params[index]? = some param ∧
    param.default = some tree ∧
    lowerParamTargets lower 0 (spec.params.params.take index) c = .ok targets c' ∧
    Pattern.lowerKind (lowerValue lower) param.position param.kind c' = .ok (some target) e
  lowered : lowerValue lower tree e = .ok value e'

namespace Lowering

variable {c d : Context} {index : Nat}

theorem lowerKind_bound {transform : SExpr → Lower Node} {p : Option Position} {kind : PatternKind}
    {target : Option Node} (h : Pattern.lowerKind transform p kind c = .ok target d) :
    (target = none ↔ kind = .skip) ∧ ∀ node ∈ target, defaultOf? node = none := by
  cases kind with
  | skip =>
    cases (pure_ok h).1
    simp
  | identifier name ascribed =>
    cases (pure_ok h).1
    simp [defaultOf?]
  | array elements =>
    obtain ⟨slots, _, -, h⟩ := bind_ok h
    cases (pure_ok h).1
    simp [defaultOf?]
  | object properties rest =>
    obtain ⟨entries, _, -, h⟩ := bind_ok h
    obtain ⟨remaining, _, -, h⟩ := bind_ok h
    cases (pure_ok h).1
    simp [defaultOf?]
  | rest inner =>
    obtain ⟨inside, _, -, h⟩ := bind_ok h
    obtain ⟨bound, _, -, h⟩ := bind_ok h
    cases (pure_ok h).1
    simp [defaultOf?]

theorem default_of_target {transform : SExpr → Lower Node} {param : Pattern} {lowered : Option Node}
    (name : String) (p : Option Position) (h : param.lower transform c = .ok lowered d) :
    (defaultOf? (lowered.getD ((ident name).place p)) = none ∧
      (param.default = none ∨ param.kind = .skip)) ∨
    ∃ tree target value e, param.default = some tree ∧ param.kind ≠ .skip ∧
      Pattern.lowerKind transform param.position param.kind c = .ok (some target) e ∧
      transform tree e = .ok value d ∧ lowered = some ⟨.assignmentPattern target value, param.position⟩ := by
  obtain ⟨kind, default, q⟩ := param
  obtain ⟨target, e, hkind, h⟩ := bind_ok h
  obtain ⟨hskip, hplain⟩ := lowerKind_bound hkind
  cases target with
  | none =>
    -- a skipped slot gets a name, which has no default
    obtain ⟨rfl, rfl⟩ := pure_ok h
    exact .inl ⟨by cases p <;> rfl, .inr (hskip.mp rfl)⟩
  | some target =>
    cases default with
    | none =>
      obtain ⟨rfl, rfl⟩ := pure_ok h
      exact .inl ⟨hplain target rfl, .inl rfl⟩
    | some tree =>
      obtain ⟨value, htree, rfl⟩ := map_ok h
      have hbound : kind ≠ .skip := fun h => some_ne_none target (hskip.mpr h)
      exact .inr ⟨tree, target, value, e, rfl, hbound, hkind, htree, rfl⟩

theorem lowerParamTargets_length {lower : Lowerer} {start : Nat} {params : List Pattern}
    {targets : List Node} (h : lowerParamTargets lower start params c = .ok targets d) :
    targets.length = params.length := by
  induction params generalizing start targets c with
  | nil =>
    obtain ⟨rfl, rfl⟩ := pure_ok h
    rfl
  | cons param rest ih =>
    obtain ⟨lowered, c₁, -, h⟩ := bind_ok h
    obtain ⟨targets, hrest, rfl⟩ := map_ok h
    rw [length_cons, length_cons, ih hrest]

theorem lowerParamTargets_split {lower : Lowerer} {start : Nat} {params : List Pattern}
    {targets : List Node} {target : Node} (h : lowerParamTargets lower start params c = .ok targets d)
    (htarget : targets[index]? = some target) :
    ∃ param others c' lowered e name, params[index]? = some param ∧
      lowerParamTargets lower start (params.take index) c = .ok others c' ∧
      param.lower (lowerValue lower) c' = .ok lowered e ∧
      target = lowered.getD ((ident name).place param.position) := by
  induction params generalizing start index targets c with
  | nil =>
    obtain ⟨rfl, rfl⟩ := pure_ok h
    cases htarget
  | cons param rest ih =>
    obtain ⟨lowered, c₁, hparam, h⟩ := bind_ok h
    obtain ⟨targets, hrest, rfl⟩ := map_ok h
    cases index with
    | zero =>
      cases htarget
      exact ⟨param, [], c, lowered, c₁, _, rfl, rfl, hparam, rfl⟩
    | succ index =>
      obtain ⟨later, others, c', lowered', e, name, hlater, hothers, hlowered, rfl⟩ := ih hrest htarget
      have hfront : lowerParamTargets lower start ((param :: rest).take (index + 1)) c = .ok
          (lowered.getD ((ident ("__unused_" ++ Text.decimal start)).place param.position) :: others)
          c' := by
        simp [lowerParamTargets, bind, EStateM.bind, hparam, hothers, pure, EStateM.pure]
      exact ⟨later, _, c', lowered', e, name, hlater, hfront, hlowered, rfl⟩

end Lowering

variable {spec : FunctionSpec} {c d : Context} {params : List Node} {name : String}
  {entry : FunctionEntry} {index : Nat} {value : Node}

theorem DefaultRun.unique {tree tree' : SExpr} {value' : Node} {e e' f f' : Context}
    (h : DefaultRun spec c index tree e value e') (h' : DefaultRun spec c index tree' f value' f') :
    value = value' := by
  obtain ⟨param, targets, c', target, hparam, htree, hfront, hkind⟩ := h.before
  obtain ⟨param', targets', c'', target', hparam', htree', hfront', hkind'⟩ := h'.before
  cases hparam.symm.trans hparam'
  cases htree.symm.trans htree'
  cases hfront.symm.trans hfront'
  cases hkind.symm.trans hkind'
  cases h.lowered.symm.trans h'.lowered
  rfl

/-- The parameter at `k` has the key and a default, and it is not skipped. -/
def KeyedDefault (params : List Pattern) (key : String) (k : Nat) : Prop :=
  ∃ param, params[k]? = some param ∧ param.key k = key ∧ param.default.isSome = true ∧ param.kind ≠ .skip

section

variable {targets : List Node} {key : String} {k : Nat}
  (h : lowerParamTargets lower 0 spec.params.params c = .ok targets d)
include h

theorem defaultRun_of_defaultAt (hvalue : DefaultAt 0 (spec.params.params.zip targets) key k value) :
    KeyedDefault spec.params.params key k ∧ (∃ tree e e', DefaultRun spec c k tree e value e') ∧
      ∃ bound p, targets[k]? = some ⟨.assignmentPattern bound value, p⟩ := by
  obtain ⟨param, target, hpair, hkey, hdefault⟩ := hvalue
  rw [getElem?_zip_eq_some] at hpair
  obtain ⟨hparam, htarget⟩ : _ = some param ∧ _ = some target := hpair
  obtain ⟨same, others, c', lowered, e', unused, hsame, hfront, hlowered, rfl⟩ :=
    lowerParamTargets_split h htarget
  cases hparam.symm.trans hsame
  rw [Nat.zero_add] at hkey
  rcases default_of_target unused param.position hlowered with
    ⟨hnone, -⟩ | ⟨tree, bound, held, e, htree, hskip, hkind, hrun, rfl⟩
  · cases hnone.symm.trans hdefault
  · cases hdefault
    refine ⟨⟨param, hparam, hkey, by rw [htree]; rfl, hskip⟩, ?_, bound, param.position, htarget⟩
    exact ⟨tree, e, e', ⟨param, others, c', bound, hparam, htree, hfront, hkind⟩, hrun⟩

theorem exists_defaultAt (hkeyed : KeyedDefault spec.params.params key k) :
    ∃ value, DefaultAt 0 (spec.params.params.zip targets) key k value := by
  obtain ⟨param, hparam, hkey, hdefault, hskip⟩ := hkeyed
  have hk : k < targets.length := by
    rw [lowerParamTargets_length h]
    exact (List.getElem?_eq_some_iff.mp hparam).1
  have htarget := getElem?_eq_getElem hk
  obtain ⟨same, others, c', lowered, e', unused, hsame, hfront, hlowered, htarget'⟩ :=
    lowerParamTargets_split h htarget
  cases hparam.symm.trans hsame
  rw [htarget'] at htarget
  rcases default_of_target unused param.position hlowered with
    ⟨-, hnone | hnone⟩ | ⟨tree, bound, held, e, htree, -, hkind, hrun, rfl⟩
  · simp [hnone] at hdefault
  · exact absurd hnone hskip
  · exact ⟨held, param, _, getElem?_zip_eq_some.mpr ⟨hparam, htarget⟩, by rwa [Nat.zero_add], rfl⟩

end

theorem Records.default (h : Records spec c params name entry)
    (hvalue : entry.defaultFor index = some value) :
    ∃ (k : Nat) (param other : Pattern) (tree : SExpr) (e e' : Context),
      entry.params[index]? = some param ∧ entry.params[k]? = some other ∧
      other.key k = param.key index ∧ DefaultRun spec c k tree e value e' ∧ (entry.structured = false →
        ∃ target p, params[k]? = some ⟨.assignmentPattern target value, p⟩) := by
  obtain ⟨targets, d, htargets, hshape, rfl⟩ := h.entry_eq
  obtain ⟨param, hparam, hfind⟩ := bind_eq_some_iff.mp hvalue
  rcases find?_defaultsFrom.mp hfind with ⟨k, hdefault, -⟩ | ⟨hnone, -⟩
  · obtain ⟨⟨other, hother, hkey, -⟩, ⟨tree, e, e', hrun⟩, bound, p, htarget⟩ :=
      defaultRun_of_defaultAt htargets hdefault
    refine ⟨k, param, other, tree, e, e', hparam, hother, hkey, hrun, fun hplain => ?_⟩
    -- the parameters of a function without a parameter map are the targets
    have hparams : shapeParams spec.params spec.position targets = pure targets :=
      if_neg (Bool.eq_false_iff.mp hplain)
    have hsame : (pure params : Lower (List Node)) c = .ok targets c := by
      rw [← hshape, hparams]
      rfl
    cases hsame
    exact ⟨bound, p, htarget⟩
  · cases hnone

theorem DefaultRun.surroundings {tree : SExpr} {e e' : Context}
    (h : DefaultRun spec c index tree e value e') :
    Evolves c e ∧ (c.registry.Reached → e.registry.Reached) := by
  obtain ⟨param, targets, c', target, -, -, hfront, hkind⟩ := h.before
  have hparams : Agree RegistryView.recording
      (lowerParamTargets lower 0 (spec.params.params.take index))
      (lowerParamTargets lower 0 (spec.params.params.take index)) :=
    (lowerParamTargets_performs 0 fun _ _ => trivial).walks.agree Comparison.recording_agrees
  have hbound : Agree RegistryView.recording
      (Pattern.lowerKind (lowerValue lower) param.position param.kind)
      (Pattern.lowerKind (lowerValue lower) param.position param.kind) :=
    ((pattern_rules .recording fun _ => True).lowerKind none _ _ (fun _ h => h.blameless)
      (fun _ _ _ h => h.blameless) fun _ _ => trivial).walks.agree Comparison.recording_agrees
  have hfirst := hparams c c ⟨rfl, rfl⟩
  have hsecond := hbound c' c' ⟨rfl, rfl⟩
  rw [hfront] at hfirst
  rw [hkind] at hsecond
  cases hfirst with
  | ok hc' =>
    cases hsecond with
    | ok he =>
      refine ⟨hc'.evolves.trans he.evolves, fun hc => ?_⟩
      exact (he.grows (hc'.grows ⟨hc, hc.recorded⟩)).1

/-! ## What is copied -/

/-- What is copied into a call stands for the tree of a default. In a state that some run reaches, take a
call of a declared function without a spread. Where an argument is missing or a placeholder, a default is
passed. Whichever declaration recorded the function, the same node is the default of the parameter in the
declared function; it was lowered from its tree in the surroundings of the declaration; and it shows what
the tree says. -/
theorem copied_default_stands_for {c d : Context} {name : String} {entry : FunctionEntry}
    {q p : Option Position} {args : List SExpr} {lowered : Option Node} (hc : c.registry.Reached)
    (hentry : Resolves c name entry) (hspread : args.any isSpread = false)
    (hplain : entry.structured = false)
    (hrun : Lowering.lower (.list (.symbol name q :: args) p) c = .ok lowered d) : ∃ arguments,
      lowered = some ⟨.call ((ident (Symbol.identifier name)).place q) arguments false, p⟩ ∧
      (∃ spec c₀ params, c₀.registry.Reached ∧ Records spec c₀ params (Symbol.identifier name) entry) ∧
      ∀ index < entry.positional.length, (∀ arg ∈ args[index]?, isPlaceholder arg = true) →
        ∃ value, arguments[index]? = some value ∧
          ∀ spec c₀ params, Records spec c₀ params (Symbol.identifier name) entry →
            ∃ (k : Nat) (param other : Pattern) (tree : SExpr) (e e' : Context),
              entry.params[index]? = some param ∧ entry.params[k]? = some other ∧
              other.key k = param.key index ∧
              (∃ target r, params[k]? = some ⟨.assignmentPattern target value, r⟩) ∧
              DefaultRun spec c₀ k tree e value e' ∧
              Evolves c₀ e ∧ (c₀.registry.Reached → e.registry.Reached) ∧ StandsFor tree e value e' := by
  obtain ⟨node, arguments, c', hgiven, rfl⟩ := hentry.lower_call hrun
  refine ⟨arguments, rfl, hc.recorded _ entry hentry.found, fun _ hindex harg => ?_⟩
  obtain ⟨value, hvalue, hdefault⟩ :=
    DeclaredCall.arguments_default hgiven hspread hplain hindex harg
  refine ⟨value, hvalue, fun _ _ _ hrecords => ?_⟩
  obtain ⟨k, param, other, tree, e, e', hparam, hother, hkey, hdefaultRun, htarget⟩ :=
    hrecords.default hdefault
  obtain ⟨hevolves, hreached⟩ := hdefaultRun.surroundings
  exact ⟨k, param, other, tree, e, e', hparam, hother, hkey, htarget hplain, hdefaultRun, hevolves,
    hreached, lowerValue_standsFor hdefaultRun.lowered⟩

/-! ## Two declarations -/

/-- `(g x)`. -/
def plainDefault : SExpr := .list [.symbol "g" none, .symbol "x" none] none

/-- The function `f` with the parameters `a` and `b`, where `b` has a default. -/
def defaulting (default : SExpr) : SExpr :=
  .list [.symbol "fn" none, .symbol "f" none,
    .list [.symbol "vector" none, .symbol "a" none, .symbol "b" none, .symbol "=" none, default] none,
    .symbol "b" none] none

def defaultingSpec (default : SExpr) : FunctionSpec where
  name := some "f"
  params :=
    ⟨[⟨.identifier "a" none, none, none⟩, ⟨.identifier "b" none, some default, none⟩], false⟩
  body := [.symbol "b" none]
  isDeclared := true
  position := none

/-- The state after the declaration with a call as the default. -/
def plainDefaultState : Context :=
  endState (Lowering.lower (defaulting plainDefault) (Context.start "" {}))

theorem plainDefault_parts : plainDefault.parts = [] := rfl

theorem read_plainDefault : ∃ t, ParamList.read t = .ok (defaultingSpec plainDefault).params :=
  ⟨.list [.symbol "vector" none, .symbol "a" none, .symbol "b" none, .symbol "=" none, plainDefault] none, rfl⟩

/-- The call has a placeholder for the second argument, and the default is copied. The other parameter is
not in it, and it neither waits nor leaves a function. -/
theorem copied_default_stands_for_placeholder : plainDefaultState.registry.Reached ∧
    ∃ entry params arguments value d, Resolves plainDefaultState "f" entry ∧
      Records (defaultingSpec plainDefault) (Context.start "" {}) params "f" entry ∧
      Lowering.lower (.list [.symbol "f" none, .symbol "s" none, .symbol "_" none] none)
        plainDefaultState = .ok (some ⟨.call (ident "f") arguments false, none⟩) d ∧
      arguments[1]? = some value ∧ "a" ∈ params.flatMap boundNames ∧ value.Lacks "a" ∧
      ¬(Awaits [value] ∨ Yields [value]) ∧ ¬(Scan.uncaught ({} : Options).earlyReturnKey).Finds value := by
  have hc : plainDefaultState.registry.Reached :=
    Registry.Reached.lowered (defaulting plainDefault) (.start "" {})
  have hentry : Resolves plainDefaultState "f" _ :=
    ⟨by decide +kernel, by decide +kernel, by decide +kernel, by decide +kernel, rfl⟩
  have hrecords : Records (defaultingSpec plainDefault) (Context.start "" {}) _ "f" _ :=
    ⟨rfl, ⟨"f", rfl, rfl⟩, read_plainDefault, _, rfl, rfl⟩
  have hrun : Lowering.lower (.list [.symbol "f" none, .symbol "s" none, .symbol "_" none] none)
      plainDefaultState = .ok _ _ := rfl
  obtain ⟨arguments, hgiven, -, hcopied⟩ :=
    copied_default_stands_for hc hentry (by decide +kernel) rfl hrun
  cases hgiven
  obtain ⟨value, hvalue, hstands⟩ := hcopied 1 (by decide) (by decide +kernel)
  obtain ⟨k, param, other, tree, e, e', hparam, hother, hkey, -, hdefault, -, -, hstands⟩ :=
    hstands _ _ _ hrecords
  cases hparam
  -- only the second parameter has the name
  match k, hother with
  | 0, hother =>
    cases hother
    exact absurd hkey (by decide)
  | 1, hother =>
    obtain ⟨_, _, _, _, hsecond, htree, hfront, hkind⟩ := hdefault.before
    cases hsecond
    cases htree
    cases hfront
    cases hkind
    cases hdefault.lowered
    have hvacant : Vacant [plainDefault] (Context.start "" {}) "a" :=
      ⟨avoidIn_of_spelled (by decide +kernel), start_spares (by decide)⟩
    have hempty {P : Node → Prop} : (Context.start "" {}).registry.StoresOnly P := by
      rintro default ⟨_, _, _, hfound, -⟩
      cases hfound
    refine ⟨hc, _, _, _, _, _, hentry, hrecords, rfl, hvalue, by decide, ?_, ?_, ?_⟩
    · -- no fresh name is drawn for the default
      refine hstands.names "a" (not_isOwnName (by decide)) (fun _ _ hmem => ?_) hvacant
      obtain ⟨n, -, hhigh, -⟩ := Context.mem_drawn.mp hmem
      exact Nat.not_lt_zero n hhigh
    · intro hwaits
      have hprompt : plainDefault.Prompt := by
        refine everywhere_iff.mpr ?_
        rw [plainDefault_parts]
        simp
      have hsuspends := hstands.waits hprompt hempty hwaits
      rw [suspends_iff, plainDefault_parts] at hsuspends
      simp at hsuspends
    · intro hfinds
      have horderly : plainDefault.Orderly ({} : Options).earlyReturnKey := by
        refine everywhere_iff.mpr ?_
        rw [plainDefault_parts]
        simp
      have hleaves := hstands.leaves horderly hempty hfinds
      rw [leavesEarly_iff, plainDefault_parts] at hleaves
      simp at hleaves
  | k + 2, hother => cases hother

/-- The default `a` of the parameter `b` is copied into a call outside of the function, where the parameter
`a` is not bound. -/
theorem default_names_parameter : ∃ f d, lowerProgram
        [defaulting (.symbol "a" none), .list [.symbol "f" none, .literal (.string "s") none] none]
        (Context.start "" {}) = .ok ⟨[⟨.functionDeclaration f, none⟩,
        statementOf (call (ident "f") [string "s", ident "a"])]⟩ d ∧
      "a" ∈ f.params.flatMap boundNames :=
  ⟨_, _, rfl, by decide⟩

/-! ## Defaults under keys -/

/-- The default that is remembered for a parameter is the last one under its key that was lowered. So if no
other parameter has a default under the key, and the parameter is not skipped, then a default is remembered
for it exactly if it is written with one, and the default is its own. -/
theorem recorded_defaults {spec : FunctionSpec} {c : Context} {params : List Node} {name : String}
    {entry : FunctionEntry} {index : Nat} {param : Pattern} (h : Records spec c params name entry)
    (hparam : entry.params[index]? = some param) : (∀ value, entry.defaultFor index = some value ↔
      ∃ k tree e e', KeyedDefault entry.params (param.key index) k ∧
        (∀ j > k, ¬KeyedDefault entry.params (param.key index) j) ∧ DefaultRun spec c k tree e value e') ∧
    (param.kind ≠ .skip → (∀ k, KeyedDefault entry.params (param.key index) k → k = index) →
      (entry.defaultFor index).isSome = param.default.isSome ∧
      ∀ value, entry.defaultFor index = some value →
        ∃ tree e e', param.default = some tree ∧ DefaultRun spec c index tree e value e') := by
  obtain ⟨targets, d, htargets, -, rfl⟩ := h.entry_eq
  -- of several defaults under one key the last one is remembered
  have hlast (value : Node) : (spec.entry targets).defaultFor index = some value ↔
      ∃ k tree e e', KeyedDefault spec.params.params (param.key index) k ∧
        (∀ j > k, ¬KeyedDefault spec.params.params (param.key index) j) ∧
        DefaultRun spec c k tree e value e' := by
    have hfind : (spec.entry targets).defaultFor index =
        (defaultsFrom 0 (spec.params.params.zip targets) []).find? (param.key index) := by
      rw [FunctionEntry.defaultFor, hparam]
      rfl
    rw [hfind, find?_defaultsFrom]
    constructor
    · rintro (⟨k, hdefault, hlast⟩ | ⟨hnone, -⟩)
      · obtain ⟨hkeyed, ⟨tree, e, e', hrun⟩, -⟩ := defaultRun_of_defaultAt htargets hdefault
        refine ⟨k, tree, e, e', hkeyed, fun j hj hlater => ?_, hrun⟩
        obtain ⟨later, hlater⟩ := exists_defaultAt htargets hlater
        exact hlast j hj later hlater
      · cases hnone
    · rintro ⟨k, tree, e, e', hkeyed, hlast, hrun⟩
      obtain ⟨held, hheld⟩ := exists_defaultAt htargets hkeyed
      obtain ⟨-, ⟨_, _, _, hrun'⟩, -⟩ := defaultRun_of_defaultAt htargets hheld
      cases hrun.unique hrun'
      exact .inl ⟨k, hheld, fun j hj v hv => hlast j hj (defaultRun_of_defaultAt htargets hv).1⟩
  refine ⟨hlast, fun hskip hown => ?_⟩
  have hrun {value : Node} (hvalue : (spec.entry targets).defaultFor index = some value) :
      ∃ tree e e', param.default = some tree ∧ DefaultRun spec c index tree e value e' := by
    obtain ⟨k, tree, e, e', hkeyed, -, hrun⟩ := (hlast value).mp hvalue
    cases hown k hkeyed
    obtain ⟨same, -, -, -, hsame, htree, -⟩ := hrun.before
    cases hparam.symm.trans hsame
    exact ⟨tree, e, e', htree, hrun⟩
  refine ⟨Bool.eq_iff_iff.mpr ⟨fun hsome => ?_, fun hsome => ?_⟩, fun value => hrun⟩
  · obtain ⟨value, hvalue⟩ := isSome_iff_exists.mp hsome
    obtain ⟨tree, -, -, htree, -⟩ := hrun hvalue
    rw [htree]
    rfl
  · have hkeyed : KeyedDefault spec.params.params (param.key index) index :=
      ⟨param, hparam, rfl, hsome, hskip⟩
    obtain ⟨held, hheld⟩ := exists_defaultAt htargets hkeyed
    obtain ⟨-, ⟨tree, e, e', hrun⟩, -⟩ := defaultRun_of_defaultAt htargets hheld
    have hvalue := (hlast held).mpr ⟨index, tree, e, e', hkeyed, fun j hj hlater => ?_, hrun⟩
    · rw [hvalue]
      rfl
    · exact absurd (hown j hlater) (Nat.ne_of_gt hj)

/-- The default of the second parameter is remembered for it. -/
theorem recorded_defaults_own : ∃ params entry value tree e e',
      Records (defaultingSpec plainDefault) (Context.start "" {}) params "f" entry ∧
      entry.defaultFor 1 = some value ∧
      DefaultRun (defaultingSpec plainDefault) (Context.start "" {}) 1 tree e value e' := by
  have hrecords : Records (defaultingSpec plainDefault) (Context.start "" {}) _ "f" _ :=
    ⟨rfl, ⟨"f", rfl, rfl⟩, read_plainDefault, _, rfl, rfl⟩
  have hparam : (defaultingSpec plainDefault).params.params[1]? =
    some ⟨.identifier "b" none, some plainDefault, none⟩ := rfl
  obtain ⟨hsome, hown⟩ := (recorded_defaults hrecords hparam).2 (by simp) fun k hk => by
    obtain ⟨other, hother, hkey, -⟩ := hk
    rcases k with _ | _ | k
    · cases hother
      exact absurd hkey (by decide)
    · rfl
    · cases hother
  obtain ⟨value, hvalue⟩ := isSome_iff_exists.mp hsome
  obtain ⟨tree, e, e', -, hrun⟩ := hown value hvalue
  exact ⟨_, _, value, tree, e, e', hrecords, hvalue, hrun⟩

/-- `(fn f (vector #1 (vector x) = "s") x)`: the name of the first parameter is the key of the second. -/
def indexNamedSpec : FunctionSpec where
  name := some "f"
  params :=
    ⟨[⟨.identifier "#1" none, none, none⟩,
      ⟨.array [⟨.identifier "x" none, none, none⟩], some (.literal (.string "s") none), none⟩], false⟩
  body := [.symbol "x" none]
  isDeclared := true
  position := none

/-- The default of the second parameter is remembered for the first, which is written without one. -/
theorem default_under_index_name :
    ∃ params entry, Records indexNamedSpec (Context.start "" {}) params "f" entry ∧
      entry.params[0]?.map Pattern.default = some none ∧ entry.defaultFor 0 = some (string "s") := by
  have hread : ParamList.read (.list [.symbol "vector" none, .symbol "#1" none,
      .list [.symbol "vector" none, .symbol "x" none] none, .symbol "=" none,
      .literal (.string "s") none] none) = .ok indexNamedSpec.params := rfl
  exact ⟨_, _, ⟨rfl, ⟨"f", rfl, rfl⟩, ⟨_, hread⟩, _, rfl, rfl⟩, rfl, rfl⟩

end LispLowering
