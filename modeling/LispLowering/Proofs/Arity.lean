import LispLowering.Proofs.Composition.Traversal
import LispLowering.Proofs.Locality
import LispLowering.Proofs.Session

/-!
# The arity of declared functions
-/

namespace LispLowering

open Lowering Node FunctionSpec Registry

variable {lowered : Option Node} {nodes : List Node}

/-! ## Parameters that take the rest -/

def Node.isRestElement (node : Node) : Bool :=
  match node.kind with
  | .restElement _ => true
  | _ => false

namespace Lowering

variable {lower : Lowerer}

theorem isRestElement_of_lower {transform : SExpr → Lower Node} {pattern : Pattern}
    {target : Option Node} (hpattern : pattern.Undefaulted)
    (h : pattern.lower transform c = .ok target d) (name : String) (p : Option Position) :
    (target.getD ((ident name).place p)).isRestElement = pattern.isRest := by
  obtain ⟨kind, default, q⟩ := pattern
  obtain ⟨node, c', hkind, h⟩ := bind_ok h
  -- with a default the target is a pattern of its own, around the target of the shape
  have hshape {shape : Node} (hnode : node = some shape)
      (hrest : shape.isRestElement = Pattern.isRest ⟨kind, default, q⟩) :
      (target.getD ((ident name).place p)).isRestElement = Pattern.isRest ⟨kind, default, q⟩ := by
    subst hnode
    cases default with
    | none =>
      obtain ⟨rfl, rfl⟩ := pure_ok h
      exact hrest
    | some value =>
      obtain ⟨lowered, -, rfl⟩ := map_ok h
      cases hkind : Pattern.isRest ⟨kind, some value, q⟩ with
      | true => cases hpattern hkind
      | false => rfl
  cases kind with
  | skip =>
    obtain ⟨rfl, rfl⟩ := pure_ok h
    rfl
  | identifier name ascribed =>
    obtain ⟨rfl, rfl⟩ := pure_ok hkind
    exact hshape rfl rfl
  | array elements =>
    obtain ⟨slots, -, rfl⟩ := map_ok hkind
    exact hshape rfl rfl
  | object properties rest =>
    obtain ⟨entries, _, -, hkind⟩ := bind_ok hkind
    obtain ⟨remaining, -, rfl⟩ := map_ok hkind
    exact hshape rfl rfl
  | rest inner =>
    obtain ⟨lowered, _, -, hkind⟩ := bind_ok hkind
    obtain ⟨bound, -, rfl⟩ := map_ok hkind
    exact hshape rfl rfl

theorem lowerParamTargets_rest {index : Nat} {params : List Pattern} {targets : List Node}
    (hparams : ∀ param ∈ params, param.Undefaulted)
    (h : lowerParamTargets lower index params c = .ok targets d) :
    targets.map isRestElement = params.map Pattern.isRest := by
  induction params generalizing index targets c with
  | nil =>
    obtain ⟨rfl, rfl⟩ := pure_ok h
    rfl
  | cons param rest ih =>
    obtain ⟨target, c', htarget, h⟩ := bind_ok h
    obtain ⟨others, hothers, rfl⟩ := map_ok h
    rw [List.forall_mem_cons] at hparams
    rw [List.map_cons, List.map_cons, isRestElement_of_lower hparams.1 htarget, ih hparams.2 hothers]

/-! ## The arguments of a call -/

theorem lower_map {t : SExpr}
    (ht : (t.isForm "hash-map" || t.isForm "empty-map") = true)
    (h : Lowering.lower t c = .ok lowered d) : ∃ entries p, lowered = some ⟨.object entries, p⟩ := by
  have hmeaning : HeadMeaning.ofName "hash-map" = .special .map ∧
      HeadMeaning.ofName "empty-map" = .special .emptyMap := by decide +kernel
  unfold SExpr.isForm SExpr.head? at ht
  split at ht
  · next name q args p =>
    simp only [Bool.or_eq_true, decide_eq_true_eq, Option.some.injEq] at ht
    rcases ht with rfl | rfl
    · obtain ⟨node, hnode, rfl⟩ := lower_special_ok hmeaning.1 h
      obtain ⟨entries, -, rfl⟩ := map_ok hnode
      exact ⟨entries, _, rfl⟩
    · obtain ⟨node, hnode, rfl⟩ := lower_special_ok hmeaning.2 h
      cases args with
      | nil =>
        obtain ⟨rfl, rfl⟩ := pure_ok hnode
        exact ⟨[], _, rfl⟩
      | cons arg rest => cases hnode
  · simp at ht

namespace DeclaredCall

variable {call : DeclaredCall} {args : List SExpr} {c d : Context}

theorem mapArgument_object {node : Node}
    (h : call.mapArgument Lowering.lower args c = .ok node d) : ∃ entries p, node = ⟨.object entries, p⟩ := by
  unfold mapArgument at h
  split at h
  · obtain ⟨rfl, rfl⟩ := pure_ok h
    exact ⟨[], _, rfl⟩
  · next arg =>
    split at h
    · next hform =>
      cases arg with
      | list items p =>
        obtain ⟨⟨lowered, δ⟩, c', hinner, h⟩ := bind_ok h
        have hlowered : ∃ entries q, lowered = some ⟨.object entries, q⟩ := by
          obtain ⟨_, _, htracked, rfl, -⟩ := within_ok hinner
          obtain ⟨_, _, hrun, heq, -⟩ := within_ok htracked
          cases heq
          exact lower_map hform hrun
        obtain ⟨entries, q, rfl⟩ := hlowered
        obtain ⟨rfl, rfl⟩ := pure_ok h
        exact ⟨entries, q, rfl⟩
      | symbol | literal => cases hform
    · cases h
  · cases h

theorem positionalArguments_length {index : Nat} {params : List Pattern}
    (h : call.positionalArguments lower index params args c = .ok nodes d) :
    nodes.length = max params.length args.length := by
  induction params generalizing index args nodes c with
  | nil => simpa using each_length h
  | cons param params ih =>
    obtain ⟨first, c', -, h⟩ := bind_ok h
    obtain ⟨others, hothers, rfl⟩ := map_ok h
    have hlength := ih hothers
    rw [List.length_tail] at hlength
    simp only [List.length_cons]
    omega

theorem checkCount_length (h : call.checkCount args c = .ok () d) (hrest : call.entry.hasRest = false) :
    args.length ≤ call.entry.positional.length := by
  cases hdrop : args.drop call.entry.positional.length with
  | nil => exact List.drop_eq_nil_iff.mp hdrop
  | cons extra rest =>
    unfold checkCount at h
    simp only [hdrop, hrest] at h
    cases h

theorem arguments_arity (hspread : args.any isSpread = false)
    (h : call.arguments Lowering.lower args c = .ok nodes d) :
    if call.entry.structured then ∃ entries p, nodes = [⟨.object entries, p⟩]
    else if call.entry.hasRest then call.entry.params.length - 1 ≤ nodes.length
    else nodes.length = call.entry.params.length := by
  unfold arguments at h
  rw [hspread] at h
  simp only [Bool.false_eq_true, if_false] at h
  split at h
  · next hstruct =>
    obtain ⟨node, hnode, rfl⟩ := map_ok h
    obtain ⟨entries, p, rfl⟩ := mapArgument_object hnode
    rw [if_pos hstruct]
    exact ⟨entries, p, rfl⟩
  · next hstruct =>
    obtain ⟨_, c₁, -, h⟩ := bind_ok h
    obtain ⟨_, c₂, hcount, h⟩ := bind_ok h
    have hlength := positionalArguments_length h
    rw [if_neg hstruct]
    split
    · next hrest =>
      simp only [FunctionEntry.positional, hrest, if_true, List.length_dropLast] at hlength
      omega
    · next hrest =>
      have hmost := checkCount_length hcount (by simpa using hrest)
      simp only [FunctionEntry.positional, hrest, Bool.false_eq_true, if_false] at hlength hmost
      omega

end DeclaredCall

end Lowering

/-! ## What is recorded -/

def takesRest (params : List Node) : Bool := params.getLast?.any isRestElement

/-- The declaration `spec`, lowered in the state `c`, has the parameters `params` in the target and
leaves `entry` under `name`. -/
structure Records (spec : FunctionSpec) (c : Context) (params : List Node) (name : String)
    (entry : FunctionEntry) : Prop where
  isDeclared : spec.isDeclared = true
  named : ∃ symbol, spec.name = some symbol ∧ name = Symbol.identifier symbol
  read : ∃ t, ParamList.read t = .ok spec.params
  lowered : ∃ d, spec.lowerParams Lowering.lower c = .ok params d ∧ d.registry.get? name = some entry

/-- The registries that runs go through: between requests, between the forms of a program, and between
the parameters of a function and its body. The surroundings of a form do not matter. -/
inductive Registry.Reached : Registry → Prop where
  | start (directory : String) (options : Options) : Reached (Context.start directory options).registry
  | lowered (t : SExpr) {c : Context} : Reached c.registry →
      Reached (endState (Lowering.lower t c)).registry
  | program (forms : List SExpr) {c : Context} : Reached c.registry →
      Reached (endState (lowerProgram forms c)).registry
  | declared {spec : FunctionSpec} {c : Context} :
      (spec.isDeclared = true → ∃ t, ParamList.read t = .ok spec.params) → Reached c.registry →
      Reached (endState (spec.lowerParams Lowering.lower c)).registry

def Registry.Recorded (r : Registry) : Prop :=
  ∀ name entry, r.get? name = some entry →
    ∃ spec c params, c.registry.Reached ∧ Records spec c params name entry

variable {spec : FunctionSpec} {c : Context} {params : List Node} {name : String}
  {entry : FunctionEntry}

theorem Records.entry_eq (h : Records spec c params name entry) : ∃ targets d,
    lowerParamTargets Lowering.lower 0 spec.params.params c = .ok targets d ∧
      shapeParams spec.params spec.position targets = pure params ∧ entry = spec.entry targets := by
  obtain ⟨symbol, hname, rfl⟩ := h.named
  obtain ⟨d, hrun, hentry⟩ := h.lowered
  obtain ⟨targets, c₁, htargets, hrun⟩ := bind_ok hrun
  obtain ⟨shaped, c₂, hshape, hrun⟩ := bind_ok hrun
  obtain ⟨_, hremember, rfl⟩ := map_ok hrun
  refine ⟨targets, c₁, htargets, ?_, ?_⟩
  · rcases shapeParams_cases spec.params spec.position targets with ⟨params', h'⟩ | ⟨q, h'⟩
    · rw [h'] at hshape
      obtain ⟨rfl, -⟩ := pure_ok hshape
      exact h'
    · rw [h'] at hshape
      cases hshape
  · simp only [remember, hname, h.isDeclared, if_true, declareFunction] at hremember
    split at hremember
    · next registry hdeclare =>
      cases hremember
      rw [get?_of_declare hdeclare, if_pos rfl] at hentry
      exact (Option.some.inj hentry).symm
    · cases hremember

theorem Records.arity (h : Records spec c params name entry) : entry.structured = spec.params.structured ∧
      if spec.params.structured then params.length = 1
      else params.length = entry.params.length ∧ takesRest params = entry.hasRest := by
  obtain ⟨targets, d, htargets, hshape, rfl⟩ := h.entry_eq
  obtain ⟨t, hread⟩ := h.read
  refine ⟨rfl, ?_⟩
  have hshape : shapeParams spec.params spec.position targets c = .ok params c := by rw [hshape]; rfl
  unfold shapeParams at hshape
  split at hshape
  · next hstruct =>
    obtain ⟨entries, -, rfl⟩ := map_ok hshape
    rw [if_pos hstruct, List.length_singleton]
  · next hstruct =>
    obtain ⟨rfl, -⟩ := pure_ok hshape
    rw [if_neg hstruct]
    have hrest := lowerParamTargets_rest (ParamList.read_ok hread).undefaulted htargets
    constructor
    · simpa [entry] using congrArg List.length hrest
    · -- both sides are the last of the same list of flags
      have hlast := congrArg List.getLast? hrest
      rw [List.getLast?_map, List.getLast?_map] at hlast
      show (params.getLast?).any isRestElement = _
      unfold FunctionEntry.hasRest
      dsimp only [entry]
      cases hleft : params.getLast? <;> cases hright : spec.params.params.getLast? <;>
        simp_all

def RegistryView.recording : RegistryView :=
  { RegistryView.full with
    grows := fun r s => r.Reached ∧ r.Recorded → s.Reached ∧ s.Recorded
    grows_refl := fun _ h => h
    grows_trans := fun hrs hst h => hst (hrs h) }

theorem Declares.recording : Declares RegistryView.recording (fun _ => True) Lowering.lower := by
  intro spec c d targets name registry _ hdeclaring hrun hgrows hdeclare ⟨hreached, hrecorded⟩
  obtain ⟨params, hshape⟩ := hdeclaring.shaped
  obtain ⟨symbol, hname, rfl⟩ := hdeclaring.named
  have hlowered : spec.lowerParams Lowering.lower c = .ok params { d with
      registry, declarations := d.declarations ++ [(Symbol.identifier symbol, spec.entry targets)] } := by
    unfold lowerParams remember
    simp [bind, EStateM.bind, hrun, hshape, pure, EStateM.pure, hname, hdeclaring.isDeclared,
      declareFunction, hdeclare]
  constructor
  · have hend : (endState (spec.lowerParams Lowering.lower c)).registry.Reached :=
      .declared (fun _ => hdeclaring.read) hreached
    rw [hlowered] at hend
    exact hend
  · intro key found hfound
    rw [get?_of_declare hdeclare] at hfound
    split at hfound
    · next hkey =>
      subst hkey
      refine ⟨spec, c, params, hreached, hdeclaring.isDeclared, hdeclaring.named, hdeclaring.read,
        _, hlowered, ?_⟩
      rw [get?_of_declare hdeclare, if_pos rfl, hfound]
    · exact (hgrows ⟨hreached, hrecorded⟩).2 key found hfound

theorem Shown.recording : Shown RegistryView.recording fun _ => True := { Shown.full with }

def Comparison.recording : Comparison := lower_notes.compare Lowering.lower .recording .recording

theorem Comparison.recording_agrees : Comparison.recording.Agrees :=
  fun _ _ => lower_agree .recording .recording trivial

theorem Registry.Reached.recorded {r : Registry} (h : r.Reached) : r.Recorded := by
  induction h with
  | start directory options =>
    intro name entry hentry
    cases hentry
  | lowered t hc ih =>
    have hagree := Comparison.recording_agrees t trivial
    exact (hagree.grows rfl ⟨hc, ih⟩).2
  | program forms hc ih =>
    have hagree : Agree RegistryView.recording (lowerProgram forms) (lowerProgram forms) :=
      lowerProgram_agree .recording .recording fun _ _ => trivial
    exact (hagree.grows rfl ⟨hc, ih⟩).2
  | declared hread hc ih =>
    have hagree := (lowerParams_follows (P := .recording) (fun _ _ => trivial) (fun _ _ => trivial) hread).agree
      Comparison.recording_agrees
    exact (hagree.grows rfl ⟨hc, ih⟩).2

/-! ## Declarations and calls -/

theorem Records.function_params (h : Records spec c params name entry) {f : Function}
    (hbuild : buildFunction Lowering.lower spec c = .ok f d) : f.params = params := by
  obtain ⟨d', hparams, -⟩ := h.lowered
  rw [buildFunction_eq] at hbuild
  obtain ⟨params', c', hparams', hbuild⟩ := bind_ok hbuild
  rw [hparams] at hparams'
  cases hparams'
  obtain ⟨⟨body, leftEarly⟩, c₂, -, hbuild⟩ := bind_ok hbuild
  cases hbuild
  rfl

/-- In the state `c`, a call with the head `name` is completed from `entry`. -/
structure Resolves (c : Context) (name : String) (entry : FunctionEntry) : Prop where
  called : HeadMeaning.ofName name = .called
  notMethod : methodName? name = none
  notChain : Symbol.isChain name = false
  notLocal : ∀ scope ∈ c.scopes, Symbol.identifier name ∉ scope
  found : c.registry.get? (Symbol.identifier name) = some entry

theorem Resolves.declaredFunction? (h : Resolves c name entry) :
    declaredFunction? name c = .ok (some entry) c := by
  have hlocal : (c.scopes.any fun scope => scope.contains (Symbol.identifier name)) = false := by
    simpa using h.notLocal
  unfold Lowering.declaredFunction?
  simp only [h.notChain, Bool.false_eq_true, if_false, Lower.isLocal, bind, EStateM.bind, get, getThe,
    MonadStateOf.get, EStateM.get, pure, EStateM.pure, hlocal, h.found]

theorem Resolves.lower_call (h : Resolves c name entry) {q p : Option Position}
    (hrun : Lowering.lower (.list (.symbol name q :: args) p) c = .ok lowered d) :
    ∃ node arguments c', DeclaredCall.arguments ⟨Symbol.identifier name, entry, node⟩ Lowering.lower
        args c = .ok arguments c' ∧
      lowered = some ⟨.call ((ident (Symbol.identifier name)).place q) arguments false, p⟩ := by
  rw [lower_list] at hrun
  have hrun := inForm_ok hrun
  unfold lowerNamed at hrun
  rw [h.called] at hrun
  obtain ⟨node, hcall, rfl⟩ := map_ok hrun
  unfold lowerNamedCall at hcall
  rw [h.notMethod] at hcall
  obtain ⟨found, c₂, hfound, hcall⟩ := bind_ok hcall
  rw [h.declaredFunction?] at hfound
  cases hfound
  obtain ⟨arguments, hgiven, rfl⟩ := map_ok hcall
  refine ⟨_, arguments, _, hgiven, ?_⟩
  cases p <;> rfl

/-- Declarations and calls agree on the number of arguments. In a state that some run reaches, take a
call without spread arguments that is completed from an entry. The entry was recorded by a declaration
of a run; and whichever declaration recorded it, the emitted function has the lowered parameters, and
the arguments of the call fit them. -/
theorem resolved_call_arity {c d : Context} {name : String} {entry : FunctionEntry}
    {q p : Option Position} {args : List SExpr} {lowered : Option Node} (hc : c.registry.Reached)
    (hentry : Resolves c name entry) (hspread : args.any isSpread = false)
    (hrun : Lowering.lower (.list (.symbol name q :: args) p) c = .ok lowered d) : ∃ arguments,
      lowered = some ⟨.call ((ident (Symbol.identifier name)).place q) arguments false, p⟩ ∧
      (∃ spec c₀ params, c₀.registry.Reached ∧ Records spec c₀ params (Symbol.identifier name) entry) ∧
      ∀ spec c₀ params, Records spec c₀ params (Symbol.identifier name) entry →
        (∀ f d₀, buildFunction Lowering.lower spec c₀ = .ok f d₀ → f.params = params) ∧
        if spec.params.structured then params.length = 1 ∧ ∃ entries r, arguments = [⟨.object entries, r⟩]
        else if takesRest params then params.length - 1 ≤ arguments.length
        else arguments.length = params.length := by
  obtain ⟨node, arguments, c', hgiven, rfl⟩ := hentry.lower_call hrun
  refine ⟨arguments, rfl, hc.recorded _ entry hentry.found, fun spec _ _ hrecords => ?_⟩
  refine ⟨fun f _ hbuild => hrecords.function_params hbuild, ?_⟩
  have hcall := DeclaredCall.arguments_arity hspread hgiven
  obtain ⟨hstruct, harity⟩ := hrecords.arity
  dsimp only at hcall
  rw [hstruct] at hcall
  by_cases hmap : spec.params.structured = true
  · rw [if_pos hmap] at hcall harity ⊢
    exact ⟨harity, hcall⟩
  · rw [if_neg hmap] at hcall harity ⊢
    rw [harity.1, harity.2]
    exact hcall

/-- The declaration of a function whose second parameter takes the rest. -/
def restDeclaration : SExpr :=
  .list [.symbol "fn" none, .symbol "f" none,
    .list [.symbol "x" none, .symbol "&" none, .symbol "others" none] none, .symbol "x" none] none

def restSpec : FunctionSpec where
  name := some "f"
  params :=
    ⟨[⟨.identifier "x" none, none, none⟩, ⟨.rest ⟨.identifier "others" none, none, none⟩, none, none⟩],
      false⟩
  body := [.symbol "x" none]
  isDeclared := true
  position := none

/-- A call of the function passes at least one argument. -/
theorem resolved_call_arity_rest :
    (endState (Lowering.lower restDeclaration (Context.start "" {}))).registry.Reached ∧
    ∃ entry params arguments d,
      Resolves (endState (Lowering.lower restDeclaration (Context.start "" {}))) "f" entry ∧
      Records restSpec (Context.start "" {}) params "f" entry ∧ takesRest params = true ∧
      Lowering.lower (.list [.symbol "f" none, .symbol "a" none, .symbol "b" none] none)
        (endState (Lowering.lower restDeclaration (Context.start "" {}))) =
          .ok (some ⟨.call ((ident "f").place none) arguments false, none⟩) d ∧
      params.length - 1 ≤ arguments.length := by
  have hc := Reached.lowered restDeclaration (.start "" {})
  have hentry : Resolves (endState (Lowering.lower restDeclaration (Context.start "" {}))) "f" _ :=
    ⟨by decide +kernel, by decide +kernel, by decide +kernel, by decide +kernel, rfl⟩
  have hrecords : Records restSpec (Context.start "" {}) _ "f" _ :=
    ⟨rfl, ⟨"f", rfl, rfl⟩, ⟨.list [.symbol "x" none, .symbol "&" none, .symbol "others" none] none, rfl⟩,
      _, rfl, rfl⟩
  have hrun : Lowering.lower (.list [.symbol "f" none, .symbol "a" none, .symbol "b" none] none)
      (endState (Lowering.lower restDeclaration (Context.start "" {}))) = .ok _ _ := rfl
  obtain ⟨arguments, hgiven, -, harity⟩ :=
    resolved_call_arity hc hentry (by decide +kernel) hrun
  cases hgiven
  exact ⟨hc, _, _, _, _, hentry, hrecords, rfl, rfl, (harity _ _ _ hrecords).2⟩

end LispLowering
