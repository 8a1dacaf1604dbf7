import LispLowering.Proofs.Arity

/-!
# How a declared call is resolved
-/

namespace LispLowering

open Lowering List Node Nat DeclaredCall

namespace Lowering.DeclaredCall

variable {call : DeclaredCall} {lower : Lowerer} {args : List SExpr} {index : Nat} {c d : Context}
  {nodes : List Node} {e : Diagnostic}

/-! ## One argument -/

/-- The argument at `index` is a placeholder that must not stand there: its parameter has no default, or
it would be one of the rest. -/
inductive Refuses (call : DeclaredCall) (args : List SExpr) (index : Nat) : Diagnostic → Prop where
  | undefaulted {arg : SExpr} {param : Pattern} (harg : args[index]? = some arg)
      (hplaceholder : isPlaceholder arg = true) (hparam : call.entry.positional[index]? = some param)
      (hdefault : call.entry.defaultFor index = none) :
      Refuses call args index ((Fault.placeholder (param.label index) call.name).place
        (arg.position.or call.node.position))
  | surplus {arg : SExpr} (harg : args[index]? = some arg) (hplaceholder : isPlaceholder arg = true)
      (hindex : call.entry.positional.length ≤ index) (hrest : call.entry.hasRest = true) :
      Refuses call args index ((Fault.restPlaceholder call.name).place (arg.position.or call.node.position))

/-- The argument at `index` is passed, and its lowering leads from the state `c` to another one. -/
inductive Passes (call : DeclaredCall) (lower : Lowerer) (args : List SExpr) (index : Nat) (c : Context) :
    Node → Context → Prop where
  | default {value : Node} (hindex : index < call.entry.positional.length)
      (harg : ∀ arg ∈ args[index]?, isPlaceholder arg = true)
      (hdefault : call.entry.defaultFor index = some value) : Passes call lower args index c value c
  | given {arg : SExpr} {node : Node} {d : Context} (harg : args[index]? = some arg)
      (hplaceholder : isPlaceholder arg = false) (hrun : lowerValue lower arg c = .ok node d) :
      Passes call lower args index c node d

/-- The argument at `index` cannot be passed: nothing is given for a parameter without a default, or what
is given cannot be lowered. -/
inductive Fails (call : DeclaredCall) (lower : Lowerer) (args : List SExpr) (index : Nat) (c : Context) :
    Diagnostic → Context → Prop where
  | missing {param : Pattern} (harg : args[index]? = none)
      (hparam : call.entry.positional[index]? = some param)
      (hdefault : call.entry.defaultFor index = none) :
      Fails call lower args index c
        ((Fault.missingArgument (param.label index) call.name).place call.node.position) c
  | given {arg : SExpr} {e : Diagnostic} {d : Context} (harg : args[index]? = some arg)
      (hplaceholder : isPlaceholder arg = false) (hrun : lowerValue lower arg c = .error e d) :
      Fails call lower args index c e d

/-- The arguments from `index` on are passed one after the other. -/
inductive PassesAll (call : DeclaredCall) (lower : Lowerer) (args : List SExpr) :
    Nat → Context → List Node → Context → Prop where
  | nil {index : Nat} {c : Context} : PassesAll call lower args index c [] c
  | cons {index : Nat} {c c' d : Context} {node : Node} {nodes : List Node} :
      Passes call lower args index c node c' → PassesAll call lower args (index + 1) c' nodes d →
      PassesAll call lower args index c (node :: nodes) d

/-! ## The checks -/

theorem drop_of_getElem? {α : Type} {items : List α} {item : α} (h : items[index]? = some item) :
    items.drop index = item :: items.drop (index + 1) := by
  obtain ⟨hindex, rfl⟩ := List.getElem?_eq_some_iff.mp h
  exact drop_eq_getElem_cons hindex

theorem checkPlaceholders_refused (h : call.Refuses args index e) :
    call.checkPlaceholders index (args.drop index) c = .error e c := by
  cases h with
  | undefaulted harg hplaceholder hparam hdefault =>
    rw [drop_of_getElem? harg]
    simp only [checkPlaceholders, hplaceholder, if_true, hparam, hdefault, Option.isNone_none]
    rfl
  | surplus harg hplaceholder hindex hrest =>
    rw [drop_of_getElem? harg]
    simp only [checkPlaceholders, hplaceholder, if_true, getElem?_eq_none hindex, hrest]
    rfl

theorem checkPlaceholders_next {arg : SExpr} (harg : args[index]? = some arg)
    (h : ∀ e, ¬call.Refuses args index e) : call.checkPlaceholders index (args.drop index) =
      call.checkPlaceholders (index + 1) (args.drop (index + 1)) := by
  rw [drop_of_getElem? harg, checkPlaceholders]
  cases hplaceholder : isPlaceholder arg with
  | false => rfl
  | true =>
    cases hparam : call.entry.positional[index]? with
    | some param =>
      cases hdefault : call.entry.defaultFor index with
      | some value => rfl
      | none => exact absurd (.undefaulted harg hplaceholder hparam hdefault) (h _)
    | none =>
      cases hrest : call.entry.hasRest with
      | false => rfl
      | true =>
        exact absurd (.surplus harg hplaceholder (getElem?_eq_none_iff.mp hparam) hrest) (h _)

theorem checkPlaceholders_ok (h : ∀ i e, ¬call.Refuses args i e) :
    call.checkPlaceholders index (args.drop index) c = .ok () c := by
  induction hn : args.length - index generalizing index with
  | zero =>
    rw [drop_eq_nil_of_le (by omega)]
    rfl
  | succ n ih =>
    have hindex : index < args.length := by omega
    rw [checkPlaceholders_next (getElem?_eq_getElem hindex) (h index)]
    exact ih (by omega)

theorem checkPlaceholders_error {i : Nat} (h : call.Refuses args (index + i) e)
    (hfirst : ∀ j < i, ∀ e, ¬call.Refuses args (index + j) e) :
    call.checkPlaceholders index (args.drop index) c = .error e c := by
  induction i generalizing index with
  | zero => exact checkPlaceholders_refused h
  | succ i ih =>
    have hlength : index + (i + 1) < args.length := by
      cases h with
      | undefaulted harg => exact (List.getElem?_eq_some_iff.mp harg).1
      | surplus harg => exact (List.getElem?_eq_some_iff.mp harg).1
    have hindex : index < args.length := by omega
    rw [checkPlaceholders_next (getElem?_eq_getElem hindex) (hfirst 0 (succ_pos i))]
    refine ih (by rwa [add_right_comm] ) fun j hj e => ?_
    have hlater := hfirst (j + 1) (succ_lt_succ hj) e
    rwa [add_right_comm]

theorem checkCount_ok (h : call.entry.hasRest = true ∨ args.length ≤ call.entry.positional.length) :
    call.checkCount args c = .ok () c := by
  unfold checkCount
  rcases h with hrest | hlength
  · rw [hrest]
    cases args.drop call.entry.positional.length <;> rfl
  · rw [drop_eq_nil_of_le hlength]
    rfl

theorem checkCount_error {extra : SExpr} (hrest : call.entry.hasRest = false)
    (hextra : args[call.entry.positional.length]? = some extra) :
    call.checkCount args c = .error ((Fault.tooManyArguments call.name call.entry.positional.length
      args.length ((args.drop call.entry.positional.length).map SExpr.text)).place
        (extra.position.or call.node.position)) c := by
  unfold checkCount
  rw [drop_of_getElem? hextra, hrest]
  rfl

/-! ## The arguments -/

theorem argumentFor_cases {param : Pattern} (lower : Lowerer)
    (hparam : call.entry.positional[index]? = some param) (hplain : ∀ e, ¬call.Refuses args index e) :
    (∃ value, (∀ arg ∈ args[index]?, isPlaceholder arg = true) ∧ call.entry.defaultFor index = some value ∧
      call.argumentFor lower param index args[index]? = pure value) ∨
    (args[index]? = none ∧ call.entry.defaultFor index = none ∧
      call.argumentFor lower param index args[index]? = Lower.refuse
        ((Fault.missingArgument (param.label index) call.name).place call.node.position)) ∨
    ∃ arg, args[index]? = some arg ∧ isPlaceholder arg = false ∧
      call.argumentFor lower param index args[index]? = lowerValue lower arg := by
  cases harg : args[index]? with
  | none =>
    cases hdefault : call.entry.defaultFor index with
    | none => exact .inr (.inl ⟨rfl, rfl, by simp only [argumentFor, hdefault]⟩)
    | some value => exact .inl ⟨value, by simp, rfl, by simp only [argumentFor, hdefault]⟩
  | some arg =>
    cases hplaceholder : isPlaceholder arg with
    | false =>
      exact .inr (.inr ⟨arg, rfl, hplaceholder, by simp [argumentFor, hplaceholder]⟩)
    | true =>
      cases hdefault : call.entry.defaultFor index with
      | none => exact absurd (.undefaulted harg hplaceholder hparam hdefault) (hplain _)
      | some value =>
        exact .inl ⟨value, by simpa using hplaceholder, rfl, by
          simp only [argumentFor, hplaceholder, if_true, hdefault]⟩

theorem lowerValue_given {arg : SExpr} (harg : args[index]? = some arg)
    (hplaceholder : isPlaceholder arg = false) :
    (∀ c node d, lowerValue lower arg c = .ok node d ↔ call.Passes lower args index c node d) ∧
      ∀ c e d, lowerValue lower arg c = .error e d ↔ call.Fails lower args index c e d := by
  refine ⟨fun c _ d => ⟨.given harg hplaceholder, fun h => ?_⟩,
    fun c e d => ⟨.given harg hplaceholder, fun h => ?_⟩⟩
  · cases h with
    | default _ hnone => simp [hnone arg harg] at hplaceholder
    | given harg' _ hrun =>
      cases harg.symm.trans harg'
      exact hrun
  · cases h with
    | missing harg' => cases harg.symm.trans harg'
    | given harg' _ hrun =>
      cases harg.symm.trans harg'
      exact hrun

theorem argumentFor_iff {param : Pattern} (hparam : call.entry.positional[index]? = some param)
    (hplain : ∀ e, ¬call.Refuses args index e) :
    (∀ c node d, call.argumentFor lower param index args[index]? c = .ok node d ↔
      call.Passes lower args index c node d) ∧
    ∀ c e d, call.argumentFor lower param index args[index]? c = .error e d ↔
      call.Fails lower args index c e d := by
  have hindex := (List.getElem?_eq_some_iff.mp hparam).1
  rcases argumentFor_cases lower hparam hplain with
    ⟨value, harg, hdefault, heq⟩ | ⟨harg, hdefault, heq⟩ | ⟨arg, harg, hplaceholder, heq⟩
  · rw [heq]
    refine ⟨fun c _ d => ⟨fun h => ?_, fun h => ?_⟩, fun c e d => ⟨fun h => ?_, fun h => ?_⟩⟩
    · obtain ⟨rfl, rfl⟩ := pure_ok h
      exact .default hindex harg hdefault
    · cases h with
      | default _ _ hdefault' =>
        cases hdefault.symm.trans hdefault'
        rfl
      | given harg' hplaceholder => simp [harg _ harg'] at hplaceholder
    · cases h
    · cases h with
      | missing _ _ hdefault' => cases hdefault.symm.trans hdefault'
      | given harg' hplaceholder => simp [harg _ harg'] at hplaceholder
  · rw [heq]
    refine ⟨fun c _ d => ⟨fun h => ?_, fun h => ?_⟩, fun c e d => ⟨fun h => ?_, fun h => ?_⟩⟩
    · cases h
    · cases h with
      | default _ _ hdefault' => cases hdefault.symm.trans hdefault'
      | given harg' => cases harg.symm.trans harg'
    · cases h
      exact .missing harg hparam hdefault
    · cases h with
      | missing _ hparam' =>
        cases hparam.symm.trans hparam'
        rfl
      | given harg' => cases harg.symm.trans harg'
  · rw [heq]
    exact lowerValue_given harg hplaceholder

theorem positionalArguments_step (lower : Lowerer) (hplain : ∀ e, ¬call.Refuses args index e)
    (hrest : call.entry.hasRest = true ∨ args.length ≤ call.entry.positional.length)
    (hindex : index < max call.entry.positional.length args.length) :
    ∃ step : Lower Node,
      call.positionalArguments lower index (call.entry.positional.drop index) (args.drop index) = (do
        let node ← step
        let nodes ← call.positionalArguments lower (index + 1) (call.entry.positional.drop (index + 1))
          (args.drop (index + 1))
        return node :: nodes) ∧
      (∀ c node d, step c = .ok node d ↔ call.Passes lower args index c node d) ∧
      ∀ c e d, step c = .error e d ↔ call.Fails lower args index c e d := by
  cases hparam : call.entry.positional[index]? with
  | some param =>
    refine ⟨call.argumentFor lower param index args[index]?, ?_, argumentFor_iff hparam hplain⟩
    rw [drop_of_getElem? hparam, positionalArguments, head?_drop, tail_drop]
  | none =>
    have hmost : call.entry.positional.length ≤ index := getElem?_eq_none_iff.mp hparam
    have hlength : index < args.length := by omega
    have harg := getElem?_eq_getElem hlength
    have hplaceholder : isPlaceholder args[index] = false := by
      refine Bool.eq_false_iff.mpr fun hplaceholder => hplain _ (.surplus harg hplaceholder hmost ?_)
      exact hrest.resolve_right (by omega)
    refine ⟨lowerValue lower args[index], ?_, lowerValue_given harg hplaceholder⟩
    rw [drop_of_getElem? harg, drop_eq_nil_of_le hmost, drop_eq_nil_of_le (le_succ_of_le hmost)]
    rfl

section

variable {n : Nat} (hplain : ∀ i e, ¬call.Refuses args i e)
  (hrest : call.entry.hasRest = true ∨ args.length ≤ call.entry.positional.length)
include hplain hrest

theorem positionalArguments_ok_iff (hn : index + n = max call.entry.positional.length args.length) :
    call.positionalArguments lower index (call.entry.positional.drop index) (args.drop index) c =
        .ok nodes d ↔ nodes.length = n ∧ call.PassesAll lower args index c nodes d := by
  -- on how many positions are left
  induction n generalizing index c nodes with
  | zero =>
    rw [drop_eq_nil_of_le (by omega), drop_eq_nil_of_le (by omega)]
    constructor
    · intro h
      obtain ⟨rfl, rfl⟩ := pure_ok h
      exact ⟨rfl, .nil⟩
    · rintro ⟨hlength, h⟩
      cases length_eq_zero_iff.mp hlength
      cases h
      rfl
  | succ n ih =>
    obtain ⟨step, hstep, hok, -⟩ := positionalArguments_step lower (hplain index) hrest (by omega)
    rw [hstep]
    constructor
    · intro h
      obtain ⟨node, c', hnode, h⟩ := bind_ok h
      obtain ⟨others, hothers, rfl⟩ := map_ok h
      obtain ⟨hlength, hothers⟩ := (ih (by omega)).mp hothers
      exact ⟨by simp [hlength], .cons ((hok _ _ _).mp hnode) hothers⟩
    · rintro ⟨hlength, h⟩
      cases h with
      | nil => cases hlength
      | cons hnode hothers =>
        have hothers := (ih (by omega)).mpr ⟨Nat.succ.inj hlength, hothers⟩
        exact bind_ok_iff.mpr ⟨_, _, (hok _ _ _).mpr hnode, bind_ok_iff.mpr ⟨_, _, hothers, rfl⟩⟩

theorem positionalArguments_error_iff (hn : index + n = max call.entry.positional.length args.length) :
    call.positionalArguments lower index (call.entry.positional.drop index) (args.drop index) c =
        .error e d ↔ ∃ nodes c', nodes.length < n ∧ call.PassesAll lower args index c nodes c' ∧
        call.Fails lower args (index + nodes.length) c' e d := by
  induction n generalizing index c with
  | zero =>
    rw [drop_eq_nil_of_le (by omega), drop_eq_nil_of_le (by omega)]
    constructor
    · intro h
      cases h
    · rintro ⟨nodes, c', hlength, -⟩
      exact absurd hlength (not_lt_zero _)
  | succ n ih =>
    obtain ⟨step, hstep, hok, herror⟩ :=
      positionalArguments_step lower (hplain index) hrest (by omega)
    rw [hstep, bind_error_iff]
    constructor
    · rintro (h | ⟨node, c', hnode, h⟩)
      · exact ⟨[], c, succ_pos n, .nil, (herror _ _ _).mp h⟩
      · rcases bind_error_iff.mp h with hothers | ⟨_, _, _, h⟩
        · obtain ⟨nodes, c'', hlength, hpasses, hfails⟩ := (ih (by omega)).mp hothers
          refine ⟨node :: nodes, c'', succ_lt_succ hlength, .cons ((hok _ _ _).mp hnode) hpasses, ?_⟩
          rwa [length_cons, ← add_assoc, add_right_comm]
        · cases h
    · rintro ⟨nodes, c', hlength, hpasses, hfails⟩
      cases hpasses with
      | nil => exact .inl ((herror _ _ _).mpr hfails)
      | cons hnode hpasses =>
        rw [length_cons, ← add_assoc, add_right_comm] at hfails
        have hothers := (ih (by omega)).mpr ⟨_, c', lt_of_succ_lt_succ hlength, hpasses, hfails⟩
        exact .inr ⟨_, _, (hok _ _ _).mpr hnode, bind_error_iff.mpr (.inl hothers)⟩

end

/-! ## The call -/

theorem arguments_eq (lower : Lowerer) (hspread : args.any isSpread = false)
    (hplain : call.entry.structured = false) :
    call.arguments lower args = (do
      call.checkPlaceholders 0 args
      call.checkCount args
      call.positionalArguments lower 0 call.entry.positional args) := by
  simp only [arguments, hspread, hplain, Bool.false_eq_true, if_false]

theorem Refuses.exists_first (h : call.Refuses args index e) :
    ∃ i e, call.Refuses args i e ∧ ∀ j < i, ∀ e, ¬call.Refuses args j e := by
  classical
  have hsome : ∃ i e, call.Refuses args i e := ⟨index, e, h⟩
  obtain ⟨e', he'⟩ := Nat.find_spec hsome
  exact ⟨Nat.find hsome, e', he', fun j hj e hrefuses => Nat.find_min hsome hj ⟨e, hrefuses⟩⟩

theorem arguments_checked (lower : Lowerer) (c : Context) (hspread : args.any isSpread = false)
    (hstructured : call.entry.structured = false) (hplain : ∀ i e, ¬call.Refuses args i e)
    (hrest : call.entry.hasRest = true ∨ args.length ≤ call.entry.positional.length) :
    call.arguments lower args c =
      call.positionalArguments lower 0 (call.entry.positional.drop 0) (args.drop 0) c := by
  have hholes : call.checkPlaceholders 0 args c = .ok () c := checkPlaceholders_ok hplain
  rw [arguments_eq lower hspread hstructured]
  simp [bind, EStateM.bind, hholes, checkCount_ok hrest]

theorem arguments_passes (h : call.arguments lower args c = .ok nodes d)
    (hspread : args.any isSpread = false) (hstructured : call.entry.structured = false) :
    (∀ i e, ¬call.Refuses args i e) ∧
      (call.entry.hasRest = true ∨ args.length ≤ call.entry.positional.length) ∧
      nodes.length = max call.entry.positional.length args.length ∧
      call.PassesAll lower args 0 c nodes d := by
  have hrun := h
  rw [arguments_eq lower hspread hstructured] at hrun
  obtain ⟨_, c₁, hholes, hrun⟩ := bind_ok hrun
  obtain ⟨_, c₂, hcount, hrun⟩ := bind_ok hrun
  have hplain : ∀ i e, ¬call.Refuses args i e := by
    intro i e hrefuses
    obtain ⟨first, e', hrefuses, hfirst⟩ := hrefuses.exists_first
    rw [← zero_add first] at hrefuses
    have herror := checkPlaceholders_error (c := c) hrefuses (by simpa using hfirst)
    cases hholes.symm.trans herror
  have hrest : call.entry.hasRest = true ∨ args.length ≤ call.entry.positional.length := by
    cases hrest : call.entry.hasRest with
    | true => exact .inl rfl
    | false => exact .inr (checkCount_length hcount hrest)
  rw [arguments_checked lower c hspread hstructured hplain hrest] at h
  exact ⟨hplain, hrest, (positionalArguments_ok_iff hplain hrest (zero_add _)).mp h⟩

theorem PassesAll.getElem? (h : call.PassesAll lower args index c nodes d) {i : Nat} {node : Node}
    (hnode : nodes[i]? = some node) : ∃ c' d', call.Passes lower args (index + i) c' node d' := by
  induction h generalizing i with
  | nil => cases hnode
  | cons hpasses _ ih =>
    cases i with
    | zero =>
      cases hnode
      exact ⟨_, _, hpasses⟩
    | succ i =>
      obtain ⟨c', d', hlater⟩ := ih hnode
      exact ⟨c', d', by rwa [add_right_comm] at hlater⟩

theorem arguments_default (h : call.arguments lower args c = .ok nodes d)
    (hspread : args.any isSpread = false) (hplain : call.entry.structured = false)
    (hindex : index < call.entry.positional.length)
    (harg : ∀ arg ∈ args[index]?, isPlaceholder arg = true) :
    ∃ value, nodes[index]? = some value ∧ call.entry.defaultFor index = some value := by
  obtain ⟨-, -, hlength, hpasses⟩ := arguments_passes h hspread hplain
  have hnode := getElem?_eq_getElem (l := nodes) (i := index) (by omega)
  obtain ⟨c', d', hpasses⟩ := hpasses.getElem? hnode
  rw [zero_add] at hpasses
  cases hpasses with
  | default _ _ hdefault => exact ⟨_, hnode, hdefault⟩
  | given hgiven hplaceholder => simp [harg _ hgiven] at hplaceholder

end Lowering.DeclaredCall

/-- What a call of a declared function comes to, without a spread and without a parameter map, whatever
lowers the arguments.

* The first placeholder that must not stand where it does is refused, before anything is lowered.
* Otherwise, arguments that no parameter takes are refused together, before anything is lowered.
* Otherwise the arguments are passed from left to right, as many as there are parameters or arguments. The
  call fails if and only if, after some of them, one cannot be passed. -/
theorem declared_call_resolution (call : DeclaredCall) (lower : Lowerer) (args : List SExpr) (c : Context)
    (hspread : args.any isSpread = false) (hstructured : call.entry.structured = false) :
    (∀ i e, call.Refuses args i e → (∀ j < i, ∀ e', ¬call.Refuses args j e') →
      call.arguments lower args c = .error e c ∧ e.code = Code.placeholderWithoutDefault) ∧
    ((∀ i e, ¬call.Refuses args i e) →
      (call.entry.hasRest = false → ∀ extra, args[call.entry.positional.length]? = some extra →
        call.arguments lower args c = .error ((Fault.tooManyArguments call.name
          call.entry.positional.length args.length
          ((args.drop call.entry.positional.length).map SExpr.text)).place
            (extra.position.or call.node.position)) c) ∧
      (call.entry.hasRest = true ∨ args.length ≤ call.entry.positional.length →
        (∀ nodes d, call.arguments lower args c = .ok nodes d ↔
          nodes.length = max call.entry.positional.length args.length ∧
            call.PassesAll lower args 0 c nodes d) ∧ ∀ e d, call.arguments lower args c = .error e d ↔
          ∃ nodes c', nodes.length < max call.entry.positional.length args.length ∧
            call.PassesAll lower args 0 c nodes c' ∧ call.Fails lower args nodes.length c' e d)) := by
  refine ⟨fun i e hrefuses hfirst => ⟨?_, ?_⟩, fun hplain => ⟨fun hrest _ hextra => ?_, ?_⟩⟩
  · have herror : call.checkPlaceholders 0 args c = .error e c :=
      checkPlaceholders_error (by rwa [zero_add]) (by simpa using hfirst)
    rw [arguments_eq lower hspread hstructured]
    simp [bind, EStateM.bind, herror]
  · cases hrefuses <;> rfl
  · have hholes : call.checkPlaceholders 0 args c = .ok () c :=
      checkPlaceholders_ok hplain
    rw [arguments_eq lower hspread hstructured]
    simp [bind, EStateM.bind, hholes, checkCount_error hrest hextra]
  · intro hrest
    rw [arguments_checked lower c hspread hstructured hplain hrest]
    refine ⟨fun _ d => positionalArguments_ok_iff hplain hrest (zero_add _), fun e d => ?_⟩
    simpa only [zero_add] using
      positionalArguments_error_iff hplain hrest (zero_add _)

/-- A call of `f`, whose parameter `a` has no default and whose parameter `b` has one. -/
def defaultedCall : DeclaredCall where
  name := "f"
  entry :=
    { params := [⟨.identifier "a" none, none, none⟩, ⟨.identifier "b" none, none, none⟩]
      defaults := [("b", string "s")]
      structured := false
      body := []
      position := none }
  node := .list [.symbol "f" none] none

/-- With one argument the call is completed, and with a placeholder for it the call is refused. -/
theorem declared_call_resolution_defaulted : (∃ nodes d,
      defaultedCall.arguments Lowering.lower [.symbol "x" none] (Context.start "" {}) = .ok nodes d ∧
      nodes.length = 2 ∧ defaultedCall.PassesAll Lowering.lower [.symbol "x" none] 0
        (Context.start "" {}) nodes d) ∧ ∃ e, defaultedCall.Refuses [.symbol "_" none] 0 e ∧
      defaultedCall.arguments Lowering.lower [.symbol "_" none] (Context.start "" {}) =
        .error e (Context.start "" {}) ∧ e.code = Code.placeholderWithoutDefault := by
  constructor
  · have hplain : ∀ i e, ¬defaultedCall.Refuses [.symbol "x" none] i e := by
      intro i e h
      cases h with
      | undefaulted harg hplaceholder =>
        cases mem_singleton.mp (mem_of_getElem? harg)
        cases hplaceholder
      | surplus harg hplaceholder =>
        cases mem_singleton.mp (mem_of_getElem? harg)
        cases hplaceholder
    have hresolves := (declared_call_resolution defaultedCall Lowering.lower [.symbol "x" none]
      (Context.start "" {}) (by decide +kernel) rfl).2 hplain
    obtain ⟨hlength, hpasses⟩ := ((hresolves.2 (.inr (by decide))).1 _ _).mp rfl
    exact ⟨_, _, rfl, hlength, hpasses⟩
  · have hrefuses : defaultedCall.Refuses [.symbol "_" none] 0 _ :=
      .undefaulted rfl (by decide) rfl rfl
    have hresolves := declared_call_resolution defaultedCall Lowering.lower [.symbol "_" none]
      (Context.start "" {}) (by decide +kernel) rfl
    exact ⟨_, hrefuses, hresolves.1 0 _ hrefuses fun j hj => absurd hj (not_lt_zero j)⟩

/-! ## Placeholders -/

namespace Lowering

theorem eq_symbol_of_isPlaceholder {arg : SExpr} (h : isPlaceholder arg = true) :
    ∃ p, arg = .symbol "_" p := by
  cases arg with
  | symbol name p =>
    cases of_decide_eq_true h
    exact ⟨p, rfl⟩
  | literal | list => cases h

theorem DeclaredCall.mapArgument_isForm {call : DeclaredCall} {lower : Lowerer} {args : List SExpr}
    {node : Node} {c d : Context} (h : call.mapArgument lower args c = .ok node d) {arg : SExpr}
    (harg : arg ∈ args) : (arg.isForm "hash-map" || arg.isForm "empty-map") = true := by
  unfold mapArgument at h
  split at h
  · cases harg
  · split at h
    · next hform =>
      cases mem_singleton.mp harg
      exact hform
    · cases h
  · cases h

theorem each_getElem? {α β : Type} {step : α → Lower β} {items : List α} {results : List β} {item : α}
    {index : Nat} {c d : Context} (h : Lower.each step items c = .ok results d)
    (hitem : items[index]? = some item) :
    ∃ result c' d', step item c' = .ok result d' ∧ results[index]? = some result := by
  induction items generalizing index results c with
  | nil => cases hitem
  | cons head rest ih =>
    obtain ⟨first, c₁, hfirst, h⟩ := bind_ok h
    obtain ⟨others, hothers, rfl⟩ := map_ok h
    cases index with
    | zero =>
      cases hitem
      exact ⟨first, c, c₁, hfirst, rfl⟩
    | succ index =>
      obtain ⟨result, c', d', hstep, hresult⟩ := ih hothers (by simpa using hitem)
      exact ⟨result, c', d', hstep, by simpa using hresult⟩

theorem lowerArgument_placeholder {p : Option Position} {c : Context} :
    lowerArgument Lowering.lower (.symbol "_" p) c = .ok ((ident "_").place p) c := rfl

end Lowering

/-- What is passed for a placeholder. In a call of a declared function that is lowered, the default of the
parameter is passed, which then is there; but if any argument is a spread, the name `_` is passed. -/
theorem placeholder_resolution {c d : Context} {name : String} {entry : FunctionEntry}
    {q p : Option Position} {args : List SExpr} {arg : SExpr} {index : Nat} {lowered : Option Node}
    (hentry : Resolves c name entry) (harg : args[index]? = some arg)
    (hplaceholder : isPlaceholder arg = true)
    (hrun : Lowering.lower (.list (.symbol name q :: args) p) c = .ok lowered d) : ∃ arguments,
      lowered = some ⟨.call ((ident (Symbol.identifier name)).place q) arguments false, p⟩ ∧
      if args.any isSpread then arguments[index]? = some ((ident "_").place arg.position)
      else entry.structured = false ∧ index < entry.positional.length ∧
        ∃ value, entry.defaultFor index = some value ∧ arguments[index]? = some value := by
  obtain ⟨node, arguments, c', harguments, rfl⟩ := hentry.lower_call hrun
  refine ⟨arguments, rfl, ?_⟩
  split
  · next hspread =>
    rw [DeclaredCall.arguments, if_pos hspread] at harguments
    obtain ⟨result, c₁, c₂, hresult, hnode⟩ := each_getElem? harguments harg
    obtain ⟨r, rfl⟩ := eq_symbol_of_isPlaceholder hplaceholder
    cases lowerArgument_placeholder.symm.trans hresult
    exact hnode
  · next hspread =>
    have hspread : args.any isSpread = false := by simpa using hspread
    cases hstructured : entry.structured with
    | true =>
      -- the one argument has to be a map, and a placeholder is a symbol
      rw [DeclaredCall.arguments, hspread, hstructured] at harguments
      obtain ⟨argument, c₁, hargument, -⟩ := bind_ok harguments
      have hform := mapArgument_isForm hargument (mem_of_getElem? harg)
      obtain ⟨r, rfl⟩ := eq_symbol_of_isPlaceholder hplaceholder
      cases hform
    | false =>
      obtain ⟨hplain, hrest, -⟩ := arguments_passes harguments hspread hstructured
      have hlength := (List.getElem?_eq_some_iff.mp harg).1
      have hindex : index < entry.positional.length := by
        by_contra hmost
        refine hplain index _ (.surplus harg hplaceholder (Nat.le_of_not_lt hmost) ?_)
        exact hrest.resolve_right fun hfew => hmost (lt_of_lt_of_le hlength hfew)
      obtain ⟨value, hvalue, hdefault⟩ := arguments_default harguments hspread hstructured
        hindex (by simpa [harg] using hplaceholder)
      exact ⟨rfl, hindex, value, hdefault, hvalue⟩

/-- The function `f` with the parameter `a`, which has the default `"s"`, and with a rest. -/
def restDefaulting : SExpr :=
  .list [.symbol "fn" none, .symbol "f" none,
    .list [.symbol "vector" none, .symbol "a" none, .symbol "=" none, .literal (.string "s") none,
      .symbol "&" none, .symbol "r" none] none,
    .symbol "a" none] none

def restDefaultingState : Context := endState (Lowering.lower restDefaulting (Context.start "" {}))

/-- The default is passed for a placeholder in front of an argument for the rest. -/
theorem placeholder_resolution_rest : ∃ entry arguments d, Resolves restDefaultingState "f" entry ∧
      Lowering.lower (.list [.symbol "f" none, .symbol "_" none, .symbol "x" none] none)
        restDefaultingState = .ok (some ⟨.call (ident "f") arguments false, none⟩) d ∧
      ∃ value, entry.defaultFor 0 = some value ∧ arguments[0]? = some value := by
  have hentry : Resolves restDefaultingState "f" _ :=
    ⟨by decide +kernel, by decide +kernel, by decide +kernel, by decide +kernel, rfl⟩
  have hfirst : ([.symbol "_" none, .symbol "x" none] : List SExpr)[0]? = some (.symbol "_" none) := rfl
  have hrun : Lowering.lower (.list [.symbol "f" none, .symbol "_" none, .symbol "x" none] none)
      restDefaultingState = .ok _ _ := rfl
  obtain ⟨arguments, harguments, hpassed⟩ :=
    placeholder_resolution hentry hfirst (by decide) hrun
  cases harguments
  rw [if_neg (by decide +kernel)] at hpassed
  exact ⟨_, _, _, hentry, rfl, hpassed.2.2⟩

/-- Beside a spread the name `_` is passed for the parameter, although it has a default. -/
theorem placeholder_beside_spread :
    ∃ entry d, Resolves restDefaultingState "f" entry ∧ entry.defaultFor 0 = some (string "s") ∧
      Lowering.lower (.list [.symbol "f" none, .symbol "_" none, .symbol "...xs" none] none)
        restDefaultingState = .ok (some (call (ident "f")
          [ident "_", ⟨.spread (ident "xs"), none⟩])) d :=
  ⟨_, _, ⟨by decide +kernel, by decide +kernel, by decide +kernel, by decide +kernel, rfl⟩, rfl, rfl⟩

end LispLowering
