import LispLowering.Proofs.Built
import LispLowering.Proofs.Parts
import LispLowering.Proofs.Scoping.Steps

/-!
# What a form does
-/

namespace LispLowering

open Lowering Suspension RegistryView Node LoopVariable

/-! ## Events -/

/-- What of a state matters to the events that follow. -/
structure Core where
  options : Options
  registry : Registry
  wrapperDepth : Nat
  functionDepth : Nat
  earlyReturn : Bool

def Context.core (c : Context) : Core :=
  ⟨c.options, c.registry, c.wrapperDepth, c.functionDepth, c.earlyReturn⟩

namespace Context

variable (c : Context)

@[simp] theorem core_options : c.core.options = c.options := rfl

@[simp] theorem core_registry : c.core.registry = c.registry := rfl

@[simp] theorem core_wrapperDepth : c.core.wrapperDepth = c.wrapperDepth := rfl

@[simp] theorem core_functionDepth : c.core.functionDepth = c.functionDepth := rfl

@[simp] theorem core_earlyReturn : c.core.earlyReturn = c.earlyReturn := rfl

end Context

/-- The entries of the object that is thrown to leave a function early. -/
def markerEntries (key : String) (value : Node) (p : Option Position) : List Node :=
  [(property key ((bool true).place p)).place p, (property "value" value).place p]

/-- A statement may be in the place, given how many wrappers are around it. Those of a loop are inside of
one. -/
def Place.Holds (place : Place) (depth : Nat) : Prop :=
  place = .statement ∨ place = .looped ∧ depth ≠ 0

/-- What happens while a form is lowered. -/
inductive Event where
  /-- A tree is lowered as a value. -/
  | value (tree : SExpr) (node : Node)
  /-- A tree is lowered as it is; it may stand for nothing. -/
  | plain (place : Place) (tree : SExpr) (node : Option Node)
  /-- A function is built. -/
  | function (spec : FunctionSpec) (f : Function)
  /-- The default of a declared function is used. -/
  | stored (node : Node)
  | awaits
  | yields
  | returns
  /-- The innermost function is left early by throwing an object with these entries. -/
  | escapes (entries : List Node)
  /-- A map becomes an object. -/
  | object (args : List SExpr) (entries : List Node)
  /-- A jump back to the innermost loop is counted. -/
  | jumps

namespace Event

/-- The leaves that an event gives. -/
def leaves : Event → List Leaf
  | .value _ node => [.value node]
  | .plain _ _ node => node.toList.map .node
  | .function _ f => [.function f]
  | .stored node => [.value node]
  | .awaits => [.mark .awaits]
  | .yields => [.mark .yields]
  | .returns => [.mark .returns]
  | .escapes entries => [.mark (.object entries)]
  | .object _ entries => (NodeKind.object entries).marks.map .mark
  | .jumps => []

/-- The parts that an event takes care of. -/
def parts : Event → List Part
  | .value tree _ => tree.partAt .value
  | .plain place tree _ => tree.partAt place
  | .function spec _ => spec.parts
  | .stored _ => []
  | .awaits => [.act .await]
  | .yields => [.act .yield]
  | .returns | .escapes _ => [.act .leave]
  | .object args _ => [.act (.object args)]
  | .jumps => [.act .jump]

end Event

/-- The keys of an object that are names come from the arguments of the map. -/
def KeysFrom (args : List SExpr) (entries : List Node) : Prop :=
  ∀ entry ∈ entries, ∀ key value shorthand,
    entry.kind = .property key value false shorthand → ∀ name, key.identifier? = some name →
      ∃ arg ∈ args, directKey? arg = some name

/-- A default is stored for a parameter of a declared function. -/
def Registry.Stores (registry : Registry) (default : Node) : Prop :=
  ∃ name entry index, registry.get? name = some entry ∧ entry.defaultFor index = some default

/-- Every default that is stored has the property. -/
def Registry.StoresOnly (P : Node → Prop) (registry : Registry) : Prop :=
  ∀ default, registry.Stores default → P default

/-- The core in which the body of a function starts, after the function has been remembered. -/
def Core.inside (k : Core) (registry : Registry) : Core :=
  { k with registry, wrapperDepth := 0, functionDepth := k.functionDepth + 1, earlyReturn := false }

namespace Lowering.FunctionSpec

def returned (spec : FunctionSpec) (statements : List Node) : List Node :=
  if spec.returnsLast then returningAll statements else statements

/-- A function with given parameters and statements, given the core at the end of its body. -/
def enclose (spec : FunctionSpec) (params statements : List Node) (k : Core) : Function :=
  spec.function params
    (if k.earlyReturn then
      catchEarlyReturn k.options.earlyReturnKey spec.position (spec.returned statements)
    else spec.returned statements)

end Lowering.FunctionSpec

mutual

/-- An event, what the code waits for in it, and the cores before and after it. The steps that lower
trees start while the code waits for nothing. Building a function takes two runs, one for the defaults
of its parameters and one for its body. -/
inductive Step (lower : Lowerer) (stored : Node → Prop) : Core → Event → Suspension → Core → Prop where
  | value {c d : Context} {tree : SExpr} {node : Node} : c.suspension = {} →
      lowerValue lower tree c = .ok node d →
      Step lower stored c.core (.value tree node) d.suspension d.core
  | plain {c d : Context} {place : Place} {tree : SExpr} {node : Option Node} :
      place.Holds c.wrapperDepth → c.suspension = {} → lower tree c = .ok node d →
      Step lower stored c.core (.plain place tree node) d.suspension d.core
  | function {k k₁ k₂ : Core} {spec : FunctionSpec} {events events' : List Event}
      {δ δ' : Suspension} {targets params statements : List Node} {registry : Registry} :
      Run lower stored k events δ k₁ →
      events.flatMap Event.parts = Place.value.all spec.params.defaults →
      BuiltAll (events.flatMap Event.leaves) (Slot.expression.all targets) →
      BuiltAll (events.flatMap Event.leaves) (Slot.expression.all params) →
      (∀ default, registry.Stores default → k₁.registry.Stores default ∨
        ∃ target ∈ targets, defaultOf? target = some default) →
      Run lower stored (k₁.inside registry) events' δ' k₂ →
      events'.flatMap Event.parts = Place.statement.all spec.body →
      BuiltAll (events'.flatMap Event.leaves) (Slot.statement.all statements) →
      Step lower stored k (.function spec (spec.enclose params statements k₂)) δ
        { k₁ with registry := k₂.registry }
  | stored {k : Core} {node : Node} : stored node → Step lower stored k (.stored node) {} k
  | awaits {k : Core} : Step lower stored k .awaits { awaits := true } k
  | yields {k : Core} : Step lower stored k .yields { yields := true } k
  | returns {k : Core} : k.wrapperDepth = 0 → k.functionDepth ≠ 0 → Step lower stored k .returns {} k
  | escapes {k : Core} {value : Node} {p : Option Position} : k.wrapperDepth ≠ 0 → k.functionDepth ≠ 0 →
      Step lower stored k (.escapes (markerEntries k.options.earlyReturnKey value p)) {}
        { k with earlyReturn := true }
  | object {k : Core} {args : List SExpr} {entries : List Node} : KeysFrom args entries →
      Step lower stored k (.object args entries) {} k
  | jumps {k : Core} : Step lower stored k .jumps {} k

/-- Events one after another. -/
inductive Run (lower : Lowerer) (stored : Node → Prop) :
    Core → List Event → Suspension → Core → Prop where
  | nil {k : Core} : Run lower stored k [] {} k
  | cons {k k' k'' : Core} {event : Event} {events : List Event} {δ δ' : Suspension} :
      Step lower stored k event δ k' → Run lower stored k' events δ' k'' →
      Run lower stored k (event :: events) (δ.union δ') k''

end

variable {lower : Lowerer} {stored : Node → Prop}

theorem Run.one {k k' : Core} {event : Event} {δ : Suspension} (h : Step lower stored k event δ k') :
    Run lower stored k [event] δ k' := by
  simpa using Run.cons h .nil

theorem Run.append {k k' k'' : Core} {events events' : List Event} {δ δ' : Suspension}
    (h : Run lower stored k events δ k') (h' : Run lower stored k' events' δ' k'') :
    Run lower stored k (events ++ events') (δ.union δ') k'' := by
  match h with
  | .nil => simpa using h'
  | .cons hstep hrest =>
    rw [union_assoc]
    exact .cons hstep (hrest.append h')

/-! ## Steps that make something -/

variable {α β : Type} {a : α} {m : Lower α} {f : α → Lower β}

/-- A step that succeeds runs through events that lower the given parts, and what it gives is made of
their leaves as `Q` says. -/
def Makes (lower : Lowerer) (stored : Node → Prop) (parts : List Part) (m : Lower α)
    (Q : List Leaf → Suspension → α → Prop) : Prop :=
  ∀ c a d, m c = .ok a d → ∃ events δ, Run lower stored c.core events δ d.core ∧
    d.suspension = c.suspension.union δ ∧ events.flatMap Event.parts = parts ∧
    Q (events.flatMap Event.leaves) δ a

def Gives (slot : Slot) (leaves : List Leaf) (_ : Suspension) (node : Node) : Prop :=
  Built leaves slot node

def GivesAll (slot : Slot) (leaves : List Leaf) (_ : Suspension) (nodes : List Node) : Prop :=
  BuiltAll leaves (slot.all nodes)

/-- A step that succeeds changes nothing that matters to events, and what it gives has the property. -/
def Idle (m : Lower α) (R : α → Prop) : Prop :=
  ∀ c a d, m c = .ok a d → d.core = c.core ∧ d.suspension = c.suspension ∧ R a

/-! ## Idle steps -/

namespace Idle

theorem pure {R : α → Prop} (h : R a) : Idle (Pure.pure a) R := by
  intro c b d hrun
  obtain ⟨rfl, rfl⟩ := pure_ok hrun
  exact ⟨rfl, rfl, h⟩

theorem refuse (e : Diagnostic) (R : α → Prop) : Idle (Lower.refuse e : Lower α) R := by
  intro c a d hrun
  cases hrun

theorem bind {R : α → Prop} {S : β → Prop} (hm : Idle m R)
    (hf : ∀ a, R a → Idle (f a) S) : Idle (m >>= f) S := by
  intro c b d hrun
  obtain ⟨a, c', hfirst, hsecond⟩ := bind_ok hrun
  obtain ⟨hcore, hsusp, hR⟩ := hm c a c' hfirst
  obtain ⟨hcore', hsusp', hS⟩ := hf a hR c' b d hsecond
  exact ⟨hcore'.trans hcore, hsusp'.trans hsusp, hS⟩

theorem ofExcept (x : Except Diagnostic α) : Idle (Lower.ofExcept x) fun a => x = .ok a := by
  cases x with
  | ok a => exact pure rfl
  | error e => exact refuse e _

theorem ofSyntax (x : Except SyntaxFault α) : Idle (Lower.ofSyntax x) fun a => x = .ok a := by
  cases x with
  | ok a => exact pure rfl
  | error fault => exact refuse _ _

theorem get : Idle (get : Lower Context) fun _ => True := by
  intro c a d hrun
  cases hrun
  exact ⟨rfl, rfl, trivial⟩

theorem fresh (stem : String) : Idle (Lower.fresh stem) fun _ => True := by
  intro c a d hrun
  cases hrun
  exact ⟨rfl, rfl, trivial⟩

theorem bindTarget (target : Node) : Idle (Lower.bind target) fun _ => True := by
  intro c a d hrun
  cases hrun
  exact ⟨rfl, rfl, trivial⟩

end Idle

/-! ## Putting steps together -/

namespace Makes

variable {parts parts' : List Part} {P Q : List Leaf → Suspension → α → Prop}
  {R : List Leaf → Suspension → β → Prop}

theorem pure (h : Q [] {} a) : Makes lower stored [] (Pure.pure a) Q := by
  intro c b d hrun
  obtain ⟨rfl, rfl⟩ := pure_ok hrun
  exact ⟨[], {}, .nil, by simp, rfl, h⟩

variable {g : α → β} {S : α → Prop} (hm : Makes lower stored parts m P)

include hm in
theorem bind
    (hf : ∀ a leaves δ, P leaves δ a → Makes lower stored parts' (f a)
      fun leaves' δ' b => R (leaves ++ leaves') (δ.union δ') b) :
    Makes lower stored (parts ++ parts') (m >>= f) R := by
  intro c b d hrun
  obtain ⟨a, c', hfirst, hsecond⟩ := bind_ok hrun
  obtain ⟨events, δ, hevents, hδ, rfl, hP⟩ := hm c a c' hfirst
  obtain ⟨events', δ', hevents', hδ', rfl, hR⟩ := hf a _ δ hP c' b d hsecond
  refine ⟨events ++ events', δ.union δ', hevents.append hevents', ?_, by simp, by simpa using hR⟩
  rw [hδ', hδ, union_assoc]

include hm in
theorem settle
    (hf : ∀ a leaves δ, P leaves δ a → Idle (f a) (R leaves δ)) :
    Makes lower stored parts (m >>= f) R := by
  intro c b d hrun
  obtain ⟨a, c', hfirst, hsecond⟩ := bind_ok hrun
  obtain ⟨events, δ, hevents, hδ, hparts, hP⟩ := hm c a c' hfirst
  obtain ⟨hcore, hsusp, hR⟩ := hf a _ δ hP c' b d hsecond
  rw [← hcore] at hevents
  exact ⟨events, δ, hevents, hsusp.trans hδ, hparts, hR⟩

include hm in
theorem map
    (hg : ∀ a leaves δ, P leaves δ a → R leaves δ (g a)) :
    Makes lower stored parts (m >>= fun a => Pure.pure (g a)) R :=
  settle hm fun a leaves δ hP => .pure (hg a leaves δ hP)

theorem after {S : α → Prop} (hm : Idle m S) (hf : ∀ a, S a → Makes lower stored parts (f a) R) :
    Makes lower stored parts (m >>= f) R := by
  intro c b d hrun
  obtain ⟨a, c', hfirst, hsecond⟩ := bind_ok hrun
  obtain ⟨hcore, hsusp, hS⟩ := hm c a c' hfirst
  obtain ⟨events, δ, hevents, hδ, hparts, hR⟩ := hf a hS c' b d hsecond
  rw [hcore] at hevents
  rw [hsusp] at hδ
  exact ⟨events, δ, hevents, hδ, hparts, hR⟩

include hm in
theorem weaken
    (h : ∀ a leaves δ, P leaves δ a → Q leaves δ a) : Makes lower stored parts m Q := by
  intro c a d hrun
  obtain ⟨events, δ, hevents, hδ, hparts, hP⟩ := hm c a d hrun
  exact ⟨events, δ, hevents, hδ, hparts, h a _ δ hP⟩

theorem refuse (e : Diagnostic) : Makes lower stored parts (Lower.refuse e : Lower α) Q := by
  intro c a d hrun
  cases hrun

include hm in
theorem also (hS : ∀ c a d, m c = .ok a d → S a) :
    Makes lower stored parts m fun leaves δ a => P leaves δ a ∧ S a := by
  intro c a d hrun
  obtain ⟨events, δ, hevents, hδ, hparts, hP⟩ := hm c a d hrun
  exact ⟨events, δ, hevents, hδ, hparts, hP, hS c a d hrun⟩

/-! ### Surroundings -/

theorem inScope (hm : Makes lower stored parts m Q) (names : List String) :
    Makes lower stored parts (Lower.inScope names m) Q := by
  intro c a d hrun
  obtain ⟨_, _, hinner, rfl, rfl⟩ := within_ok hrun
  have hmakes := hm _ _ _ hinner
  exact hmakes

theorem inLoop (hm : Makes lower stored parts m Q) (frame : LoopFrame) :
    Makes lower stored parts (Lower.inLoop frame m) fun leaves δ a => Q leaves δ a.1 := by
  intro c a d hrun
  obtain ⟨_, _, hinner, -, rfl⟩ := inLoop_ok hrun
  have hmakes := hm _ _ _ hinner
  exact hmakes

theorem tracking (hm : Makes lower stored parts m Q) :
    Makes lower stored parts (Lower.tracking m) fun leaves δ a => a.2 = δ ∧ Q leaves δ a.1 := by
  intro c a d hrun
  obtain ⟨_, _, hinner, rfl, rfl⟩ := within_ok hrun
  obtain ⟨events, δ, hevents, hδ, hparts, hQ⟩ := hm _ _ _ hinner
  exact ⟨events, δ, hevents, congrArg c.suspension.union hδ, hparts, hδ, hQ⟩

end Makes

/-! ## Nodes of forms -/

/-- The declaration of a loop variable declares its target. -/
def Lowering.LoopVariable.IsDeclared (binding : LoopVariable) : Prop :=
  ∃ init p, binding.declaration = (declareChanging binding.target (some init)).place p

/-- The node of a form, given the leaves and what the code waits for. Most nodes are put together from
the leaves. Some are put into a wrapper, which does what the code waits for, and in a loop jumps have
been put in. Of a block with a handler it is known what is guarded. -/
inductive Composed (guards : Node → Prop) : List Leaf → Suspension → Node → Prop where
  | built {leaves : List Leaf} {δ : Suspension} {node : Node} :
      Built leaves .any node → Composed guards leaves δ node
  | guarded {leaves leaves' : List Leaf} {δ : Suspension} {block handler : Node}
      {finalizer : Option Node} {p : Option Position} : guards block →
      Built leaves .statement block →
      BuiltAll leaves' ((.handler, handler) :: Slot.statement.all finalizer.toList) →
      Composed guards (leaves ++ leaves') δ ⟨.tryStatement block (some handler) finalizer, p⟩
  | wrapped {leaves : List Leaf} {δ : Suspension} {body : List Node} {p : Option Position} :
      BuiltAll (leaves ++ [.mark .returns]) (Slot.statement.all body) →
      Composed guards leaves δ (wrapped body δ p)
  | loop {leaves : List Leaf} {δ : Suspension} {bindings : List LoopVariable} {statements : List Node}
      {label : String} {p : Option Position} : (∀ binding ∈ bindings, binding.IsDeclared) →
      BuiltAll leaves (Slot.statement.all (bindings.map declaration ++ statements)) →
      Composed guards leaves δ (wrapped (loopStatements label p (bindings.map declaration)
          (closedBody p (bodyWithJumps label (bindings.map target) (returningAll statements)))) δ p)
  | move {leaves : List Leaf} {δ : Suspension} {node node' : Node} : node'.kind = node.kind →
      Composed guards leaves δ node → Composed guards leaves δ node'

/-! ## Events in which parts are lowered -/

/-- A way of lowering whose steps agree with themselves: they do not look at what the code waits
for. -/
def Transparent (lower : Lowerer) : Prop := ∀ t, Agree full (lower t) (lower t)

theorem Agree.rebase (h : Agree full m m) {c d : Context} (hrun : m c = .ok a d) :
    ∃ δ, m { c with suspension := {} } = .ok a { d with suspension := δ } ∧
      d.suspension = c.suspension.union δ := by
  have hout := h c { c with suspension := {} } ⟨rfl, rfl⟩
  rw [hrun] at hout
  generalize m { c with suspension := {} } = x at hout ⊢
  cases hout with
  | ok hafter =>
    obtain ⟨r, s, l, hr, rfl⟩ := hafter.twin.eq_with
    obtain ⟨δ, hδ, hs⟩ := hafter.waits
    have hl : l = d.declarations := hafter.tries.eq rfl
    cases hr
    simp only [empty_union] at hs
    exact ⟨δ, by rw [hs, hl], hδ⟩

theorem Twin.self (c : Context) : Twin full c c := ⟨rfl, rfl⟩

theorem Agree.evolves (h : Agree full m m) {c d : Context} (hrun : m c = .ok a d) : Evolves c d := by
  have hout := h c c (.self c)
  rw [hrun] at hout
  cases hout with
  | ok hafter => exact hafter.evolves

theorem Lowering.asExpression_steady (result : Option Node) (suspension : Suspension)
    (p : Option Position) :
    Steady (fun _ => True) (match result with
      | some node => pure (node.asExpression suspension)
      | none => pure (null.place p)) := by
  cases result with
  | none | some => exact .pure trivial

theorem Transparent.value (hl : Transparent lower) (tree : SExpr) :
    Agree full (lowerValue lower tree) (lowerValue lower tree) := by
  intro c c' hc
  cases tree with
  | list items p =>
    exact (Outcome.inExpression hc fun d d' hd _ => hl _ d d' hd).bind fun result d d' _ hafter =>
      (asExpression_steady result.1 result.2 p).agree _ d d' hafter.twin
  | _ =>
    exact (hl _ c c' hc).bind fun result d d' _ hafter =>
      (asExpression_steady result _ _).agree _ d d' hafter.twin

mutual

theorem Step.surroundings (hl : Transparent lower) {k k' : Core} {event : Event} {δ : Suspension}
    (h : Step lower stored k event δ k') : k'.options = k.options ∧
      k'.wrapperDepth = k.wrapperDepth ∧ k'.functionDepth = k.functionDepth := by
  have hevolves {c d : Context} (h : Evolves c d) : d.core.options = c.core.options ∧
      d.core.wrapperDepth = c.core.wrapperDepth ∧ d.core.functionDepth = c.core.functionDepth :=
    ⟨h.options, h.wrapperDepth, h.functionDepth⟩
  match h with
  | .value _ hrun => exact hevolves ((hl.value _).evolves hrun)
  | .plain _ _ hrun => exact hevolves ((hl _).evolves hrun)
  | .function hparams _ _ _ _ _ _ _ => exact hparams.surroundings hl
  | .stored _ | .awaits | .yields | .returns _ _ | .escapes _ _ | .object _ | .jumps =>
    exact ⟨rfl, rfl, rfl⟩

theorem Run.surroundings (hl : Transparent lower) {k k' : Core} {events : List Event} {δ : Suspension}
    (h : Run lower stored k events δ k') : k'.options = k.options ∧
      k'.wrapperDepth = k.wrapperDepth ∧ k'.functionDepth = k.functionDepth := by
  match h with
  | .nil => exact ⟨rfl, rfl, rfl⟩
  | .cons hstep hrest =>
    obtain ⟨hopts, hwrapper, hfun⟩ := hstep.surroundings hl
    obtain ⟨hopts', hwrapper', hfun'⟩ := hrest.surroundings hl
    exact ⟨hopts'.trans hopts, hwrapper'.trans hwrapper, hfun'.trans hfun⟩

end

namespace Makes

variable (hl : Transparent lower)

include hl

theorem value (tree : SExpr) :
    Makes lower stored (tree.partAt .value) (lowerValue lower tree) (Gives .expression) := by
  intro c node d hrun
  obtain ⟨δ, hstep, hδ⟩ := (hl.value tree).rebase hrun
  exact ⟨[.value tree node], δ, .one (.value rfl hstep), hδ, by simp [Event.parts], .value node⟩

theorem plain (tree : SExpr) : Makes lower stored (tree.partAt .statement) (lower tree)
      fun leaves _ node => leaves = node.toList.map .node := by
  intro c node d hrun
  obtain ⟨δ, hstep, hδ⟩ := (hl tree).rebase hrun
  exact ⟨[.plain .statement tree node], δ, .one (.plain (.inl rfl) rfl hstep), hδ,
    by simp [Event.parts], by simp [Event.leaves]⟩

end Makes

theorem Makes.event (event : Event) (δ : Suspension) {Q : List Leaf → Suspension → α → Prop}
    (h : ∀ c a d, m c = .ok a d → Step lower stored c.core event δ d.core ∧
      d.suspension = c.suspension.union δ ∧ Q event.leaves δ a) :
    Makes lower stored event.parts m Q := by
  intro c a d hrun
  obtain ⟨hstep, hδ, hQ⟩ := h c a d hrun
  exact ⟨[event], δ, .one hstep, hδ, by simp, by simpa using hQ⟩

theorem Makes.recall {value : Node} (h : stored value) :
    Makes lower stored [] (Pure.pure value) (Gives .expression) := by
  refine event (.stored value) {} fun c a d hrun => ?_
  obtain ⟨rfl, rfl⟩ := pure_ok hrun
  exact ⟨.stored h, by simp, .value a⟩

end LispLowering
