import LispLowering.Proofs.Composition.Data
import LispLowering.Proofs.Composition.Declarations
import LispLowering.Proofs.Composition.Iteration

/-!
# What lists are made of
-/

namespace LispLowering

open Lowering List Node SExpr LoopVariable

variable {deep : Bool} {k : Core}
  {args : List SExpr}

/-- The core inside a wrapper, if the form is put into one as a whole. -/
def Core.deepen (k : Core) : Bool → Core
  | true => { k with wrapperDepth := k.wrapperDepth + 1 }
  | false => k

@[simp] theorem Core.deepen_registry : (k.deepen deep).registry = k.registry := by
  cases deep <;> rfl

@[simp] theorem Core.deepen_options : (k.deepen deep).options = k.options := by
  cases deep <;> rfl

@[simp] theorem Core.deepen_functionDepth : (k.deepen deep).functionDepth = k.functionDepth := by
  cases deep <;> rfl

@[simp] theorem Core.deepen_earlyReturn : (k.deepen deep).earlyReturn = k.earlyReturn := by
  cases deep <;> rfl

/-! ## Guarded statements -/

/-- The statements of a `try` form that are guarded: those in front of its clauses, if there is a `catch`
clause. -/
def guardedStatements? (args : List SExpr) : Option (List SExpr) :=
  if args.any (SExpr.isForm "catch") then some (args.takeWhile fun arg => !isTryClause arg) else none

def SpecialForm.guarded? (args : List SExpr) : SpecialForm → Option (List SExpr)
  | .trying => guardedStatements? args
  | _ => none

def SExpr.guarded? : SExpr → Option (List SExpr)
  | .list (.symbol name _ :: args) _ =>
    match HeadMeaning.ofName name with
    | .special special => special.guarded? args
    | _ => none
  | _ => none

/-- The block is what the guarded statements are lowered to in a state. -/
def Guards (lower : Lowerer) (guarded : Option (List SExpr)) (c : Context) (block : Node) : Prop :=
  ∃ body ∈ guarded, ∃ statements d, lowerBody lower body c = .ok statements d ∧
    block = Node.block statements

/-- The part stands inside a wrapper, whatever is around the form. -/
def Part.isEnclosed : Part → Bool
  | .tree .statement _ | .act _ => false
  | _ => true

/-- A step that succeeds runs through events that lower the given parts, from the state that the step
starts in, and its node is composed of their leaves. If the form is put into a wrapper as a whole, then
all of its parts are inside. -/
def Composes (lower : Lowerer) (guarded : Option (List SExpr)) (parts : List Part) (m : Lower Node) :
    Prop :=
  ∀ c node d, m c = .ok node d → ∃ deep events δ,
    Run lower c.registry.Stores (c.core.deepen deep) events δ (d.core.deepen deep) ∧
      d.suspension = c.suspension.union δ ∧ events.flatMap Event.parts = parts ∧
      (deep = true → ∀ part ∈ parts, part.isEnclosed = true) ∧
      Composed (Guards lower guarded c) (events.flatMap Event.leaves) δ node

/-- A tree is lowered in a run that lowers its parts. A tree that stands for nothing has no events. -/
def Composition (lower : Lowerer) (t : SExpr) (m : Lower (Option Node)) : Prop :=
  ∀ c node d, m c = .ok node d → ∃ deep events δ,
    Run lower c.registry.Stores (c.core.deepen deep) events δ (d.core.deepen deep) ∧
      d.suspension = c.suspension.union δ ∧ events.flatMap Event.parts = t.parts ∧
      (deep = true → ∀ part ∈ t.parts, part.isEnclosed = true) ∧
      match node with
      | some node => Composed (Guards lower t.guarded? c) (events.flatMap Event.leaves) δ node
      | none => events = []

variable {lower : Lowerer} {P : Comparison} {guarded : Option (List SExpr)} {s : Script}
  {m m' : Lower Node}

/-- A form follows its script with either way of lowering, its node is composed of its parts, and it
does their acts. -/
structure Realizes (P : Comparison) (guarded : Option (List SExpr)) (s : Script) (m m' : Lower Node) :
    Prop where
  follows : Follows P s (fun _ => True) m m'
  composes : Transparent P.first → Composes P.first guarded s.parts m
  logs : P.Logs s.parts m

abbrev Comparison.Realizes (P : Comparison) (guarded : Option (List SExpr)) (s : Script)
    (step : Lowerer → Lower Node) : Prop :=
  LispLowering.Realizes P guarded s (step P.first) (step P.second)

namespace Realizes

theorem performed (h : ∀ stored guards, Performs P stored s m m' (Composed guards)) :
    Realizes P guarded s m m' where
  follows := (h _ fun _ => True).walks
  composes := fun hl c node d hrun => by
    obtain ⟨events, δ, hevents, hδ, hparts, hnode⟩ := (h c.registry.Stores _).makes hl c node d hrun
    exact ⟨false, events, δ, hevents, hδ, hparts, nofun, hnode⟩
  logs := (h (fun _ => True) fun _ => True).logs

theorem built {slot : Slot} (h : ∀ stored, Performs P stored s m m' (Gives slot)) :
    Realizes P guarded s m m' :=
  .performed fun stored _ => (h stored).weaken fun _ _ _ hnode => .built (.widen hnode)

theorem calm (h : Calm (Gives .any [] {}) m) : Realizes P guarded .done m m := .built fun _ => .calm h

end Realizes

theorem Composes.composition {t : SExpr} {place : Node → Node} (h : Composes lower t.guarded? t.parts m)
    (hplace : ∀ node, (place node).kind = node.kind) :
    Composition lower t (do return some (place (← m))) := by
  intro c node d hrun
  obtain ⟨lowered, hlowered, rfl⟩ := map_ok hrun
  obtain ⟨deep, events, δ, hevents, hδ, hparts, hdeep, hnode⟩ := h c lowered d hlowered
  exact ⟨deep, events, δ, hevents, hδ, hparts, hdeep, .move (hplace lowered) hnode⟩

/-! ## Loops -/

/-- A statement of a form as a statement of a loop. -/
def Part.looped : Part → Part
  | .tree .statement t => .tree .looped t
  | part => part

theorem Place.map_looped_all (ts : List SExpr) :
    (Place.statement.all ts).map Part.looped = Place.looped.all ts := by
  have hpart (t : SExpr) : (t.partAt .statement).map Part.looped = t.partAt .looped := by
    cases t <;> rfl
  simp only [Place.all, map_flatMap, hpart]

theorem Part.map_looped_eq_self {parts : List Part}
    (h : ∀ part ∈ parts, ∀ t, part ≠ .tree .statement t) : parts.map Part.looped = parts := by
  have hsame : ∀ part ∈ parts, part.looped = part := by
    intro part hpart
    cases part with
    | act own => rfl
    | tree place t =>
      cases place with
      | statement => exact absurd rfl (h _ hpart t)
      | _ => rfl
  exact (map_congr_left hsame).trans (map_id _)

theorem Lowering.FunctionSpec.ne_statement {spec : FunctionSpec} {part : Part}
    (h : part ∈ spec.parts) (t : SExpr) : part ≠ .tree .statement t := by
  rcases mem_parts h with h | ⟨_, rfl⟩
  · rcases mem_append.mp h with h | h <;>
    · obtain ⟨_, -, rfl⟩ := Place.mem_all h
      nofun
  · nofun

def Event.looped : Event → Event
  | .plain .statement tree node => .plain .looped tree node
  | event => event

theorem Event.parts_looped (event : Event) : event.looped.parts = event.parts.map Part.looped := by
  cases event with
  | value tree => cases tree <;> rfl
  | plain place tree => cases place <;> cases tree <;> rfl
  | function spec => exact (Part.map_looped_eq_self fun _ => FunctionSpec.ne_statement).symm
  | _ => rfl

theorem Event.leaves_looped (event : Event) : event.looped.leaves = event.leaves := by
  cases event with
  | plain place => cases place <;> rfl
  | _ => rfl

variable {stored : Node → Prop}

theorem Step.looped {k k' : Core} {event : Event} {δ : Suspension}
    (h : Step lower stored k event δ k') (hk : k.wrapperDepth ≠ 0) :
    Step lower stored k event.looped δ k' := by
  cases event with
  | plain place tree node =>
    cases h with
    | plain hplace hc hrun =>
      rcases hplace with rfl | ⟨rfl, -⟩
      · exact .plain (.inr ⟨rfl, hk⟩) hc hrun
      · exact .plain (.inr ⟨rfl, hk⟩) hc hrun
  | _ => exact h

theorem Run.looped (hl : Transparent lower) {k k' : Core} {events : List Event} {δ : Suspension}
    (h : Run lower stored k events δ k') (hk : k.wrapperDepth ≠ 0) :
    Run lower stored k (events.map Event.looped) δ k' := by
  induction events generalizing k δ with
  | nil =>
    cases h
    exact .nil
  | cons event rest ih =>
    cases h with
    | cons hstep hrest =>
      exact .cons (hstep.looped hk) (ih hrest ((hstep.surroundings hl).2.1 ▸ hk))

namespace Lowering

variable {form : Form} {c d : Context} {node : Node} {name : String} {p : Option Position}

section

variable (hl : Transparent lower)

include hl

theorem inExpression_ok {α : Type} {stored : Node → Prop} {m : Lower α} {parts : List Part}
    {Q : List Leaf → Suspension → α → Prop} (hm : Makes lower stored parts m Q) {a : α}
    {δ : Suspension} (h : Lower.inExpression m c = .ok (a, δ) d) : ∃ events,
      Run lower stored (c.core.deepen true) events δ (d.core.deepen true) ∧
        d.suspension = c.suspension.union δ ∧ events.flatMap Event.parts = parts ∧
        Q (events.flatMap Event.leaves) δ a := by
  obtain ⟨_, after, hinner, rfl, rfl⟩ := within_ok h
  obtain ⟨events, δ', hrun, hsusp, hparts, hδ, hQ⟩ := hm.tracking _ _ _ hinner
  subst hδ
  refine ⟨events, ?_, hsusp, hparts, hQ⟩
  have hdeepen : Core.deepen
      (Context.core { after with wrapperDepth := after.wrapperDepth - 1 }) true = after.core := by
    have hwrapper : after.wrapperDepth = c.wrapperDepth + 1 := (hrun.surroundings hl).2.1
    exact congrArg (fun depth => Core.mk _ _ depth _ _)
      (Nat.sub_add_cancel (hwrapper ▸ Nat.le_add_left 1 _))
  rw [hdeepen]
  exact hrun

theorem lowerValue_ok {t : SExpr} (hc : c.suspension = {}) (h : lowerValue lower t c = .ok node d) :
    ∃ c' d' lowered δ, lower t c' = .ok lowered d' ∧ c'.suspension = {} ∧ d'.suspension = d.suspension ∧
      c'.core = c.core.deepen t.items?.isSome ∧ d'.core = d.core.deepen t.items?.isSome ∧
      (δ = if t.items?.isSome then d.suspension else {}) ∧
      match lowered with
      | some result => node = result.asExpression δ
      | none => ∃ p, node = null.place p := by
  have hatom (h : (do match ← lower t with
      | some result => return result.asExpression {}
      | none => return null.place t.position) c = .ok node d) : ∃ lowered,
        lower t c = .ok lowered d ∧ match lowered with
          | some result => node = result.asExpression {}
          | none => ∃ p, node = null.place p := by
    obtain ⟨lowered, c', hlowered, h⟩ := bind_ok h
    cases lowered with
    | none =>
      obtain ⟨rfl, rfl⟩ := pure_ok h
      exact ⟨none, hlowered, _, rfl⟩
    | some result =>
      obtain ⟨rfl, rfl⟩ := pure_ok h
      exact ⟨some result, hlowered, rfl⟩
  cases t with
  | literal value p =>
    obtain ⟨lowered, hlowered, hnode⟩ := hatom h
    exact ⟨c, d, lowered, {}, hlowered, hc, rfl, rfl, rfl, rfl, hnode⟩
  | symbol name p =>
    obtain ⟨lowered, hlowered, hnode⟩ := hatom h
    exact ⟨c, d, lowered, {}, hlowered, hc, rfl, rfl, rfl, rfl, hnode⟩
  | list items p =>
    obtain ⟨⟨lowered, δ⟩, c₁, hinner, h⟩ := bind_ok h
    obtain ⟨_, _, hlogged, rfl, rfl⟩ := within_ok hinner
    obtain ⟨_, after, hlower, heq, rfl⟩ := within_ok hlogged
    cases heq
    have hcore : after.core = Core.deepen (Context.core { after with
        wrapperDepth := after.wrapperDepth - 1
        suspension := c.suspension.union after.suspension }) true := by
      have hdepth : after.wrapperDepth = c.wrapperDepth + 1 :=
        ((hl (.list items p)).evolves hlower).wrapperDepth
      exact congrArg (fun depth => Core.mk _ _ depth _ _)
        (Nat.sub_add_cancel (hdepth ▸ Nat.le_add_left 1 _)).symm
    have hsusp : after.suspension = c.suspension.union after.suspension := by simp [hc]
    cases lowered with
    | none =>
      obtain ⟨rfl, rfl⟩ := pure_ok h
      exact ⟨_, after, none, _, hlower, rfl, hsusp, rfl, hcore, hsusp, p, rfl⟩
    | some result =>
      obtain ⟨rfl, rfl⟩ := pure_ok h
      exact ⟨_, after, some result, _, hlower, rfl, hsusp, rfl, hcore, hsusp, rfl⟩

end

section

variable (hargs : Each P.trees form.args)

include hargs

theorem lowerLoop_ok (hl : Transparent P.first) (hrun : lowerLoop P.first form c = .ok node d) :
    ∃ (label : String) (bindings : List LoopVariable) (statements : List Node) (events : List Event)
      (δ : Suspension), Run P.first c.registry.Stores (c.core.deepen true) events δ (d.core.deepen true) ∧
      d.suspension = c.suspension.union δ ∧ events.flatMap Event.parts = (loopScript form.args).parts ∧
      (∀ binding ∈ bindings, binding.IsDeclared) ∧ BuiltAll (events.flatMap Event.leaves)
        (Slot.statement.all (bindings.map declaration ++ statements)) ∧
      node = wrapped (loopStatements label form.position (bindings.map declaration)
        (closedBody form.position (bodyWithJumps label (bindings.map target)
          (returningAll statements)))) δ form.position := by
  unfold lowerLoop at hrun
  cases hform : form.args with
  | nil =>
    rw [hform] at hrun
    cases hrun
  | cons bindings body =>
    rw [hform] at hrun
    obtain ⟨pairs, c₁, hpairs, hrun⟩ := bind_ok hrun
    obtain ⟨hcore₁, hsuspension₁, rfl⟩ := (loopPairs_calm bindings).idle c pairs c₁ hpairs
    obtain ⟨label, c₂, hlabel, hrun⟩ := bind_ok hrun
    obtain ⟨hcore₂, hsuspension₂, -⟩ := Idle.fresh "loop" c₁ label c₂ hlabel
    obtain ⟨⟨loop, δ⟩, c₃, hloop, hrun⟩ := bind_ok hrun
    rw [hform] at hargs
    have hmakes : Makes P.first c.registry.Stores _ _ _ := lowerLoopParts_makes label form.position
      (bindingItems_of P.shown.hereditary hargs.1) body hl
    obtain ⟨events, hevents, hδ, hparts, hdeclared, statements, hbody, hbuilt⟩ :=
      inExpression_ok hl hmakes hloop
    dsimp only at hrun
    split at hrun
    · cases hrun
    · obtain ⟨rfl, rfl⟩ := pure_ok hrun
      rw [hcore₂, hcore₁] at hevents
      refine ⟨label, loop.bindings, statements, events.map Event.looped, δ,
        hevents.looped hl (Nat.succ_ne_zero _), ?_, ?_, hdeclared, ?_, ?_⟩
      · rw [hδ, hsuspension₂, hsuspension₁]
      · have hpairs : (pairsScript bindings.bindingItems).parts.map Part.looped =
            (pairsScript bindings.bindingItems).parts := by
          refine Part.map_looped_eq_self fun part hpart t => ?_
          obtain ⟨_, rfl⟩ := mem_parts_pairsScript hpart
          nofun
        simp only [flatMap_map, Event.parts_looped, ← map_flatMap, hparts, map_append, hpairs,
          Place.map_looped_all, parts_loopScript]
      · simpa only [flatMap_map, Event.leaves_looped] using hbuilt
      · rw [hbody]

theorem lowerLoop_realizes :
    P.Realizes guarded (loopScript form.args) (lowerLoop · form) where
  follows := by
    unfold lowerLoop
    split
    · exact .fault rfl
    · next bindings body hform =>
      rw [hform] at hargs ⊢
      refine .steadyThen (loopPairs_calm bindings).steady fun _ hpairs => ?_
      subst hpairs
      refine .steadyThen (.fresh _) fun label _ => ?_
      exact .thenSteady (.inExpression (lowerLoopParts_follows label form.position
        (bindingItems_of P.shown.hereditary hargs.1) hargs.2)) fun _ _ => .ite (.fault rfl) (.pure trivial)
  composes := fun hl c _ d hrun => by
    obtain ⟨label, bindings, statements, events, δ, hevents, hδ, hparts, hdeclared, hbuilt, rfl⟩ :=
      lowerLoop_ok hargs hl hrun
    refine ⟨true, events, δ, hevents, hδ, hparts, fun _ part hpart => ?_, .loop hdeclared hbuilt⟩
    cases hform : form.args with
    | nil =>
      rw [hform] at hpart
      cases hpart
    | cons bindings body =>
      simp only [hform, parts_loopScript, mem_append] at hpart
      rcases hpart with hpart | hpart
      · obtain ⟨t, rfl⟩ := mem_parts_pairsScript hpart
        rfl
      · obtain ⟨t, -, rfl⟩ := Place.mem_all hpart
        rfl
  logs := fun hl below hbelow => by
    unfold lowerLoop
    split
    · exact .refuse _
    · next bindings body hform =>
      rw [hform] at hargs
      rw [hform, parts_loopScript]
      refine .after (loopPairs_calm bindings).logs fun c pairs d hpairs => ?_
      obtain ⟨-, -, rfl⟩ := (loopPairs_calm bindings).idle c pairs d hpairs
      refine .after (Calm.fresh "loop").logs fun _ label _ _ => ?_
      refine .settle (lowerLoopParts_logs label form.position
        (bindingItems_of P.shown.hereditary hargs.1) hargs.2 hl below hbelow).inExpression
        fun _ _ _ _ => ?_
      dsimp only
      split
      · exact .refuse _
      · exact .pure _

/-! ## Exceptions -/

theorem lowerTry_realizes :
    P.Realizes (guardedStatements? form.args) (tryScript form.args) (lowerTry · form) := by
  have hbody (stored : Node → Prop) : P.Performs stored _ _ _ :=
    lowerBody_performs (hargs.subset (takeWhile_subset fun arg => !isTryClause arg))
  have hclauses (stored : Node → Prop) : P.Performs stored _ (lowerTryClauses · form {} _) _ :=
    lowerTryClauses_performs {} [] .nil (hargs.subset (dropWhile_subset fun arg => !isTryClause arg))
  refine ⟨?_, fun hl c _ d hrun => ?_, fun hl below hbelow => ?_⟩
  · exact .block (.bind (hbody _).walks fun _ _ =>
      .thenSteady (hclauses _).walks fun _ _ => .ite (.fault rfl) (.pure trivial))
  · obtain ⟨statements, c₁, hstmts, hrun⟩ := bind_ok hrun
    obtain ⟨clauses, c₂, hrest, hrun⟩ := bind_ok hrun
    obtain ⟨events, δ, hevents, hδ, hparts, hbuilt⟩ :=
      (hbody c.registry.Stores).makes hl c statements c₁ hstmts
    obtain ⟨events', δ', hevents', hδ', hparts', hbuilt'⟩ :=
      (hclauses c.registry.Stores).makes hl c₁ clauses c₂ hrest
    split at hrun
    · cases hrun
    · obtain ⟨rfl, rfl⟩ := pure_ok hrun
      refine ⟨false, events ++ events', δ.union δ', hevents.append hevents', ?_, ?_, nofun, ?_⟩
      · rw [hδ', hδ, Suspension.union_assoc]
      · rw [flatMap_append, hparts, hparts']
        rfl
      · rw [flatMap_append]
        obtain ⟨handler, finalizer⟩ := clauses
        cases handler with
        | none => exact .built (.hold rfl (.cons (.block hbuilt) hbuilt'))
        | some handler =>
          have hcatch := exists_catch hrest (Option.some_ne_none handler) rfl
          refine .guarded ⟨_, ?_, statements, c₁, hstmts, rfl⟩ (.block hbuilt) hbuilt'
          refine if_pos (any_eq_true.mpr ?_)
          obtain ⟨clause, hmem, hform⟩ := any_eq_true.mp hcatch
          exact ⟨clause, dropWhile_subset _ hmem, hform⟩
  · rw [tryScript, Script.parts, flatMap_append]
    refine .bind ((hbody fun _ => True).logs hl below hbelow) fun _ statements _ _ => ?_
    refine .settle ((hclauses fun _ => True).logs hl below hbelow) fun _ clauses _ _ => ?_
    split
    · exact .refuse _
    · exact .pure _

end

/-! ## Calls -/

end Lowering

/-- What a call with the given head is resolved to if the names of the scopes hide declared functions. A
chain never names one. -/
def Registry.resolve (r : Registry) (scopes : Scopes) (name : String) : Option FunctionEntry :=
  if Symbol.isChain name || scopes.has (Symbol.identifier name) then none
  else r.get? (Symbol.identifier name)

theorem Registry.get?_of_resolve {r : Registry} {scopes : Scopes} {entry : FunctionEntry}
    (h : r.resolve scopes name = some entry) : r.get? (Symbol.identifier name) = some entry := by
  unfold resolve at h
  split at h
  · cases h
  · exact h

theorem declaredFunction?_eq :
    declaredFunction? name c = .ok (c.registry.resolve c.scopes name) c := by
  have hlocal : Lower.isLocal (Symbol.identifier name) c =
      .ok (Scopes.has c.scopes (Symbol.identifier name)) c := rfl
  unfold declaredFunction? Registry.resolve
  cases Symbol.isChain name with
  | true => rfl
  | false =>
    simp only [Bool.false_eq_true, if_false, Bool.false_or, bind, EStateM.bind, hlocal]
    cases Scopes.has c.scopes (Symbol.identifier name) <;> rfl

namespace Lowering

variable {form : Form} {c d : Context} {node : Node} {name : String} {p : Option Position}

theorem declaredFunction?_follows (hname : P.view.visible (Symbol.identifier name)) :
    Follows P .done (fun _ => True) (declaredFunction? name) (declaredFunction? name) := by
  intro c c' hc _
  obtain ⟨r, s, l, hr, rfl⟩ := hc.eq_with
  have hresolve : r.resolve c.scopes name = c.registry.resolve c.scopes name := by
    rw [Registry.resolve, Registry.resolve, P.view.get?_eq hr hname]
  rw [declaredFunction?_eq, declaredFunction?_eq, hresolve]
  refine ⟨.ok (.refl hc), ?_⟩
  rintro _ _ ⟨⟩
  exact ⟨(Scopes.extend_nil _).symm, trivial⟩

theorem declaredFunction?_logs (name : String) : Logs [] (declaredFunction? name) := by
  intro c
  rw [declaredFunction?_eq]
  exact .still rfl rfl rfl

theorem lowerNamedCall_realizes (node : SExpr) (head : Option Position)
    (hname : P.view.visible (Symbol.identifier name)) (hargs : Each P.trees args) :
    P.Realizes guarded (if (methodName? name).isSome then calleeScript args else argumentsScript args)
      (lowerNamedCall · node name head args) := by
  unfold Comparison.Realizes lowerNamedCall
  cases methodName? name with
  | some method => exact .built fun _ => lowerMethodCall_performs node method hargs
  | none =>
    have hcall (callee : Node) (hcallee : Built [] .expression callee) (stored : Node → Prop) :
        P.Performs stored (argumentsScript args) (lowerCallOf · node callee args)
          (Gives .expression) :=
      lowerCallOf_performs node hcallee hargs
    have hdeclared (entry : FunctionEntry) (stored : Node → Prop)
        (hstored : ∀ index value, entry.defaultFor index = some value → stored value) :
        P.Performs stored (argumentsScript args)
          (fun lower => do
            let arguments ← DeclaredCall.arguments ⟨Symbol.identifier name, entry, node⟩ lower args
            return (call ((ident (Symbol.identifier name)).place head) arguments).place
              node.position) (Gives .expression) :=
      .map (DeclaredCall.arguments_performs hstored hargs) fun _ _ _ hgiven =>
        (((Built.ident _).place head).call hgiven).place _
    refine ⟨.bind (declaredFunction?_follows hname) fun entry _ => ?_, fun hl c result d hrun => ?_,
      fun hl below hbelow => .after (declaredFunction?_logs name) fun _ entry _ _ => ?_⟩
    · cases entry with
      | some entry => exact (hdeclared entry (fun _ => True) fun _ _ _ => trivial).walks
      | none =>
        exact .steadyThen (.ofExcept (reference_faultless _ _)) fun callee hcallee =>
          (hcall callee (reference_referred hcallee).built _).walks
    · obtain ⟨entry, _, hentry, hrun⟩ := bind_ok hrun
      rw [declaredFunction?_eq] at hentry
      cases hentry
      cases hresolve : c.registry.resolve c.scopes name with
      | none =>
        rw [hresolve] at hrun
        have hrealizes : P.Realizes guarded _ (fun lower => do
            let callee ← Lower.ofExcept (reference name head)
            lowerCallOf lower node callee args) :=
          .built fun stored => .after (.ofExcept (reference_faultless _ _)) fun callee hcallee =>
            hcall callee (reference_referred hcallee).built stored
        exact hrealizes.composes hl c result d hrun
      | some entry =>
        rw [hresolve] at hrun
        obtain ⟨events, δ, hevents, hδ, hparts, hnode⟩ := (hdeclared entry c.registry.Stores
          fun index _ h => ⟨_, entry, index, Registry.get?_of_resolve hresolve, h⟩).makes hl c result d hrun
        exact ⟨false, events, δ, hevents, hδ, hparts, nofun, .built (.widen hnode)⟩
    · cases entry with
      | some entry =>
        exact (hdeclared entry (fun _ => True) fun _ _ _ => trivial).logs hl below hbelow
      | none =>
        refine .after (.ofExcept _) fun c callee d hcallee => ?_
        obtain ⟨-, -, hcallee⟩ := Idle.ofExcept _ c callee d hcallee
        exact (hcall callee (reference_referred hcallee).built fun _ => True).logs hl below hbelow

/-! ## Lists -/

theorem lowerSpecial_realizes (P : Comparison) (form : Form) (special : SpecialForm)
    (hargs : Each P.trees form.args) :
    P.Realizes (special.guarded? form.args) (specialScript special form.args)
      (lowerSpecial · form special) := by
  cases special with
  | binding kind => exact .built fun _ => lowerBinding_performs kind hargs
  | assignment => exact .built fun _ => lowerAssignment_performs hargs
  | function => exact .built fun _ => lowerFunction_performs form false false hargs
  | generator => exact .built fun _ => lowerFunction_performs form false true hargs
  | async => exact .built fun _ => lowerAsync_performs hargs
  | arrow => exact .built fun _ => lowerArrow_performs form false hargs
  | returning => exact .built fun _ => lowerReturn_performs hargs
  | yielding delegate => exact .built fun _ => lowerYield_performs delegate hargs
  | awaiting => exact .built fun _ => lowerAwait_performs hargs
  | branch => exact .built fun _ => lowerIf_performs hargs
  | cond => exact .built fun _ => lowerCond_performs hargs
  | sequence => exact .built fun _ => lowerSequence_performs form.position hargs
  | throwing => exact .built fun _ => lowerThrow_performs hargs
  | trying => exact lowerTry_realizes hargs
  | switching => exact .built fun _ => lowerSwitch_performs hargs
  | label => exact .built fun _ => lowerLabel_performs hargs
  | loop => exact lowerLoop_realizes hargs
  | recur => exact .built fun _ => lowerRecur_performs hargs
  | whileLoop => exact .built fun _ => lowerWhile_performs hargs
  | forLoop => exact .built fun _ => lowerFor_performs hargs
  | forOf awaits => exact .built fun _ => lowerForOf_performs awaits hargs
  | forIn => exact .built fun _ => lowerForIn_performs hargs
  | breaking | continuing => exact .calm (lowerJump_calm fun _ => .hold rfl .nil)
  | vector => exact .built fun _ => lowerVector_performs hargs
  | emptyArray => exact .calm (lowerEmpty_calm (.hold rfl .nil))
  | map => exact .built fun _ => lowerMap_performs hargs
  | emptyMap => exact .calm (lowerEmpty_calm (.hold rfl .nil))
  | set => exact .built fun _ => lowerSet_performs hargs
  | emptySet => exact .calm (lowerEmpty_calm (.hold rfl (.one (.ident _))))
  | get => exact .built fun _ => lowerGet_performs hargs
  | construct => exact .built fun _ => lowerConstruct_performs hargs
  | template => exact .built fun _ => lowerTemplate_performs hargs
  | spread => exact .built fun _ => lowerSpread_performs hargs
  | methodCall => exact .built fun _ => lowerPropertyCall_performs hargs
  | propertyGet => exact .built fun _ => lowerPropertyGet_performs hargs
  | propertySet => exact .built fun _ => lowerPropertySet_performs hargs
  | getInvoke =>
    refine .performed fun _ _ => (lowerGetInvoke_performs hargs).weaken fun _ _ _ hnode => ?_
    obtain ⟨body, rfl, hbody⟩ := hnode
    exact .wrapped hbody
  | quote => exact .calm lowerQuote_calm
  | quasiquote => exact .built fun _ => lowerQuasiquote_performs hargs
  | unquote => exact .calm (.fault rfl)
  | classForm => exact .built fun _ => lowerClass_performs hargs
  | enumForm => exact .built fun _ => lowerEnum_performs hargs
  | typeAlias => exact .calm lowerTypeAlias_calm
  | interface => exact .calm lowerInterface_calm
  | typeAssertion => exact .built fun _ => lowerTypeAssertion_performs hargs
  | importing => exact .calm lowerImport_calm
  | exporting => exact .built fun _ => lowerExport_performs hargs
  | dynamicImport => exact .built fun _ => lowerDynamicImport_performs hargs
  | operator op => exact .performed fun _ _ => lowerOperator_performs op hargs

theorem lowerNamed_follows (P : Comparison) (node : SExpr) (head : Option Position)
    (hname : P.view.visible (Symbol.identifier name))
    (hargs : Each P.trees args) :
    P.Walks (namedScript name args) (lowerNamed · node name head args) := by
  unfold Comparison.Walks lowerNamed namedScript
  cases HeadMeaning.ofName name with
  | special special =>
    exact .wrap (lowerSpecial_realizes P ⟨node, name, args⟩ special hargs).follows
  | dropped => exact .pure trivial
  | called =>
    have hcall : P.Realizes none _ _ := lowerNamedCall_realizes node head hname hargs
    exact .wrap hcall.follows

theorem lowerList_follows (P : Comparison) (items : List SExpr) (p : Option Position)
    (hitems : ∀ t ∈ items, P.trees t) :
    Follows P (SExpr.list items p).script (fun _ => True) (lowerList P.first items p)
      (lowerList P.second items p) := by
  replace hitems := each_iff.mpr hitems
  rcases items with _ | ⟨head, args⟩
  · exact .pure trivial
  cases head with
  | symbol name q =>
    exact .inForm name p (lowerNamed_follows P _ q (P.shown.called name q hitems.1) hitems.2)
  | literal value q => exact .fault rfl
  | list inner q => exact .wrap (lowerApplied_performs _ hitems).walks

theorem lowerList_logs (P : Comparison) (items : List SExpr) (p : Option Position)
    (hitems : ∀ t ∈ items, P.trees t) :
    P.Logs (SExpr.list items p).parts (lowerList P.first items p) := by
  intro hl below hbelow
  replace hitems := each_iff.mpr hitems
  rcases items with _ | ⟨head, args⟩
  · exact .pure _
  cases head with
  | symbol name q =>
    refine .inForm ?_ name p
    show Logs ((namedScript name args).parts.flatMap (Part.acts below)) _
    unfold lowerNamed namedScript
    cases HeadMeaning.ofName name with
    | special special =>
      exact ((lowerSpecial_realizes P ⟨_, name, args⟩ special hitems.2).logs hl below hbelow).map _
    | dropped => exact .pure _
    | called =>
      have hcall : P.Realizes none _ _ :=
        lowerNamedCall_realizes (.list (.symbol name q :: args) p) q (P.shown.called name q hitems.1)
          hitems.2
      exact (hcall.logs hl below hbelow).map _
  | literal value q => exact .refuse _
  | list inner q =>
    have happlied : P.Performs (fun _ => True) _
        (lowerApplied · (.list (.list inner q :: args) p) (.list inner q) args) _ :=
      lowerApplied_performs _ hitems
    exact (happlied.logs hl below hbelow).map _

theorem inForm_ok {α : Type} {m : Lower α} {a : α} (h : inForm name p m c = .ok a d) : m c = .ok a d := by
  unfold inForm at h
  split at h
  · next hinner =>
    cases h
    exact hinner
  · cases h

theorem lowerList_composition (hl : Transparent P.first) (items : List SExpr) (p : Option Position)
    (hitems : ∀ t ∈ items, P.trees t) :
    Composition P.first (.list items p) (lowerList P.first items p) := by
  replace hitems := each_iff.mpr hitems
  unfold lowerList
  split
  · intro c node d hrun
    obtain ⟨rfl, rfl⟩ := pure_ok hrun
    exact ⟨false, [], {}, .nil, by simp, rfl, Bool.noConfusion, .built (.hold rfl .nil)⟩
  · next name q args =>
    have hnamed : Composition P.first (.list (.symbol name q :: args) p)
        (lowerNamed P.first (.list (.symbol name q :: args) p) name q args) := by
      unfold lowerNamed
      cases hmeaning : HeadMeaning.ofName name with
      | special special =>
        refine Composes.composition ?_ fun _ => rfl
        have hparts : SExpr.parts (.list (.symbol name q :: args) p) =
            (specialScript special args).parts := by
          simp only [SExpr.parts, SExpr.script, namedScript, hmeaning]
        have hguarded : SExpr.guarded? (.list (.symbol name q :: args) p) = special.guarded? args := by
          simp only [SExpr.guarded?, hmeaning]
        rw [hparts, hguarded]
        exact (lowerSpecial_realizes P ⟨_, name, args⟩ special hitems.2).composes hl
      | dropped =>
        have hparts : SExpr.parts (.list (.symbol name q :: args) p) = [] := by
          simp only [SExpr.parts, SExpr.script, namedScript, hmeaning, Script.parts]
        intro c node d hrun
        obtain ⟨rfl, rfl⟩ := pure_ok hrun
        exact ⟨false, [], {}, .nil, by simp, hparts.symm, Bool.noConfusion, rfl⟩
      | called =>
        refine Composes.composition ?_ fun _ => rfl
        have hparts : SExpr.parts (.list (.symbol name q :: args) p) =
            (if (methodName? name).isSome then calleeScript args else argumentsScript args).parts := by
          simp only [SExpr.parts, SExpr.script, namedScript, hmeaning]
        rw [hparts]
        exact (lowerNamedCall_realizes _ q (P.shown.called name q hitems.1) hitems.2).composes hl
    intro c node d hrun
    exact hnamed c node d (inForm_ok hrun)
  · intro c node d hrun
    cases hrun
  · next inner q args =>
    have happlied : P.Realizes none _
        (lowerApplied · (.list (.list inner q :: args) p) (.list inner q) args) :=
      .built fun _ => lowerApplied_performs _ hitems
    exact (happlied.composes hl).composition fun _ => rfl

end Lowering

end LispLowering
