import Mathlib
import LispLowering.Lowering.Traversal

/-!
# How a traversal changes its state
-/

namespace LispLowering

variable {e : Diagnostic} {frame : LoopFrame}

/-- The fault tells of an underflow of the stack of loops. -/
def Fault.isUnderflow : Fault → Bool
  | .loopUnderflow => true
  | _ => false

/-! ## The trail of a diagnostic -/

namespace Diagnostic

mutual

/-- A diagnostic and those that it goes back to. -/
def trail : Diagnostic → List Diagnostic
  | ⟨kind, code, message, location, cause, excerpt, reported⟩ =>
    ⟨kind, code, message, location, cause, excerpt, reported⟩ :: causeTrail cause

def causeTrail : Option Cause → List Diagnostic
  | none => []
  | some cause => ofCause cause

def ofCause : Cause → List Diagnostic
  | .diagnostic inner => trail inner
  | .fault _ => []

end

/-- No diagnostic on the trail tells of an underflow of the stack of loops. -/
def Blameless (d : Diagnostic) : Prop := ∀ e ∈ d.trail, ∀ p, e ≠ Fault.loopUnderflow.place p

theorem underflow_kind_code (p : Option Position) :
    (Fault.loopUnderflow.place p).kind = .transform ∧ (Fault.loopUnderflow.place p).code = 5000 := by
  have hcode : ErrorKind.transform.inferCode (Fault.message .loopUnderflow) = 5000 := by
    decide +kernel
  exact ⟨rfl, hcode⟩

theorem blameless_of_ne {d : Diagnostic} (hcause : d.cause = none)
    (h : d.kind ≠ .transform ∨ d.code ≠ 5000) : d.Blameless := by
  obtain ⟨kind, code, message, location, cause, excerpt, reported⟩ := d
  cases hcause
  intro e he p heq
  simp only [trail, causeTrail, List.mem_singleton] at he
  subst he
  obtain ⟨hkind, hcode⟩ := underflow_kind_code p
  rw [← heq] at hkind hcode
  rcases h with h | h
  · exact h hkind
  · exact h hcode

theorem blameless_fault (fault : Fault) (p : Option Position)
    (h : fault.isUnderflow = false) : (fault.place p).Blameless := by
  apply blameless_of_ne
  · unfold Fault.place
    split <;> rfl
  · have hkind : (fault.place p).kind = fault.kind := by
      unfold Fault.place
      split <;> rfl
    rw [hkind]
    cases fault with
    | loopUnderflow => cases h
    | notCallable head node => exact .inr fun hcode => by cases hcode
    | _ => exact .inl fun hkind => by cases hkind

theorem blameless_ofSyntax (fault : SyntaxFault) : (ofSyntax fault).Blameless := by
  intro e he p heq
  simp only [ofSyntax, coded, place, because, trail, causeTrail, ofCause, List.mem_singleton] at he
  subst he
  have hkind := (underflow_kind_code p).1
  rw [← heq] at hkind
  cases hkind

theorem Blameless.inForm {d : Diagnostic} (h : d.Blameless) (name : String) (p : Option Position) :
    (d.inForm name p).Blameless := by
  unfold Diagnostic.inForm
  split
  · exact h
  · intro e he q heq
    simp only [coded, place, because, trail, causeTrail, ofCause, List.mem_cons] at he
    rcases he with rfl | he
    · have hcode := (underflow_kind_code q).2
      rw [← heq] at hcode
      cases hcode
    · exact h e he q heq

end Diagnostic

/-! ## Evolving states -/

/-- The same loops, except that jumps back to the innermost one may have been counted. -/
def SameLoops : List LoopFrame → List LoopFrame → Prop
  | [], [] => True
  | frame :: rest, frame' :: rest' =>
    frame'.label = frame.label ∧ frame'.arity = frame.arity ∧ rest' = rest
  | _, _ => False

/-- The same scopes, except that the innermost one may have gained names. -/
def SameScopes : List (List String) → List (List String) → Prop
  | [], [] => True
  | scope :: rest, scope' :: rest' => scope <+: scope' ∧ rest' = rest
  | _, _ => False

theorem SameLoops.refl (loops : List LoopFrame) : SameLoops loops loops := by
  cases loops with
  | nil => trivial
  | cons frame rest => exact ⟨rfl, rfl, rfl⟩

theorem SameLoops.trans {loops loops' loops'' : List LoopFrame} (h : SameLoops loops loops')
    (h' : SameLoops loops' loops'') : SameLoops loops loops'' := by
  match loops, loops', loops'', h, h' with
  | [], [], [], _, _ => trivial
  | _ :: _, _ :: _, _ :: _, ⟨hlabel, harity, hrest⟩, ⟨hlabel', harity', hrest'⟩ =>
    exact ⟨hlabel'.trans hlabel, harity'.trans harity, hrest'.trans hrest⟩

theorem SameLoops.cons_inv {rest loops : List LoopFrame}
    (h : SameLoops (frame :: rest) loops) : ∃ top, loops = top :: rest := by
  match loops, h with
  | top :: _, ⟨_, _, rfl⟩ => exact ⟨top, rfl⟩

theorem SameScopes.refl (scopes : List (List String)) : SameScopes scopes scopes := by
  cases scopes with
  | nil => trivial
  | cons scope rest => exact ⟨List.prefix_refl _, rfl⟩

theorem SameScopes.trans {scopes scopes' scopes'' : List (List String)}
    (h : SameScopes scopes scopes') (h' : SameScopes scopes' scopes'') : SameScopes scopes scopes'' := by
  match scopes, scopes', scopes'', h, h' with
  | [], [], [], _, _ => trivial
  | _ :: _, _ :: _, _ :: _, ⟨hscope, hrest⟩, ⟨hscope', hrest'⟩ =>
    exact ⟨hscope.trans hscope', hrest'.trans hrest⟩

theorem SameScopes.tail_eq {scope : List String} {rest scopes : List (List String)}
    (h : SameScopes (scope :: rest) scopes) : scopes.tail = rest := by
  match scopes, h with
  | _ :: _, ⟨_, hrest⟩ => exact hrest

/-- What a step of lowering leaves of the surroundings in which it started. Outside of every function
there is nothing to leave early. -/
structure Evolves (c d : Context) : Prop where
  options : d.options = c.options
  directory : d.directory = c.directory
  wrapperDepth : d.wrapperDepth = c.wrapperDepth
  functionDepth : d.functionDepth = c.functionDepth
  loops : SameLoops c.loops d.loops
  scopes : SameScopes c.scopes d.scopes
  nextFresh : c.nextFresh ≤ d.nextFresh
  earlyReturn : c.functionDepth = 0 → d.earlyReturn = c.earlyReturn

theorem Evolves.refl (c : Context) : Evolves c c :=
  ⟨rfl, rfl, rfl, rfl, .refl _, .refl _, Nat.le_refl _, fun _ => rfl⟩

theorem Evolves.trans {c d e : Context} (h : Evolves c d) (h' : Evolves d e) : Evolves c e where
  options := h'.options.trans h.options
  directory := h'.directory.trans h.directory
  wrapperDepth := h'.wrapperDepth.trans h.wrapperDepth
  functionDepth := h'.functionDepth.trans h.functionDepth
  loops := h.loops.trans h'.loops
  scopes := h.scopes.trans h'.scopes
  nextFresh := Nat.le_trans h.nextFresh h'.nextFresh
  earlyReturn := fun hc => (h'.earlyReturn (h.functionDepth.trans hc)).trans (h.earlyReturn hc)

namespace Suspension

@[simp] theorem union_empty (s : Suspension) : s.union {} = s := by
  simp [union]

@[simp] theorem empty_union (s : Suspension) : union {} s = s := by
  simp [union]

theorem union_assoc (s t u : Suspension) : (s.union t).union u = s.union (t.union u) := by
  simp [union, Bool.or_assoc]

end Suspension

/-! ## Twin states -/

/-- A view of registries: the names that a step may use, when two registries look alike to it, and how
a registry may grow. -/
structure RegistryView where
  visible : String → Prop
  alike : Registry → Registry → Prop
  grows : Registry → Registry → Prop
  grows_refl : ∀ r, grows r r
  grows_trans : ∀ {r s t : Registry}, grows r s → grows s t → grows r t
  get?_eq : ∀ {r r' : Registry} {name : String}, alike r r' → visible name → r'.get? name = r.get? name
  declare_ok : ∀ {r r' s : Registry} {name : String} {entry : FunctionEntry}, alike r r' →
    visible name → r.declare name entry = .ok s →
    ∃ s', r'.declare name entry = .ok s' ∧ alike s s'
  declare_error : ∀ {r r' : Registry} {name : String} {entry : FunctionEntry} {d : Diagnostic},
    alike r r' → visible name → r.declare name entry = .error d → r'.declare name entry = .error d

/-- The view in which every name is visible and only equal registries look alike. -/
def RegistryView.full : RegistryView where
  visible := fun _ => True
  alike := Eq
  grows := fun _ _ => True
  grows_refl := fun _ => trivial
  grows_trans := fun _ _ => trivial
  get?_eq := by rintro r _ name rfl _; rfl
  declare_ok := by rintro r _ s name entry rfl _ h; exact ⟨s, h, rfl⟩
  declare_error := by rintro r _ name entry d rfl _ h; exact h

variable {V : RegistryView}

/-- Two states that differ at most in what the code waits for, in what the view does not show of their
registries, and in the record of declarations. -/
structure Twin (V : RegistryView) (c c' : Context) : Prop where
  same : c' = { c with
    registry := c'.registry, suspension := c'.suspension, declarations := c'.declarations }
  registry : V.alike c.registry c'.registry

/-- From the first pair of states to the second one, the same declarations were tried. -/
def SameTries (c c' d d' : Context) : Prop :=
  ∃ log, d.declarations = c.declarations ++ log ∧ d'.declarations = c'.declarations ++ log

theorem SameTries.refl (c c' : Context) : SameTries c c' c c' :=
  ⟨[], (List.append_nil _).symm, (List.append_nil _).symm⟩

theorem SameTries.eq {c c' d d' : Context} (h : SameTries c c' d d')
    (hc : c'.declarations = c.declarations) : d'.declarations = d.declarations := by
  obtain ⟨log, hlog, hlog'⟩ := h
  rw [hlog', hlog, hc]

theorem SameTries.snoc {c c' d d' : Context} (h : SameTries c c' d d')
    (row : String × FunctionEntry) :
    SameTries c c' { d with declarations := d.declarations ++ [row] }
      { d' with declarations := d'.declarations ++ [row] } := by
  obtain ⟨log, hlog, hlog'⟩ := h
  refine ⟨log ++ [row], ?_, ?_⟩
  · rw [hlog, List.append_assoc]
  · rw [hlog', List.append_assoc]

/-- The states after two steps that started in a pair of states: the first has evolved and its registry
has grown, they are twins, both have tried the same declarations, and the code waits for the same things
more in both. -/
structure After (V : RegistryView) (c c' d d' : Context) : Prop where
  evolves : Evolves c d
  grows : V.grows c.registry d.registry
  twin : Twin V d d'
  tries : SameTries c c' d d'
  waits : ∃ δ, d.suspension = c.suspension.union δ ∧ d'.suspension = c'.suspension.union δ

variable {c c' d : Context}

theorem After.refl (h : Twin V c c') : After V c c' c c' :=
  ⟨.refl _, V.grows_refl _, h, .refl _ _, {}, by simp, by simp⟩

theorem After.trans {c c' d d' e e' : Context} (h : After V c c' d d') (h' : After V d d' e e') :
    After V c c' e e' := by
  obtain ⟨δ, hd, hd'⟩ := h.waits
  obtain ⟨ε, he, he'⟩ := h'.waits
  obtain ⟨log, hlog, hlog'⟩ := h.tries
  obtain ⟨later, hlater, hlater'⟩ := h'.tries
  refine ⟨h.evolves.trans h'.evolves, V.grows_trans h.grows h'.grows, h'.twin,
    ⟨log ++ later, ?_, ?_⟩, δ.union ε, ?_, ?_⟩
  · rw [hlater, hlog, List.append_assoc]
  · rw [hlater', hlog', List.append_assoc]
  · rw [he, hd, Suspension.union_assoc]
  · rw [he', hd', Suspension.union_assoc]

theorem Twin.move (h : Twin V c c') (hd : d.registry = c.registry) :
    Twin V d { d with registry := c'.registry } :=
  ⟨rfl, hd ▸ h.registry⟩

theorem Twin.eq_with (h : Twin V c c') : ∃ r s l, V.alike c.registry r ∧
      c' = { c with registry := r, suspension := s, declarations := l } :=
  ⟨c'.registry, c'.suspension, c'.declarations, h.registry, h.same⟩

/-! ## Steps that succeed -/

section

variable {α β : Type}

theorem bind_ok {m : Lower α} {f : α → Lower β} {b : β} (h : (m >>= f) c = .ok b d) :
    ∃ a c', m c = .ok a c' ∧ f a c' = .ok b d := by
  simp only [bind, EStateM.bind] at h
  split at h
  · exact ⟨_, _, ‹_›, h⟩
  · cases h

theorem bind_ok_iff {m : Lower α} {f : α → Lower β} {b : β} :
    (m >>= f) c = .ok b d ↔ ∃ a c', m c = .ok a c' ∧ f a c' = .ok b d := by
  refine ⟨bind_ok, ?_⟩
  rintro ⟨a, c', hm, hf⟩
  simpa [bind, EStateM.bind, hm] using hf

theorem bind_error_iff {m : Lower α} {f : α → Lower β} :
    (m >>= f) c = .error e d ↔ m c = .error e d ∨ ∃ a c', m c = .ok a c' ∧ f a c' = .error e d := by
  cases hm : m c <;> simp [bind, EStateM.bind, hm]

theorem pure_ok {a b : α} (h : (pure a : Lower α) c = .ok b d) : b = a ∧ d = c := by
  cases h
  exact ⟨rfl, rfl⟩

theorem map_ok {m : Lower α} {g : α → β} {b : β} (h : (m >>= fun a => pure (g a)) c = .ok b d) :
    ∃ a, m c = .ok a d ∧ b = g a := by
  obtain ⟨a, c', hm, h⟩ := bind_ok h
  obtain ⟨rfl, rfl⟩ := pure_ok h
  exact ⟨a, hm, rfl⟩

theorem within_ok {enter : Context → Context} {leave : Context → Context → Context}
    {result : Context → α → β} {m : Lower α} {b : β} (h : Lower.within enter leave result m c = .ok b d)
    : ∃ a after, m (enter c) = .ok a after ∧ b = result after a ∧ d = leave c after := by
  unfold Lower.within at h
  split at h
  · next hrun =>
    cases h
    exact ⟨_, _, hrun, rfl, rfl⟩
  · cases h

theorem inLoop_ok {m : Lower α} {r : α × LoopFrame} (h : Lower.inLoop frame m c = .ok r d) :
    ∃ after rest, m { c with loops := frame :: c.loops } = .ok r.1 after ∧ after.loops = r.2 :: rest ∧
      d = { after with loops := rest } := by
  unfold Lower.inLoop at h
  split at h
  · next hrun =>
    split at h
    · next hloops =>
      cases h
      exact ⟨_, _, hrun, hloops, rfl⟩
    · cases h
  · cases h

end

/-- If the step succeeds, its result has the property. -/
def Ensures {α : Type} (m : Lower α) (U : α → Prop) : Prop := ∀ c a d, m c = .ok a d → U a

namespace Ensures

variable {α β : Type} {m : Lower α} {U W : α → Prop} {U' : β → Prop}

theorem pure {a : α} (h : U a) : Ensures (Pure.pure a) U := by
  intro c b d hrun
  obtain ⟨rfl, -⟩ := pure_ok hrun
  exact h

theorem refuse (e : Diagnostic) : Ensures (Lower.refuse e : Lower α) U := by
  intro c a d hrun
  cases hrun

theorem bind {k : α → Lower β} (hm : Ensures m U) (hk : ∀ a, U a → Ensures (k a) U') :
    Ensures (m >>= k) U' := by
  intro c b d hrun
  obtain ⟨a, e, ha, hb⟩ := bind_ok hrun
  exact hk a (hm c a e ha) e b d hb

theorem after {k : α → Lower β} (hk : ∀ a, Ensures (k a) U') : Ensures (m >>= k) U' := by
  intro c b d hrun
  obtain ⟨a, e, -, hb⟩ := bind_ok hrun
  exact hk a e b d hb

theorem ite {p : Prop} [Decidable p] (h : Ensures m U) (h' : Ensures m' U) :
    Ensures (if p then m else m') U := by
  split
  · exact h
  · exact h'

theorem imp (h : Ensures m U) (himp : ∀ a, U a → W a) : Ensures m W :=
  fun c a d hrun => himp a (h c a d hrun)

end Ensures

/-! ## Outcomes -/

/-- Two outcomes of steps that started in a pair of states: both succeed with the same value, or both
fail with the same diagnostic, which does not tell of an underflow. -/
inductive Outcome (V : RegistryView) {α : Type} (c c' : Context) :
    EStateM.Result Diagnostic Context α → EStateM.Result Diagnostic Context α → Prop where
  | ok {a : α} {d d' : Context} : After V c c' d d' → Outcome V c c' (.ok a d) (.ok a d')
  | error {e : Diagnostic} {d d' : Context} :
      e.Blameless → After V c c' d d' → Outcome V c c' (.error e d) (.error e d')

namespace Outcome

variable {α β : Type} {c c' : Context} {m m' : Lower α}

theorem after {d' : Context} {r r' : EStateM.Result Diagnostic Context α} (h : Outcome V d d' r r')
    (hd : After V c c' d d') : Outcome V c c' r r' := by
  cases h with
  | ok hafter => exact .ok (hd.trans hafter)
  | error he hafter => exact .error he (hd.trans hafter)

theorem of_ok (h : Outcome V c c' (m c) (m' c')) {a : α} (hrun : m c = .ok a d) :
    ∃ d', m' c' = .ok a d' ∧ After V c c' d d' := by
  rw [hrun] at h
  generalize m' c' = r' at h ⊢
  cases h with
  | ok hafter => exact ⟨_, rfl, hafter⟩

theorem bindFrom {d' : Context} {f f' : α → Lower β} (hm : Outcome V c c' (m d) (m' d'))
    (hf : ∀ a e e', m d = .ok a e → After V c c' e e' → Outcome V c c' (f a e) (f' a e')) :
    Outcome V c c' ((m >>= f) d) ((m' >>= f') d') := by
  show Outcome V c c' (EStateM.bind m f d) (EStateM.bind m' f' d')
  unfold EStateM.bind
  generalize hrun : m d = r at hm ⊢
  generalize m' d' = r' at hm ⊢
  cases hm with
  | ok hafter => exact hf _ _ _ hrun hafter
  | error he hafter => exact .error he hafter

theorem bind {f f' : α → Lower β} (hm : Outcome V c c' (m c) (m' c'))
    (hf : ∀ a d d', m c = .ok a d → After V c c' d d' → Outcome V d d' (f a d) (f' a d')) :
    Outcome V c c' ((m >>= f) c) ((m' >>= f') c') :=
  hm.bindFrom fun a d d' hrun hafter => (hf a d d' hrun hafter).after hafter

/-! ### Surroundings -/

theorem within {enter : Context → Context} {leave : Context → Context → Context}
    {result : Context → α → β} (hm : Outcome V (enter c) (enter c') (m (enter c)) (m' (enter c')))
    (hleave : ∀ d d', After V (enter c) (enter c') d d' → After V c c' (leave c d) (leave c' d'))
    (hresult : ∀ d d' a, After V (enter c) (enter c') d d' → result d' a = result d a) :
    Outcome V c c' (Lower.within enter leave result m c) (Lower.within enter leave result m' c') := by
  unfold Lower.within
  generalize m (enter c) = r at hm ⊢
  generalize m' (enter c') = r' at hm ⊢
  cases hm with
  | ok hafter =>
    dsimp only
    rw [hresult _ _ _ hafter]
    exact .ok (hleave _ _ hafter)
  | error he hafter => exact .error he (hleave _ _ hafter)

section

variable (hc : Twin V c c') (hm : ∀ d d', Twin V d d' → d.scopes = c.scopes → Outcome V d d' (m d) (m' d'))

include hc hm

theorem tracking : Outcome V c c' (Lower.tracking m c) (Lower.tracking m' c') := by
  obtain ⟨r, s, l, hr, rfl⟩ := hc.eq_with
  refine within (hm _ _ ⟨rfl, hr⟩ rfl) ?_ ?_
  · intro d d' hafter
    obtain ⟨r, s, l, hr, rfl⟩ := hafter.twin.eq_with
    obtain ⟨δ, hδ, hδ'⟩ := hafter.waits
    simp only [Suspension.empty_union] at hδ hδ'
    subst hδ hδ'
    have hinner := hafter.evolves
    exact ⟨{ hinner with }, hafter.grows, ⟨rfl, hr⟩, hafter.tries, d.suspension, rfl, rfl⟩
  · intro d d' a hafter
    obtain ⟨δ, hδ, hδ'⟩ := hafter.waits
    rw [hδ, hδ']

theorem inExpression : Outcome V c c' (Lower.inExpression m c) (Lower.inExpression m' c') := by
  obtain ⟨r, s, l, hr, rfl⟩ := hc.eq_with
  refine within (tracking ⟨rfl, hr⟩ fun d d' hd hscopes => hm d d' hd hscopes) ?_ fun _ _ _ _ => rfl
  intro d d' hafter
  obtain ⟨r, s, l, hr, rfl⟩ := hafter.twin.eq_with
  have hinner := hafter.evolves
  -- the depth inside is one more, so one less is the depth outside
  have hdepth : d.wrapperDepth - 1 = c.wrapperDepth := Nat.sub_eq_of_eq_add hinner.wrapperDepth
  exact ⟨{ hinner with wrapperDepth := hdepth }, hafter.grows, ⟨rfl, hr⟩, hafter.tries, hafter.waits⟩

theorem inFunction : Outcome V c c' (Lower.inFunction m c) (Lower.inFunction m' c') := by
  obtain ⟨r, s, l, hr, rfl⟩ := hc.eq_with
  refine within (hm _ _ ⟨rfl, hr⟩ rfl) ?_ ?_
  · intro d d' hafter
    obtain ⟨r, s, l, hr, rfl⟩ := hafter.twin.eq_with
    have hinner := hafter.evolves
    have hdepth : d.functionDepth - 1 = c.functionDepth := Nat.sub_eq_of_eq_add hinner.functionDepth
    refine ⟨?_, hafter.grows, ⟨rfl, hr⟩, hafter.tries, {}, by simp, by simp⟩
    exact { hinner with
      wrapperDepth := rfl, functionDepth := hdepth, loops := .refl _, earlyReturn := fun _ => rfl }
  · intro d d' a hafter
    obtain ⟨r, s, l, hr, rfl⟩ := hafter.twin.eq_with
    rfl

end

theorem inScope {names : List String} (hc : Twin V c c')
    (hm : ∀ d d', Twin V d d' → d.scopes = names :: c.scopes → Outcome V d d' (m d) (m' d')) :
    Outcome V c c' (Lower.inScope names m c) (Lower.inScope names m' c') := by
  obtain ⟨r, s, l, hr, rfl⟩ := hc.eq_with
  refine within (hm _ _ ⟨rfl, hr⟩ rfl) ?_ fun _ _ _ _ => rfl
  intro d d' hafter
  obtain ⟨r, s, l, hr, rfl⟩ := hafter.twin.eq_with
  have hinner := hafter.evolves
  refine ⟨{ hinner with scopes := ?_ }, hafter.grows, ⟨rfl, hr⟩, hafter.tries, hafter.waits⟩
  rw [hinner.scopes.tail_eq]
  exact .refl _

theorem inLoop (hc : Twin V c c')
    (hm : ∀ d d', Twin V d d' → d.scopes = c.scopes → Outcome V d d' (m d) (m' d')) :
    Outcome V c c' (Lower.inLoop frame m c) (Lower.inLoop frame m' c') := by
  obtain ⟨r, s, l, hr, rfl⟩ := hc.eq_with
  have hinner := hm { c with loops := frame :: c.loops }
    { c with loops := frame :: c.loops, registry := r, suspension := s, declarations := l }
    ⟨rfl, hr⟩ rfl
  unfold Lower.inLoop
  generalize m { c with loops := frame :: c.loops } = x at hinner ⊢
  generalize m' { c with
    loops := frame :: c.loops, registry := r, suspension := s, declarations := l } = x' at hinner ⊢
  cases hinner with
  | ok hafter =>
    obtain ⟨r', s', l', hr', rfl⟩ := hafter.twin.eq_with
    have hevolves := hafter.evolves
    obtain ⟨top, htop⟩ := hevolves.loops.cons_inv
    simp only [htop]
    exact .ok ⟨{ hevolves with loops := .refl _ }, hafter.grows, ⟨rfl, hr'⟩, hafter.tries, hafter.waits⟩
  | error he hafter =>
    obtain ⟨r', s', l', hr', rfl⟩ := hafter.twin.eq_with
    have hevolves := hafter.evolves
    obtain ⟨top, htop⟩ := hevolves.loops.cons_inv
    simp only [htop, List.tail_cons]
    exact .error he ⟨{ hevolves with loops := .refl _ }, hafter.grows, ⟨rfl, hr'⟩, hafter.tries, hafter.waits⟩

end Outcome

/-! ## Agreement -/

/-- Two steps agree if they have the same outcome from any pair of twins. -/
def Agree (V : RegistryView) {α : Type} (m m' : Lower α) : Prop :=
  ∀ c c', Twin V c c' → Outcome V c c' (m c) (m' c')

namespace Agree

variable {α β : Type}

theorem pure (a : α) : Agree V (Pure.pure a) (Pure.pure a) := fun _ _ h => .ok (.refl h)

theorem bind {m m' : Lower α} {f f' : α → Lower β} (hm : Agree V m m')
    (hf : ∀ a, Agree V (f a) (f' a)) : Agree V (m >>= f) (m' >>= f') :=
  fun c c' h => .bind (hm c c' h) fun a d d' _ hafter => hf a d d' hafter.twin

theorem map {m m' : Lower α} (hm : Agree V m m') (f : α → β) : Agree V (f <$> m) (f <$> m') :=
  bind hm fun a => pure (f a)

theorem refuse (he : e.Blameless) : Agree V (Lower.refuse e : Lower α) (Lower.refuse e) :=
  fun _ _ h => .error he (.refl h)

theorem fault (fault : Fault) (p : Option Position) (h : fault.isUnderflow = false) :
    Agree V (Lower.refuse (fault.place p) : Lower α) (Lower.refuse (fault.place p)) :=
  refuse (Diagnostic.blameless_fault fault p h)

theorem each {step step' : α → Lower β} {items : List α}
    (h : ∀ item ∈ items, Agree V (step item) (step' item)) :
    Agree V (Lower.each step items) (Lower.each step' items) := by
  induction items with
  | nil => exact pure []
  | cons item rest ih =>
    refine bind (h item (.head _)) fun first => ?_
    refine bind (ih fun item hitem => h item (.tail _ hitem)) fun others => ?_
    exact pure (first :: others)

theorem fresh (stem : String) : Agree V (Lower.fresh stem) (Lower.fresh stem) := by
  intro c c' h
  obtain ⟨r, s, l, hr, rfl⟩ := h.eq_with
  refine .ok ⟨?_, V.grows_refl _, ⟨rfl, hr⟩, .refl _ _, {}, by simp, by simp⟩
  exact { Evolves.refl c with nextFresh := Nat.le_succ _ }

theorem bindTarget (target : Node) : Agree V (Lower.bind target) (Lower.bind target) := by
  intro c c' h
  obtain ⟨r, s, l, hr, rfl⟩ := h.eq_with
  refine .ok ⟨?_, V.grows_refl _, ⟨rfl, hr⟩, .refl _ _, {}, by simp, by simp⟩
  refine { Evolves.refl c with scopes := ?_ }
  cases hc : c.scopes with
  | nil => trivial
  | cons scope rest => exact ⟨List.prefix_append _ _, rfl⟩

theorem note {δ : Suspension} {m : Lower Unit}
    (hm : ∀ c, m c = .ok () { c with suspension := c.suspension.union δ }) : Agree V m m := by
  intro c c' h
  obtain ⟨r, s, l, hr, rfl⟩ := h.eq_with
  rw [hm, hm]
  exact .ok ⟨{ Evolves.refl c with }, V.grows_refl _, ⟨rfl, hr⟩, .refl _ _, δ, rfl, rfl⟩

theorem noteAwait : Agree V Lower.noteAwait Lower.noteAwait :=
  note (δ := { awaits := true }) fun c => by
    simp [Lower.noteAwait, modify, modifyGet, MonadStateOf.modifyGet, EStateM.modifyGet, Suspension.union]

theorem noteYield : Agree V Lower.noteYield Lower.noteYield :=
  note (δ := { yields := true }) fun c => by
    simp [Lower.noteYield, modify, modifyGet, MonadStateOf.modifyGet, EStateM.modifyGet, Suspension.union]

end Agree

end LispLowering
