import LispLowering.Proofs.Faultless
import LispLowering.Proofs.Scoping.Script
import LispLowering.Proofs.Stages

/-!
# Steps that follow a script
-/

namespace LispLowering

open List Lower Script Scopes

/-! ## Scripts one after another -/

namespace Script

variable {noted : SExpr → List String}

theorem append_assoc (s s' s'' : Script) : s ++ s' ++ s'' = s ++ (s' ++ s'') := by
  show (s.append s').append s'' = s.append (s'.append s'')
  induction s with
  | done => rfl
  | visit _ _ _ ih | bind _ _ ih | unnoted _ _ ih | scope _ _ _ _ ih | block _ _ _ ih
  | act _ _ ih => simp only [append, ih]

theorem append_done (s : Script) : s ++ .done = s := by
  show s.append .done = s
  induction s with
  | done => rfl
  | visit _ _ _ ih | bind _ _ ih | unnoted _ _ ih | scope _ _ _ _ ih | block _ _ _ ih
  | act _ _ ih => simp only [append, ih]

theorem values_append (ts ts' : List SExpr) : values (ts ++ ts') = values ts ++ values ts' := by
  induction ts with
  | nil => rfl
  | cons t rest ih =>
    show value t ++ values (rest ++ ts') = value t ++ values rest ++ values ts'
    rw [ih, append_assoc]

theorem notedNames_append (s s' : Script) :
    (s ++ s').notedNames noted = s.notedNames noted ++ s'.notedNames noted := by
  show (s.append s').notedNames noted = _
  induction s with
  | done => rfl
  | visit _ _ _ ih | bind _ _ ih | block _ _ _ ih =>
    simp only [append, notedNames, ih, List.append_assoc]
  | unnoted _ _ ih | scope _ _ _ _ ih | act _ _ ih => simp only [append, notedNames, ih]

theorem visits_append (s s' : Script) (scopes : Scopes) : (s ++ s').visits noted scopes =
      s.visits noted scopes ++ s'.visits noted (scopes.extend (s.notedNames noted)) := by
  show (s.append s').visits noted scopes = _
  induction s generalizing scopes with
  | done => simp only [append, visits, notedNames, extend_nil, nil_append]
  | visit _ _ _ ih => simp only [append, visits, notedNames, ih, extend_extend, cons_append]
  | bind _ _ ih => simp only [append, visits, notedNames, ih, extend_extend]
  | unnoted _ _ ih | act _ _ ih => simp only [append, visits, notedNames, ih]
  | scope _ _ _ _ ih | block _ _ _ ih =>
    simp only [append, visits, notedNames, ih, extend_extend, List.append_assoc]

theorem notedNames_inPlace (place : Place) (s : Script) :
    (s.inPlace place).notedNames noted = s.notedNames noted := by
  induction s with
  | done => rfl
  | block _ _ ih ih' => simp only [inPlace, notedNames, ih, ih']
  | visit _ _ _ ih | bind _ _ ih | unnoted _ _ ih | scope _ _ _ _ ih | act _ _ ih =>
    simp only [inPlace, notedNames, ih]

theorem visits_inPlace (place : Place) (s : Script) (scopes : Scopes) :
    (s.inPlace place).visits noted scopes = s.visits noted scopes := by
  induction s generalizing scopes with
  | done => rfl
  | scope _ _ _ ih ih' | block _ _ ih ih' =>
    simp only [inPlace, visits, ih, ih', notedNames_inPlace]
  | visit _ _ _ ih | bind _ _ ih | unnoted _ _ ih | act _ _ ih => simp only [inPlace, visits, ih]

end Script

/-! ## Two ways of lowering -/

/-- A view shows every name in the trees with the property `T`, which lists pass on to their items:
as the head of a call, and as the name of a function. -/
structure Shown (V : RegistryView) (T : SExpr → Prop) : Prop where
  hereditary : Hereditary T
  called : ∀ name p, T (.symbol name p) → V.visible (Symbol.identifier name)
  declared : ∀ name p, T (.symbol name p) →
    V.visible (Symbol.identifier (GenericName.ofSymbol name).name)

/-- Declaring a function is a way in which a registry may grow, if the function was declared with the
targets that its parameters were lowered to. -/
def Declares (V : RegistryView) (T : SExpr → Prop) (lower : Lowerer) : Prop :=
  ∀ (spec : Lowering.FunctionSpec) (c d : Context) (targets : List Node) (name : String)
    (registry : Registry),
    (∀ t ∈ spec.params.defaults, T t) → spec.Declaring name targets →
    Lowering.lowerParamTargets lower 0 spec.params.params c = .ok targets d →
    V.grows c.registry d.registry → d.registry.declare name (spec.entry targets) = .ok registry →
    V.grows c.registry registry

/-- Two ways of lowering trees, the names that the first one adds to the scope around a tree, and what is
seen of the declared functions. -/
structure Comparison where
  first : Lowerer
  second : Lowerer
  noted : SExpr → List String
  view : RegistryView
  trees : SExpr → Prop
  scopes_first : ∀ {tree : SExpr} {c d : Context} {result : Option Node},
    first tree c = .ok result d → d.scopes = extend c.scopes (noted tree)
  noted_leaf : ∀ {tree : SExpr}, tree.items? = none → noted tree = []
  shown : Shown view trees
  declares : Declares view trees first

/-- The two ways agree on a tree that is compared, with given scopes around it. -/
def Comparison.AgreesAt (P : Comparison) (visit : SExpr × Scopes) : Prop :=
  P.trees visit.1 → ∀ c c', Twin P.view c c' → c.scopes = visit.2 →
    Outcome P.view c c' (P.first visit.1 c) (P.second visit.1 c')

/-- Two steps follow a script: they agree if the two ways of lowering agree wherever the script goes. Then
the scopes are extended by the names of the script, and the result has the property. -/
def Follows {α : Type} (P : Comparison) (s : Script) (R : α → Prop) (m m' : Lower α) : Prop :=
  ∀ c c', Twin P.view c c' → (∀ visit ∈ s.visits P.noted c.scopes, P.AgreesAt visit) →
    Outcome P.view c c' (m c) (m' c') ∧
      ∀ a d, m c = .ok a d → d.scopes = extend c.scopes (s.notedNames P.noted) ∧ R a

abbrev Comparison.Walks {α : Type} (P : Comparison) (s : Script) (step : Lowerer → Lower α) : Prop :=
  Follows P s (fun _ => True) (step P.first) (step P.second)

/-- A step that leaves the scopes as they are, and does not look at the declared functions. -/
structure Steady {α : Type} (R : α → Prop) (m : Lower α) : Prop where
  agree : ∀ V, Agree V m m
  ends : ∀ c a d, m c = .ok a d → d.scopes = c.scopes ∧ R a

/-! ## Steady steps -/

namespace Steady

variable {α β : Type} {R R' : α → Prop} {Q : β → Prop} {m : Lower α}

theorem pure {a : α} (h : R a) : Steady R (Pure.pure a) where
  agree := fun _ => .pure a
  ends := by
    rintro c _ _ ⟨⟩
    exact ⟨rfl, h⟩

theorem refuse {e : Diagnostic} (h : e.Blameless) : Steady R (Lower.refuse e : Lower α) where
  agree := fun _ => .refuse h
  ends := by
    rintro _ _ _ ⟨⟩

theorem fault {fault : Fault} {p : Option Position} (h : fault.isUnderflow = false) :
    Steady R (Lower.refuse (fault.place p) : Lower α) :=
  .refuse (Diagnostic.blameless_fault fault p h)

theorem bind {k : α → Lower β} (hm : Steady R m) (hk : ∀ a, R a → Steady Q (k a)) : Steady Q (m >>= k) where
  agree := fun V c c' hc => .bind (hm.agree V c c' hc) fun a d d' hrun hafter =>
    (hk a (hm.ends c a d hrun).2).agree V d d' hafter.twin
  ends := by
    intro c b e hrun
    obtain ⟨a, d, hfirst, hsecond⟩ := bind_ok hrun
    obtain ⟨hd, ha⟩ := hm.ends c a d hfirst
    obtain ⟨he, hb⟩ := (hk a ha).ends d b e hsecond
    exact ⟨he.trans hd, hb⟩

theorem imp (h : Steady R m) (himp : ∀ a, R a → R' a) : Steady R' m :=
  ⟨h.agree, fun c a d hrun => (h.ends c a d hrun).imp_right (himp a)⟩

theorem ite {p : Prop} [Decidable p] {m' : Lower α} (h : Steady R m) (h' : Steady R m') :
    Steady R (if p then m else m') := by
  split
  · exact h
  · exact h'

theorem get {k : Context → Lower α} (hsame : ∀ c r s l, k { c with registry := r, suspension := s, declarations := l } = k c)
    (h : ∀ c, Steady R (k c)) : Steady R (get >>= k) where
  agree := by
    intro V c c' hc
    obtain ⟨r, s, l, -, heq⟩ := hc.eq_with
    show Outcome V c c' (k c c) (k c' c')
    rw [show k c' = k c from heq ▸ hsame c r s l]
    exact (h c).agree V c c' hc
  ends := fun c => (h c).ends c

theorem ofExcept {x : Except Diagnostic α} (h : Faultless x) :
    Steady (fun a => x = .ok a) (Lower.ofExcept x) := by
  cases x with
  | ok a => exact .pure rfl
  | error e => exact .refuse (h e rfl)

theorem ofSyntax (x : Except SyntaxFault α) : Steady (fun a => x = .ok a) (ofSyntax x) := by
  cases x with
  | ok a => exact .pure rfl
  | error fault => exact .refuse (Diagnostic.blameless_ofSyntax fault)

theorem fresh (stem : String) : Steady (fun _ => True) (fresh stem) where
  agree := fun _ => .fresh stem
  ends := by
    rintro c _ _ ⟨⟩
    exact ⟨rfl, trivial⟩

theorem noteAwait : Steady (fun _ => True) noteAwait where
  agree := fun _ => .noteAwait
  ends := by
    rintro c _ _ ⟨⟩
    exact ⟨rfl, trivial⟩

theorem noteYield : Steady (fun _ => True) noteYield where
  agree := fun _ => .noteYield
  ends := by
    rintro c _ _ ⟨⟩
    exact ⟨rfl, trivial⟩

end Steady

/-! ## Steps -/

namespace Follows

variable {α β : Type} {P : Comparison} {s s' : Script} {R R' : α → Prop} {Q : β → Prop}
  {m m' : Lower α}

theorem silent (hs : s.notedNames P.noted = []) (h : Steady R m) : Follows P s R m m := by
  refine fun c c' hc _ => ⟨h.agree _ c c' hc, fun a d hrun => ?_⟩
  rw [hs, extend_nil]
  exact h.ends c a d hrun

theorem steady (h : Steady R m) : Follows P .done R m m := .silent rfl h

theorem pure {a : α} (h : R a) : Follows P .done R (Pure.pure a) (Pure.pure a) := .steady (.pure h)

theorem fault {fault : Fault} {p : Option Position} (h : fault.isUnderflow = false) :
    Follows P s R (Lower.refuse (fault.place p) : Lower α) (Lower.refuse (fault.place p)) :=
  fun c c' hc _ => ⟨Agree.fault fault p h c c' hc, by rintro _ _ ⟨⟩⟩

theorem visit {place : Place} {tree : SExpr} (ht : P.trees tree) :
    Follows P (.visit place tree .done) (fun _ => True) (P.first tree) (P.second tree) := by
  intro c c' hc hagree
  refine ⟨hagree (tree, c.scopes) (.head _) ht c c' hc rfl, fun _ d hrun => ?_⟩
  simp only [notedNames, append_nil]
  exact ⟨P.scopes_first hrun, trivial⟩

theorem imp (h : Follows P s R m m') (himp : ∀ a, R a → R' a) : Follows P s R' m m' := by
  intro c c' hc hagree
  obtain ⟨hout, hok⟩ := h c c' hc hagree
  exact ⟨hout, fun a d hrun => ⟨(hok a d hrun).1, himp a (hok a d hrun).2⟩⟩

theorem bind {k k' : α → Lower β} (hm : Follows P s R m m') (hk : ∀ a, R a → Follows P s' Q (k a) (k' a)) :
    Follows P (s ++ s') Q (m >>= k) (m' >>= k') := by
  intro c c' hc hagree
  rw [visits_append, forall_mem_append] at hagree
  obtain ⟨hout, hok⟩ := hm c c' hc hagree.1
  -- the second script starts with the scopes that the first one leaves
  have hsecond (a : α) (d d' : Context) (hrun : m c = .ok a d) (hafter : After P.view c c' d d') :=
    hk a (hok a d hrun).2 d d' hafter.twin ((hok a d hrun).1 ▸ hagree.2)
  refine ⟨.bind hout fun a d d' hrun hafter => (hsecond a d d' hrun hafter).1, fun b e hrun => ?_⟩
  obtain ⟨a, d, hfirst, hrun⟩ := bind_ok hrun
  obtain ⟨d', -, hafter⟩ := hout.of_ok hfirst
  rw [notedNames_append, ← extend_extend, ← (hok a d hfirst).1]
  exact (hsecond a d d' hfirst hafter).2 b e hrun

theorem steadyThen {k k' : α → Lower β} (hm : Steady R m)
    (hk : ∀ a, R a → Follows P s Q (k a) (k' a)) : Follows P s Q (m >>= k) (m >>= k') :=
  .bind (.steady hm) hk

theorem thenSteady {k : α → Lower β} (hm : Follows P s R m m') (hk : ∀ a, R a → Steady Q (k a)) :
    Follows P s Q (m >>= k) (m' >>= k) := by
  have h : Follows P (s ++ .done) Q (m >>= k) (m' >>= k) := .bind hm fun a ha => .steady (hk a ha)
  rwa [append_done] at h

theorem map {g : α → β} (h : Follows P s R m m') (hg : ∀ a, R a → Q (g a)) :
    Follows P s Q (m >>= fun a => Pure.pure (g a)) (m' >>= fun a => Pure.pure (g a)) :=
  .thenSteady h fun a ha => .pure (hg a ha)

theorem wrap {g : α → β} (h : Follows P s R m m') :
    Follows P s (fun _ => True) (m >>= fun a => Pure.pure (g a)) (m' >>= fun a => Pure.pure (g a)) :=
  .map h fun _ _ => trivial

theorem ite {p : Prop} [Decidable p] {n n' : Lower α} (h : Follows P s R m m')
    (h' : Follows P s R n n') : Follows P s R (if p then m else n) (if p then m' else n') := by
  split
  · exact h
  · exact h'

theorem get {k k' : Context → Lower α}
    (hsame : ∀ c r s l, k' { c with registry := r, suspension := s, declarations := l } = k' c)
    (h : ∀ c, Follows P s R (k c) (k' c)) : Follows P s R (get >>= k) (get >>= k') := by
  intro c c' hc hagree
  obtain ⟨r, s, l, -, heq⟩ := hc.eq_with
  show Outcome P.view c c' (k c c) (k' c' c') ∧ _
  rw [show k' c' = k' c from heq ▸ hsame c r s l]
  exact h c c c' hc hagree

/-! ## Surroundings -/

theorem ends_within {enter : Context → Context} {leave : Context → Context → Context}
    {result : Context → α → β} {c c' : Context} (hc : Twin P.view c c')
    (hagree : ∀ visit ∈ s.visits P.noted c.scopes, P.AgreesAt visit)
    (hreg : (enter c).registry = c.registry) (henter : (enter c).scopes = c.scopes)
    (hleave : ∀ d, (leave c d).scopes = d.scopes) (hresult : ∀ d a, R a → Q (result d a))
    (h : Follows P s R m m') : ∀ b d, within enter leave result m c = .ok b d →
      d.scopes = extend c.scopes (s.notedNames P.noted) ∧ Q b := by
  intro b d hrun
  obtain ⟨a, after, hinner, rfl, rfl⟩ := within_ok hrun
  obtain ⟨hd, ha⟩ := (h _ _ (hc.move hreg) (henter ▸ hagree)).2 a after hinner
  exact ⟨by rw [hleave, hd, henter], hresult after a ha⟩

theorem tracking (h : Follows P s R m m') : Follows P s (fun r => R r.1) (tracking m) (tracking m') :=
  fun _ _ hc hagree => ⟨.tracking hc fun d d' hd hscopes => (h d d' hd (hscopes ▸ hagree)).1,
    ends_within hc hagree rfl rfl (fun _ => rfl) (fun _ _ ha => ha) h⟩

theorem inExpression (h : Follows P s R m m') :
    Follows P s (fun r => R r.1) (inExpression m) (inExpression m') :=
  fun _ _ hc hagree => ⟨.inExpression hc fun d d' hd hscopes => (h d d' hd (hscopes ▸ hagree)).1,
    ends_within hc hagree rfl rfl (fun _ => rfl) (fun _ _ ha => ha) h.tracking⟩

theorem inFunction (h : Follows P s R m m') :
    Follows P s (fun r => R r.1) (inFunction m) (inFunction m') :=
  fun _ _ hc hagree => ⟨.inFunction hc fun d d' hd hscopes => (h d d' hd (hscopes ▸ hagree)).1,
    ends_within hc hagree rfl rfl (fun _ => rfl) (fun _ _ ha => ha) h⟩

theorem inLoop (frame : LoopFrame) (h : Follows P s R m m') :
    Follows P s (fun r => R r.1) (Lower.inLoop frame m) (Lower.inLoop frame m') := by
  intro c c' hc hagree
  refine ⟨.inLoop hc fun d d' hd hscopes => (h d d' hd (hscopes ▸ hagree)).1, fun b e hrun => ?_⟩
  obtain ⟨d, _, hinner, -, rfl⟩ := inLoop_ok hrun
  exact (h { c with loops := frame :: c.loops } _ (hc.move rfl) hagree).2 b.1 d hinner

theorem inForm (name : String) (p : Option Position) (h : Follows P s R m m') :
    Follows P s R (Lowering.inForm name p m) (Lowering.inForm name p m') := by
  intro c c' hc hagree
  obtain ⟨hout, hok⟩ := h c c' hc hagree
  unfold Lowering.inForm
  generalize m c = x at hout hok ⊢
  generalize m' c' = x' at hout ⊢
  cases hout with
  | ok hafter => exact ⟨.ok hafter, hok⟩
  | error he hafter => exact ⟨.error (he.inForm name p) hafter, nofun⟩

/-! ## Scopes -/

theorem inScope (names : List String) (h : Follows P s R m m') :
    Follows P (.scope names s .done) R (inScope names m) (inScope names m') := by
  intro c c' hc hagree
  simp only [visits, append_nil] at hagree
  refine ⟨.inScope hc fun d d' hd hscopes => (h d d' hd (hscopes ▸ hagree)).1, fun b e hrun => ?_⟩
  obtain ⟨a, d, hinner, rfl, rfl⟩ := within_ok hrun
  obtain ⟨hd, ha⟩ := (h { c with scopes := names :: c.scopes } _ (hc.move rfl) hagree).2 _ d hinner
  refine ⟨?_, ha⟩
  rw [notedNames, notedNames, extend_nil]
  exact congrArg List.tail hd

theorem bindTarget (target : Node) :
    Follows P (.bind target.boundNames .done) (fun _ => True) (Lower.bind target) (Lower.bind target) := by
  refine fun c c' hc _ => ⟨Agree.bindTarget target c c' hc, ?_⟩
  rintro _ _ ⟨⟩
  simp only [notedNames, append_nil]
  refine ⟨?_, trivial⟩
  cases c.scopes <;> rfl

theorem block (h : Follows P (s ++ s') R m m') : Follows P (.block s s') R m m' := by
  intro c c' hc hagree
  obtain ⟨hout, hok⟩ := h c c' hc (by rwa [visits_append])
  refine ⟨hout, fun a d hrun => ?_⟩
  rw [notedNames, ← notedNames_append]
  exact hok a d hrun

theorem unnoted (names : List String) (h : Follows P s R m m') :
    Follows P (.unnoted names s) R m m' := h

theorem act (own : Act) (h : Follows P s R m m') : Follows P (.act own s) R m m' := h

theorem thenAct (own : Act) (h : Follows P s R m m') : Follows P (s ++ .act own .done) R m m' := by
  intro c c' hc
  rw [visits_append, notedNames_append]
  simp only [visits, notedNames, append_nil]
  exact h c c' hc

theorem declaring (signature : Option Signature) (h : Follows P s R m m') :
    Follows P (.declaring signature s) R m m' := by
  cases signature <;> exact h

theorem inPlace (place : Place) (h : Follows P s R m m') :
    Follows P (s.inPlace place) R m m' := by
  intro c c' hc
  rw [visits_inPlace, notedNames_inPlace]
  exact h c c' hc

end Follows

end LispLowering
