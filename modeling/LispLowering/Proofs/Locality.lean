import LispLowering.Proofs.Scoping.Traversal

/-!
# Locality of calls
-/

namespace LispLowering

/-! ## The names of a tree -/

/-- The symbol `name` occurs in a tree. -/
inductive SExpr.Mentions (name : String) : SExpr → Prop where
  | symbol (p : Option Position) : Mentions name (.symbol name p)
  | list {items : List SExpr} {item : SExpr} {p : Option Position} :
      item ∈ items → Mentions name item → Mentions name (.list items p)

namespace SExpr

variable {name text : String} {p : Option Position}

@[simp] theorem mentions_symbol : (symbol text p).Mentions name ↔ name = text := by
  constructor
  · rintro ⟨⟩
    rfl
  · rintro rfl
    exact .symbol p

@[simp] theorem mentions_literal {value : Literal} : ¬(literal value p).Mentions name := nofun

@[simp] theorem mentions_list {items : List SExpr} :
    (list items p).Mentions name ↔ ∃ item ∈ items, item.Mentions name := by
  constructor
  · rintro (_ | ⟨hitem, h⟩)
    exact ⟨_, hitem, h⟩
  · rintro ⟨item, hitem, h⟩
    exact .list hitem h

end SExpr

/-- A name that a tree may call or declare: the identifier for one of its symbols, taken whole or
without its type parameters. -/
def SExpr.Names (t : SExpr) (name : String) : Prop :=
  ∃ symbol, t.Mentions symbol ∧
    (name = Symbol.identifier symbol ∨ name = Symbol.identifier (GenericName.ofSymbol symbol).name)

theorem SExpr.hereditary_mentions (t : SExpr) :
    Hereditary fun u => ∀ symbol, u.Mentions symbol → t.Mentions symbol := by
  intro items p h item hitem symbol hmentions
  exact h symbol (.list hitem hmentions)

/-! ## Registries that agree on names -/

/-- Two registries treat redefinitions alike and have the same entries under the given names. -/
structure Registry.AgreeOn (names : String → Prop) (r r' : Registry) : Prop where
  policy : r'.policy = r.policy
  get?_eq : ∀ name, names name → r'.get? name = r.get? name

namespace Registry

variable {names : String → Prop} {r r' s : Registry} {name : String} {entry : FunctionEntry}

theorem AgreeOn.of_declare (h : r.declare name entry = .ok s) (hname : ¬names name) :
    AgreeOn names r s := by
  refine ⟨by rw [declare_eq_ok h], fun _ hkey => ?_⟩
  rw [get?_of_declare h, if_neg]
  rintro rfl
  exact hname hkey

theorem AgreeOn.declare (h : AgreeOn names r r') (hname : names name) : (∀ s, r.declare name entry = .ok s →
      ∃ s', r'.declare name entry = .ok s' ∧ AgreeOn names s s') ∧
    ∀ d, r.declare name entry = .error d → r'.declare name entry = .error d := by
  have hget := h.get?_eq name hname
  have hpolicy := h.policy
  constructor
  · intro s hs
    have hs' : r'.declare name entry = .ok { r' with entries := r'.entries.insert name entry } := by
      unfold Registry.declare at hs ⊢
      rw [hget, hpolicy]
      split at hs
      · cases hs
      · rfl
    refine ⟨_, hs', ?_, fun key hkey => ?_⟩
    · rw [declare_eq_ok hs]
      exact hpolicy
    · rw [get?_of_declare hs', get?_of_declare hs, h.get?_eq key hkey]
  · intro d hd
    unfold Registry.declare at hd ⊢
    rw [hget, hpolicy]
    split at hd
    · exact hd
    · cases hd

end Registry

/-- The view that shows the entries under the given names. -/
def RegistryView.onNames (names : String → Prop) : RegistryView where
  visible := names
  alike := Registry.AgreeOn names
  grows := fun _ _ => True
  grows_refl := fun _ => trivial
  grows_trans := fun _ _ => trivial
  get?_eq := fun h hname => h.get?_eq _ hname
  declare_ok := fun h hname => (h.declare hname).1 _
  declare_error := fun h hname => (h.declare hname).2 _

theorem Shown.onNames (t : SExpr) : Shown (.onNames t.Names)
    fun u => ∀ symbol, u.Mentions symbol → t.Mentions symbol where
  hereditary := t.hereditary_mentions
  called := fun name p h => ⟨name, h name (.symbol p), .inl rfl⟩
  declared := fun name p h => ⟨name, h name (.symbol p), .inr rfl⟩

/-! ## Locality -/

/-- Two states that are equal except for registry entries under other names than the given ones, and
for the record of declarations. -/
structure Context.AgreeOn (names : String → Prop) (c c' : Context) : Prop where
  same : c' = { c with registry := c'.registry, declarations := c'.declarations }
  registry : c.registry.AgreeOn names c'.registry

/-- Two runs end alike: with the same value or the same diagnostic, and in related states. -/
inductive EndAlike {α : Type} (related : Context → Context → Prop) :
    EStateM.Result Diagnostic Context α → EStateM.Result Diagnostic Context α → Prop where
  | ok {a : α} {d d' : Context} : related d d' → EndAlike related (.ok a d) (.ok a d')
  | error {e : Diagnostic} {d d' : Context} : related d d' → EndAlike related (.error e d) (.error e d')

variable {names : String → Prop}

theorem Context.AgreeOn.twin {c c' : Context} (h : AgreeOn names c c') : Twin (.onNames names) c c' := by
  have hsusp : c'.suspension = c.suspension := by rw [h.same]
  refine ⟨?_, h.registry⟩
  rw [hsusp]
  exact h.same

theorem After.agreeOn {c c' d d' : Context} (h : After (.onNames names) c c' d d')
    (hc : c'.suspension = c.suspension) : Context.AgreeOn names d d' := by
  obtain ⟨δ, hd, hd'⟩ := h.waits
  have hsusp : d'.suspension = d.suspension := by rw [hd, hd', hc]
  refine ⟨?_, h.twin.registry⟩
  have hsame := h.twin.same
  rwa [hsusp] at hsame

theorem Agree.endAlike {α : Type} {m : Lower α} (hm : Agree (.onNames names) m m) {c c' : Context}
    (h : Context.AgreeOn names c c') : EndAlike (Context.AgreeOn names) (m c) (m c') := by
  have houtcome := hm c c' h.twin
  have hsusp : c'.suspension = c.suspension := by rw [h.same]
  generalize m c = x at houtcome ⊢
  generalize m c' = x' at houtcome ⊢
  cases houtcome with
  | ok hafter => exact .ok (hafter.agreeOn hsusp)
  | error _ hafter => exact .error (hafter.agreeOn hsusp)

/-- Lowering is local. In two states that are equal except for declared functions that the tree does
not name, it gives the same tree or the same diagnostic, and the registries still agree on the names of
the tree. So a declaration under a name that is not in the tree does not change what becomes of it. -/
theorem lowering_local (t : SExpr) (c : Context) : (∀ c', c.AgreeOn t.Names c' →
      EndAlike (Context.AgreeOn t.Names) (Lowering.lower t c) (Lowering.lower t c')) ∧
    ∀ name entry registry, ¬t.Names name → c.registry.declare name entry = .ok registry →
      EndAlike (Context.AgreeOn t.Names) (Lowering.lower t c) (Lowering.lower t { c with registry }) := by
  have hagree : Agree (.onNames t.Names) (Lowering.lower t) (Lowering.lower t) :=
    Lowering.lower_agree (Shown.onNames t) (fun _ _ _ _ _ _ _ _ _ _ _ => trivial) fun _ h => h
  constructor
  · intro c' hc
    exact hagree.endAlike hc
  · intro name entry registry hname hdeclare
    exact hagree.endAlike ⟨rfl, .of_declare hdeclare hname⟩

/-- A call that is completed from the default of a function. -/
def completedCall : SExpr := .list [.symbol "f" none] none

/-- The state in which `f` has one parameter, with a default. -/
def declaredDefault : Context :=
  let param : Pattern := ⟨.identifier "x" none, some (.literal (.string "") none), none⟩
  let entry : FunctionEntry := ⟨[param], [("x", Node.literal (.string ""))], false, [], none⟩
  { Context.start "" {} with registry := { entries := [("f", entry)] } }

/-- A declaration of `g` does not change how the call of `f` is completed. -/
theorem lowering_local_completed : ¬completedCall.Names "g" ∧
    ∃ registry node d, declaredDefault.registry.declare "g" ⟨[], [], false, [], none⟩ = .ok registry ∧
      declaredDefault.AgreeOn completedCall.Names { declaredDefault with registry } ∧
      Lowering.lower completedCall declaredDefault = .ok (some node) d ∧
      EndAlike (Context.AgreeOn completedCall.Names) (Lowering.lower completedCall declaredDefault)
        (Lowering.lower completedCall { declaredDefault with registry }) := by
  have hname : ¬completedCall.Names "g" := by
    rintro ⟨symbol, hmentions, hidentifier⟩
    cases hmentions with
    | list hitem hmentions =>
      cases List.mem_singleton.mp hitem
      cases hmentions
      revert hidentifier
      decide +kernel
  refine ⟨hname, _, _, _, rfl, ⟨rfl, .of_declare rfl hname⟩, rfl, ?_⟩
  exact (lowering_local completedCall declaredDefault).2 "g" _ _ hname rfl

end LispLowering
