import LispLowering.Proofs.Built
import LispLowering.Proofs.Patterns.Reading
import LispLowering.Proofs.Scoping.Script

/-!
# Lowering patterns
-/

namespace LispLowering

open List Node Pattern

variable {e : Diagnostic}

theorem Node.entryNames_append (entries others : List Node) :
    entryNames (entries ++ others) = entryNames entries ++ entryNames others := by
  induction entries with
  | nil => rfl
  | cons entry rest ih =>
    obtain ⟨kind, p⟩ := entry
    cases kind with
    | property _ _ _ _ => simp only [cons_append, entryNames, ih, append_assoc]
    | _ => simp only [cons_append, entryNames, ih, append_assoc]

namespace Pattern

/-! ## Two runs -/

/-- The target of a pattern of the given shape: nothing for a skipped slot, and otherwise a node that
binds the names of the pattern and is made of its defaults. -/
structure Targets (kind : PatternKind) (leaves : List Leaf) (target : Option Node) : Prop where
  skipped : target = none ↔ kind = .skip
  names : optionNames target = kindNames kind
  built : BuiltAll leaves (Slot.expression.all target.toList)

theorem Targets.boundNames {pattern : Pattern} {leaves : List Leaf} {node : Node}
    (h : Targets pattern.kind leaves (some node)) : node.boundNames = pattern.names := by
  obtain ⟨kind, default, p⟩ := pattern
  exact h.names

/-- A skipped target stands directly in the pattern where a name is needed: as the value of a property or as
what takes the rest. -/
def Refuses (pattern : Pattern) (e : Diagnostic) : Prop :=
  match pattern.kind with
  | .object properties rest =>
    (∃ property ∈ properties, property.value.kind = .skip ∧
      e = (Fault.skippedKey property.key).place (property.value.position.or pattern.position)) ∨
    ∃ target ∈ rest, target.kind = .skip ∧ e = (Fault.skippedTarget "object rest").place target.position
  | .rest inner => inner.kind = .skip ∧ e = (Fault.skippedTarget "rest element").place inner.position
  | _ => False

variable {σ τ : Type} {transform : SExpr → EStateM Diagnostic σ Node}
  {transform' : SExpr → EStateM Diagnostic τ Node} {refused : Diagnostic → Prop}
  {J : {α : Type} → List SExpr → (List Leaf → α → Prop) → EStateM Diagnostic σ α →
    EStateM Diagnostic τ α → Prop}

/-- A judgement on two runs that are given the same trees, and on what they make of the values. -/
structure Rules (transform : SExpr → EStateM Diagnostic σ Node)
    (transform' : SExpr → EStateM Diagnostic τ Node) (refused : Diagnostic → Prop)
    (J : {α : Type} → List SExpr → (List Leaf → α → Prop) → EStateM Diagnostic σ α →
      EStateM Diagnostic τ α → Prop) : Prop where
  pure : ∀ {α : Type} {R : List Leaf → α → Prop} {a : α}, R [] a → J [] R (Pure.pure a) (Pure.pure a)
  refuse : ∀ {α : Type} {R : List Leaf → α → Prop} {trees : List SExpr} {e : Diagnostic}, refused e →
    J trees R (throw e) (throw e)
  call : ∀ tree, J [tree] (fun leaves node => Built leaves .expression node) (transform tree) (transform' tree)
  bind : ∀ {α β : Type} {R : List Leaf → α → Prop} {Q : List Leaf → β → Prop} {trees trees' : List SExpr}
    {m : EStateM Diagnostic σ α} {m' : EStateM Diagnostic τ α} {k : α → EStateM Diagnostic σ β}
    {k' : α → EStateM Diagnostic τ β}, J trees R m m' →
    (∀ a leaves, R leaves a → J trees' (fun leaves' b => Q (leaves ++ leaves') b) (k a) (k' a)) →
    J (trees ++ trees') Q (m >>= k) (m' >>= k')

namespace Rules

variable (rules : Rules transform transform' refused J)

include rules

theorem map {β : Type} {R : List Leaf → α → Prop} {Q : List Leaf → β → Prop}
    {g : α → β} {m' : EStateM Diagnostic τ α} (hm : J trees R m m')
    (hg : ∀ a leaves, R leaves a → Q leaves (g a)) :
    J trees Q (m >>= fun a => Pure.pure (g a)) (m' >>= fun a => Pure.pure (g a)) := by
  have h := rules.bind (Q := Q) hm fun a leaves ha => rules.pure (by simpa using hg a leaves ha)
  rwa [append_nil] at h

theorem thenBound {part : String} {inner : Pattern} {g : Node → α} {Q : List Leaf → α → Prop}
    (hinner : J inner.defaults (Targets inner.kind) (inner.lower transform) (inner.lower transform'))
    (h : inner.kind = .skip → refused ((Fault.skippedTarget part).place inner.position))
    (hQ : ∀ leaves (node : Node), node.boundNames = inner.names → Built leaves .expression node →
      Q leaves (g node)) : J inner.defaults Q (inner.lower transform >>= fun target =>
        bound part inner.position target >>= fun node => Pure.pure (g node))
      (inner.lower transform' >>= fun target =>
        bound part inner.position target >>= fun node => Pure.pure (g node)) := by
  rw [← append_nil inner.defaults]
  refine rules.bind hinner fun target leaves htarget => ?_
  cases target with
  | none => exact rules.refuse (h (htarget.skipped.mp rfl))
  | some node =>
    refine rules.pure ?_
    rw [append_nil]
    exact hQ leaves node htarget.boundNames (htarget.built.single rfl)

mutual

theorem lower : (pattern : Pattern) → (∀ part ∈ pattern.parts, ∀ e, part.Refuses e → refused e) →
    J pattern.defaults (Targets pattern.kind) (pattern.lower transform) (pattern.lower transform')
  | ⟨kind, default, p⟩, h => by
    rw [parts, forall_mem_cons] at h
    have hkind := lowerKind default p kind h.1 h.2
    by_cases hskip : kind = .skip
    · subst hskip
      exact rules.pure ⟨by simp, rfl, .nil⟩
    · have hdefaults : defaults ⟨kind, default, p⟩ = kindDefaults kind ++ default.toList := by
        cases kind with
        | skip => exact absurd rfl hskip
        | _ => rfl
      rw [hdefaults]
      refine rules.bind hkind fun target _ htarget => ?_
      cases target with
      | none => exact absurd (htarget.skipped.mp rfl) hskip
      | some node =>
        cases default with
        | none => exact rules.pure (by rwa [append_nil])
        | some value =>
          exact rules.map (rules.call value) fun _ _ hvalue => ⟨by simp [hskip], htarget.names,
            .one (.hold rfl (.cons (htarget.built.single rfl) (.one hvalue)))⟩

theorem lowerKind (default : Option SExpr)
    (p : Option Position) : (kind : PatternKind) → (∀ e, Refuses ⟨kind, default, p⟩ e → refused e) →
    (∀ part ∈ kindParts kind, ∀ e, part.Refuses e → refused e) →
    J (kindDefaults kind) (Targets kind) (Pattern.lowerKind transform p kind)
      (Pattern.lowerKind transform' p kind)
  | .skip, _, _ => rules.pure ⟨by simp, rfl, .nil⟩
  | .identifier _ _, _, _ => rules.pure ⟨by simp, rfl, .one (.hold rfl .nil)⟩
  | .array elements, _, h => rules.map (lowerElements elements h) fun _ _ hslots =>
    ⟨by simp, hslots.1, .one (.hold rfl hslots.2)⟩
  | .object properties rest, hself, h => by
    rw [kindParts, forall_mem_append] at h
    have hprops : ∀ property ∈ properties, property.value.kind = .skip →
        refused ((Fault.skippedKey property.key).place (property.value.position.or p)) :=
      fun property hmem hskip => hself _ (.inl ⟨property, hmem, hskip, rfl⟩)
    have hrest : ∀ target ∈ rest, target.kind = .skip →
        refused ((Fault.skippedTarget "object rest").place target.position) :=
      fun target hmem hskip => hself _ (.inr ⟨target, hmem, hskip, rfl⟩)
    refine rules.bind (lowerProperties p properties hprops h.1) fun entries _ hentries =>
      rules.map (lowerObjectRest rest hrest h.2) fun remaining _ hremaining => ⟨by simp, ?_,
        .one (.hold rfl (.appendAll hentries.2 hremaining.2))⟩
    show entryNames (entries ++ remaining) = _
    rw [entryNames_append, hentries.1, hremaining.1, kindNames]
  | .rest inner, hself, h =>
    rules.thenBound (lower inner h) (fun hskip => hself _ ⟨hskip, rfl⟩) fun _ _ hnames hbuilt =>
      ⟨by simp, hnames, .one (.hold rfl (.one hbuilt))⟩

theorem lowerElements : (elements : List Pattern) →
    (∀ part ∈ elementParts elements, ∀ e, part.Refuses e → refused e) →
    J (elementDefaults elements) (fun leaves slots => slotNames slots = elementNames elements ∧
        BuiltAll leaves (Slot.expression.all (slots.flatMap Option.toList)))
      (Pattern.lowerElements transform elements) (Pattern.lowerElements transform' elements)
  | [], _ => rules.pure ⟨rfl, .nil⟩
  | element :: rest, h => by
    rw [elementParts, forall_mem_append] at h
    refine rules.bind (lower element h.1) fun _ _ hslot =>
      rules.map (lowerElements rest h.2) fun _ _ hslots => ⟨?_, ?_⟩
    · obtain ⟨kind, default, p⟩ := element
      rw [slotNames, hslot.names, hslots.1, elementNames, names]
    · rw [flatMap_cons]
      exact .appendAll hslot.built hslots.2

theorem lowerProperties (p : Option Position) : (properties : List PropertyPattern) →
    (∀ property ∈ properties, property.value.kind = .skip →
      refused ((Fault.skippedKey property.key).place (property.value.position.or p))) →
    (∀ part ∈ propertyParts properties, ∀ e, part.Refuses e → refused e) →
    J (propertyDefaults properties) (fun leaves entries =>
        entryNames entries = propertyNames properties ∧ BuiltAll leaves (Slot.patternEntry.all entries))
      (Pattern.lowerProperties transform p properties) (Pattern.lowerProperties transform' p properties)
  | [], _, _ => rules.pure ⟨rfl, .nil⟩
  | ⟨key, value⟩ :: rest, hskips, h => by
    rw [forall_mem_cons] at hskips
    rw [propertyParts, forall_mem_append] at h
    refine rules.bind (lower value h.1) fun target _ htarget => ?_
    cases target with
    | none => exact rules.refuse (hskips.1 (htarget.skipped.mp rfl))
    | some node =>
      refine rules.map (lowerProperties p rest hskips.2 h.2) fun entries _ hentries => ⟨?_,
        .cons ((htarget.built.single rfl).keyed key (.inr rfl)) hentries.2⟩
      show node.boundNames ++ entryNames entries = _
      rw [hentries.1, propertyNames, htarget.boundNames]

theorem lowerObjectRest : (rest : Option Pattern) → (∀ target ∈ rest, target.kind = .skip →
      refused ((Fault.skippedTarget "object rest").place target.position)) →
    (∀ part ∈ restParts rest, ∀ e, part.Refuses e → refused e) →
    J (restDefaults rest) (fun leaves entries =>
        entryNames entries = restNames rest ∧ BuiltAll leaves (Slot.patternEntry.all entries))
      (Pattern.lowerObjectRest transform rest) (Pattern.lowerObjectRest transform' rest)
  | none, _, _ => rules.pure ⟨rfl, .nil⟩
  | some inner, hskips, h =>
    rules.thenBound (lower inner h) (hskips inner rfl) fun _ node hnames hbuilt => by
      refine ⟨?_, .one (.hold rfl (.one hbuilt))⟩
      show node.boundNames ++ [] = _
      rw [append_nil, restNames, hnames]

end

end Rules

/-! ## Recorded runs -/

/-- A call of a transformation: the tree that it is given, and what it answers. -/
abbrev Call := SExpr × Except Diagnostic Node

def recorded (transform : SExpr → EStateM Diagnostic σ Node) (tree : SExpr) :
    EStateM Diagnostic (σ × List Call) Node := fun state =>
  match transform tree state.1 with
  | .ok node s => .ok node (s, state.2 ++ [(tree, .ok node)])
  | .error e s => .error e (s, state.2 ++ [(tree, .error e)])

def Succeed (calls : List Call) : Prop := ∀ call ∈ calls, ∃ node, call.2 = .ok node

/-- The last call fails with the diagnostic, or all succeed and the diagnostic is another refusal. -/
def Stop (refused : Diagnostic → Prop) (e : Diagnostic) (calls : List Call) : Prop :=
  (∃ earlier tree, calls = earlier ++ [(tree, .error e)] ∧ Succeed earlier) ∨ (Succeed calls ∧ refused e)

theorem Stop.append {calls calls' : List Call} (h : Succeed calls)
    (h' : Stop refused e calls') : Stop refused e (calls ++ calls') := by
  rcases h' with ⟨earlier, tree, rfl, hearlier⟩ | ⟨hall, he⟩
  · exact .inl ⟨calls ++ earlier, tree, (append_assoc ..).symm, forall_mem_append.mpr ⟨h, hearlier⟩⟩
  · exact .inr ⟨forall_mem_append.mpr ⟨h, hall⟩, he⟩

variable {α β : Type}

/-- Two runs end alike, and the second one has recorded calls for the trees: for all of them if it succeeds,
and otherwise for the first of them. -/
inductive Recorded (refused : Diagnostic → Prop) (trees : List SExpr) (R : α → Prop) (before : List Call) :
    EStateM.Result Diagnostic σ α → EStateM.Result Diagnostic (σ × List Call) α → Prop where
  | ok {a : α} {s : σ} {calls : List Call} : calls.map Prod.fst = trees → Succeed calls → R a →
      Recorded refused trees R before (.ok a s) (.ok a (s, before ++ calls))
  | error {e : Diagnostic} {s : σ} {calls : List Call} : calls.map Prod.fst <+: trees →
      Stop refused e calls → Recorded refused trees R before (.error e s) (.error e (s, before ++ calls))

/-- Two steps of which the second one records calls for the trees. -/
def Records (refused : Diagnostic → Prop) (trees : List SExpr) (R : α → Prop)
    (m : EStateM Diagnostic σ α) (m' : EStateM Diagnostic (σ × List Call) α) : Prop :=
  ∀ s before, Recorded refused trees R before (m s) (m' (s, before))

namespace Records

variable {trees trees' : List SExpr} {R : α → Prop} {Q : β → Prop} {m : EStateM Diagnostic σ α}
  {m' : EStateM Diagnostic (σ × List Call) α}

theorem pure {a : α} (h : R a) :
    Records refused [] R (Pure.pure a : EStateM Diagnostic σ α) (Pure.pure a) := by
  intro s before
  have hend : Recorded refused [] R before (.ok a s) (.ok a (s, before ++ [])) :=
    .ok rfl (forall_mem_nil _) h
  rwa [append_nil] at hend

theorem refuse (h : refused e) :
    Records refused trees R (throw e : EStateM Diagnostic σ α) (throw e) := by
  intro s before
  have hend : Recorded refused trees R before (.error e s) (.error e (s, before ++ [])) :=
    .error nil_prefix (.inr ⟨forall_mem_nil _, h⟩)
  rwa [append_nil] at hend

theorem call (transform : SExpr → EStateM Diagnostic σ Node) (tree : SExpr) :
    Records refused [tree] (fun _ => True) (transform tree) (recorded transform tree) := by
  intro s before
  unfold recorded
  cases transform tree s with
  | ok node t => exact .ok rfl (forall_mem_singleton.mpr ⟨node, rfl⟩) trivial
  | error e t =>
    exact .error (prefix_refl _) (.inl ⟨[], tree, rfl, forall_mem_nil _⟩)

theorem bind {k : α → EStateM Diagnostic σ β} {k' : α → EStateM Diagnostic (σ × List Call) β}
    (hm : Records refused trees R m m') (hk : ∀ a, R a → Records refused trees' Q (k a) (k' a)) :
    Records refused (trees ++ trees') Q (m >>= k) (m' >>= k') := by
  intro s before
  have hfirst := hm s before
  show Recorded _ _ _ _ (EStateM.bind m k s) (EStateM.bind m' k' (s, before))
  unfold EStateM.bind
  generalize m s = r at hfirst ⊢
  generalize m' (s, before) = r' at hfirst ⊢
  cases hfirst with
  | @ok a t calls htrees hsucceed ha =>
    have hsecond := hk a ha t (before ++ calls)
    dsimp only
    generalize k a t = r at hsecond ⊢
    generalize k' a (t, before ++ calls) = r' at hsecond ⊢
    cases hsecond with
    | @ok b u calls' htrees' hsucceed' hb =>
      rw [append_assoc]
      exact .ok (by rw [map_append, htrees, htrees'])
        (forall_mem_append.mpr ⟨hsucceed, hsucceed'⟩) hb
    | @error e u calls' htrees' hstop =>
      rw [append_assoc]
      refine .error ?_ (.append hsucceed hstop)
      rw [map_append, htrees]
      exact (prefix_append_right_inj trees).mpr htrees'
  | @error e t calls htrees hstop => exact .error (htrees.trans (prefix_append ..)) hstop

theorem imp {Q : α → Prop} (h : Records refused trees R m m') (himp : ∀ a, R a → Q a) :
    Records refused trees Q m m' := by
  intro s before
  have hend := h s before
  generalize m s = r, m' (s, before) = r' at hend ⊢
  cases hend with
  | ok htrees hsucceed ha => exact .ok htrees hsucceed (himp _ ha)
  | error htrees hstop => exact .error htrees hstop

theorem rules (transform : SExpr → EStateM Diagnostic σ Node) :
    Rules transform (recorded transform) refused fun trees R => Records refused trees fun a => ∃ leaves, R leaves a where
  pure := fun h => .pure ⟨[], h⟩
  refuse := .refuse
  call := fun tree => (call transform tree).imp fun node _ => ⟨_, .value node⟩
  bind := fun hm hk => .bind hm fun a ha => (hk a ha.choose ha.choose_spec).imp fun _ hb => ⟨_, hb.choose_spec⟩

end Records

end Pattern

/-- A pattern is lowered to nothing exactly if it is skipped. Otherwise it is lowered to a node that binds the
names of the pattern, and the transformation was called once for each default. If lowering fails, then the last
call of the transformation failed in that way, or a skipped target stands where a name is needed. -/
theorem pattern_lowering {σ : Type} (p : Pattern) (transform : SExpr → EStateM Diagnostic σ Node) (s : σ) :
    ((∃ t, p.lower transform s = .ok none t) ↔ p.kind = .skip) ∧
    (∀ node t, p.lower transform s = .ok (some node) t → node.boundNames = p.names ∧
      ∃ calls, p.lower (Pattern.recorded transform) (s, []) = .ok (some node) (t, calls) ∧
        Succeed calls ∧ calls.map Prod.fst = p.defaults) ∧ ∀ e t, p.lower transform s = .error e t →
      ∃ calls, p.lower (Pattern.recorded transform) (s, []) = .error e (t, calls) ∧
        calls.map Prod.fst <+: p.defaults ∧
        Stop (fun e => ∃ part ∈ p.parts, part.Refuses e) e calls := by
  have hend : Recorded (fun e => ∃ part ∈ p.parts, part.Refuses e) p.defaults
      (fun target => ∃ leaves, Targets p.kind leaves target) [] (p.lower transform s)
      (p.lower (Pattern.recorded transform) (s, [])) :=
    (Records.rules transform).lower p (fun part hpart e he => ⟨part, hpart, he⟩) s []
  generalize p.lower (Pattern.recorded transform) (s, []) = r at hend ⊢
  refine ⟨⟨?_, fun hskip => ?_⟩, fun _ t hrun => ?_, fun e t hrun => ?_⟩
  · rintro ⟨t, hrun⟩
    rw [hrun] at hend
    cases hend with
    | ok _ _ htarget => exact htarget.choose_spec.skipped.mp rfl
  · obtain ⟨kind, default, q⟩ := p
    subst hskip
    exact ⟨s, rfl⟩
  · rw [hrun] at hend
    cases hend with
    | ok htrees hsucceed htarget =>
      exact ⟨htarget.choose_spec.boundNames, _, rfl, hsucceed, htrees⟩
  · rw [hrun] at hend
    cases hend with
    | error htrees hstop => exact ⟨_, rfl, htrees, hstop⟩

end LispLowering
