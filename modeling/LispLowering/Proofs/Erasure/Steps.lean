import LispLowering.Proofs.Patterns.Reading
import LispLowering.Proofs.TypeReading

/-!
# Steps of lowering without positions
-/

namespace LispLowering

open List Lower

variable {entry : FunctionEntry}

variable {α β ε : Type}

/-! ## Readings -/

/-- Two readings that both fail, or that both succeed with results that `f` takes to each other. -/
inductive ReadsErased (f : α → α) : Except ε α → Except ε α → Prop where
  | ok (a : α) : ReadsErased f (.ok a) (.ok (f a))
  | error (e e' : ε) : ReadsErased f (.error e) (.error e')

theorem ReadsErased.pure {a a' : α} (h : f a = a') :
    ReadsErased f (Pure.pure a : Except ε α) (Pure.pure a') :=
  h ▸ .ok a

theorem ReadsAlike.erases {ε : Type} {E : ε → Prop} {R : α → Prop} {x x' : Except ε α}
    (h : ReadsAlike E f R x x') : ReadsErased f x x' := by
  cases h with
  | ok _ => exact .ok _
  | error _ => exact .error _ _

theorem Pattern.read_erases (t : SExpr) : ReadsErased erase (read t) (read t.erase) :=
  (read_drawn t (Supply.opens_ofTrees hereditary_true fun _ _ => trivial)).erases

theorem ParamList.read_erases (t : SExpr) : ReadsErased erase (read t) (read t.erase) :=
  (read_drawn (Supply.opens_ofTrees hereditary_true fun _ _ => trivial) fun _ _ _ => trivial).erases

namespace TypeExpr

theorem ReadAlike.erases {T : SExpr → Prop} {x x' : Except Diagnostic α}
    (h : ReadAlike T x x') : ReadsErased id x x' := by
  cases h with
  | ok a => exact .ok a
  | error e hfault ht => exact .error _ _

theorem read_erases (t : SExpr) : ReadsErased id (read t) (read t.erase) :=
  (read_alike hereditary_true t trivial).erases

theorem readAll_erases (trees : List SExpr) :
    ReadsErased id (readAll trees) (readAll (trees.map SExpr.erase)) :=
  (readAll_alike hereditary_true trees fun _ _ => trivial).erases

end TypeExpr

/-! ## States -/

namespace Table

/-- The table with every value changed. -/
def mapValues (f : α → α) (table : Table α) : Table α := table.map fun entry => (entry.1, f entry.2)

@[simp] theorem find?_mapValues (table : Table α) (name : String) :
    (table.mapValues f).find? name = (table.find? name).map f := by
  induction table with
  | nil => rfl
  | cons entry rest ih =>
    simp only [mapValues, map_cons, find?] at ih ⊢
    split
    · rfl
    · exact ih

@[simp] theorem insert_mapValues (f : α → α) (table : Table α) (name : String) (value : α) :
    (table.mapValues f).insert name (f value) = (table.insert name value).mapValues f := by
  induction table with
  | nil => rfl
  | cons entry rest ih =>
    simp only [mapValues, map_cons, insert] at ih ⊢
    split
    · rfl
    · rw [ih, map_cons]

end Table

def FunctionEntry.erase (entry : FunctionEntry) : FunctionEntry where
  params := entry.params.map Pattern.erase
  defaults := entry.defaults.mapValues Node.erase
  structured := entry.structured
  body := entry.body.map SExpr.erase
  position := none

def Registry.erase (registry : Registry) : Registry :=
  { registry with entries := registry.entries.mapValues FunctionEntry.erase }

def LoopFrame.erase (frame : LoopFrame) : LoopFrame := { frame with firstRecur := none }

def Context.erase (c : Context) : Context :=
  { c with
    registry := c.registry.erase
    loops := c.loops.map LoopFrame.erase
    declarations := c.declarations.map (Prod.map id FunctionEntry.erase) }

def Form.erase (form : Form) : Form := ⟨form.node.erase, form.name, form.args.map SExpr.erase⟩

@[simp] theorem Form.position_erase (form : Form) : form.erase.position = none := form.node.position_erase

namespace FunctionEntry

@[simp] theorem hasRest_erase : entry.erase.hasRest = entry.hasRest := by
  simp only [hasRest, erase, getLast?_map]
  cases entry.params.getLast? with
  | none => rfl
  | some last => exact last.isRest_erase

@[simp] theorem positional_erase : entry.erase.positional = entry.positional.map Pattern.erase := by
  simp only [positional, hasRest_erase]
  split
  · exact (map_dropLast ..).symm
  · rfl

@[simp] theorem defaultFor_erase (entry : FunctionEntry) (index : Nat) :
    entry.erase.defaultFor index = (entry.defaultFor index).map Node.erase := by
  simp only [defaultFor, erase, getElem?_map]
  cases entry.params[index]? with
  | none => rfl
  | some param => simp

end FunctionEntry

namespace Registry

@[simp] theorem get?_erase (registry : Registry) (name : String) :
    registry.erase.get? name = (registry.get? name).map FunctionEntry.erase :=
  Table.find?_mapValues ..

theorem declare_erase (registry : Registry) (name : String) (entry : FunctionEntry) :
    ReadsErased Registry.erase (registry.declare name entry) (registry.erase.declare name entry.erase) := by
  have hinsert : registry.erase.entries.insert name entry.erase =
      Table.mapValues FunctionEntry.erase (registry.entries.insert name entry) :=
    Table.insert_mapValues ..
  have hpolicy : registry.erase.policy = registry.policy := rfl
  unfold declare
  rw [get?_erase, hpolicy, hinsert]
  cases registry.get? name with
  | none => exact .ok _
  | some first =>
    cases registry.policy with
    | replace => exact .ok _
    | reject => exact .error _ _

end Registry

/-! ## Steps -/

/-- How a step and the step without positions end. -/
inductive EndsErased (f : α → α) : EStateM.Result Diagnostic Context α →
    EStateM.Result Diagnostic Context α → Prop where
  | ok (a : α) (d : Context) : EndsErased f (.ok a d) (.ok (f a) d.erase)
  | error (e e' : Diagnostic) (d : Context) : EndsErased f (.error e d) (.error e' d.erase)

/-- From the state without positions, the second step ends as the first does, with a result that `f`
gives. -/
def Erases (f : α → α) (m m' : Lower α) : Prop := ∀ c, EndsErased f (m c) (m' c.erase)

namespace Erases

variable {f : α → α} {g : β → β} {m m' : Lower α}

/-! ## Basic steps -/

theorem pure {a a' : α} (h : f a = a') : Erases f (Pure.pure a) (Pure.pure a') := by
  subst h
  exact fun c => .ok a c

theorem refuse (d d' : Diagnostic) : Erases f (refuse d) (refuse d') := fun c => .error d d' c

theorem bind {k k' : α → Lower β} (hm : Erases f m m') (hk : ∀ a, Erases g (k a) (k' (f a))) :
    Erases g (m >>= k) (m' >>= k') := by
  intro c
  have h := hm c
  change EndsErased g (EStateM.bind m k c) (EStateM.bind m' k' c.erase)
  unfold EStateM.bind
  generalize m c = result, m' c.erase = result' at h
  cases h with
  | ok a d => exact hk a d
  | error e e' d => exact .error e e' d

theorem ite {p p' : Prop} [Decidable p] [Decidable p'] {n n' : Lower α} (h : p' ↔ p)
    (hm : Erases f m m') (hn : Erases f n n') : Erases f (if p then m else n) (if p' then m' else n') := by
  by_cases hp : p
  · rwa [if_pos hp, if_pos (h.mpr hp)]
  · rwa [if_neg hp, if_neg (mt h.mp hp)]

theorem ofExcept {x x' : Except Diagnostic α} (h : ReadsErased f x x') :
    Erases f (Lower.ofExcept x) (Lower.ofExcept x') := by
  cases h with
  | ok a => exact .pure rfl
  | error e e' => exact .refuse e e'

/-! ## The state -/

theorem get {k k' : Context → Lower α} (h : ∀ c : Context, Erases f (k c) (k' c.erase)) :
    Erases f (get >>= k) (get >>= k') :=
  fun c => h c c

theorem modify {u u' : Context → Context} (h : ∀ c, u' c.erase = (u c).erase) :
    Erases id (modify u : Lower Unit) (modify u') := by
  intro c
  have hend := EndsErased.ok (f := id) () (u c)
  rwa [← h c] at hend

theorem set (c : Context) : Erases id (set c : Lower Unit) (set c.erase) := fun _ => .ok _ c

theorem fresh (stem : String) : Erases id (fresh stem) (fresh stem) :=
  fun c => .ok _ { c with nextFresh := c.nextFresh + 1 }

theorem noteAwait : Erases id noteAwait noteAwait := .modify fun _ => rfl

theorem noteYield : Erases id noteYield noteYield := .modify fun _ => rfl

theorem bindTarget (target : Node) : Erases id (Lower.bind target) (Lower.bind target.erase) := by
  intro c
  unfold Lower.bind
  rw [Node.boundNames_erase]
  exact .ok () { c with scopes := _ }

/-! ## Surroundings -/

theorem within {enter : Context → Context} {leave : Context → Context → Context}
    {result : Context → α → β} (henter : ∀ c, enter c.erase = (enter c).erase)
    (hleave : ∀ before after, leave before.erase after.erase = (leave before after).erase)
    (hresult : ∀ after a, result after.erase (f a) = g (result after a)) (h : Erases f m m') :
    Erases g (Lower.within enter leave result m) (Lower.within enter leave result m') := by
  intro c
  have hend := h (enter c)
  unfold Lower.within
  rw [henter]
  generalize m (enter c) = ended, m' (enter c).erase = ended' at hend
  cases hend with
  | ok a d =>
    simp only [hleave, hresult]
    exact .ok _ _
  | error e e' d =>
    simp only [hleave]
    exact .error e e' _

theorem tracking (h : Erases f m m') : Erases (Prod.map f id) (tracking m) (tracking m') :=
  .within (fun _ => rfl) (fun _ _ => rfl) (fun _ _ => rfl) h

theorem inExpression (h : Erases f m m') : Erases (Prod.map f id) (inExpression m) (inExpression m') :=
  .within (fun _ => rfl) (fun _ _ => rfl) (fun _ _ => rfl) h.tracking

theorem inFunction (h : Erases f m m') : Erases (Prod.map f id) (inFunction m) (inFunction m') :=
  .within (fun _ => rfl) (fun _ _ => rfl) (fun _ _ => rfl) h

theorem inScope (names : List String) (h : Erases f m m') :
    Erases f (inScope names m) (inScope names m') :=
  .within (fun _ => rfl) (fun _ _ => rfl) (fun _ _ => rfl) h

theorem inLoop (frame : LoopFrame) (h : Erases f m m') :
    Erases (Prod.map f LoopFrame.erase) (Lower.inLoop frame m) (Lower.inLoop frame.erase m') := by
  intro c
  have hend := h { c with loops := frame :: c.loops }
  have henter : ({ c with loops := frame :: c.loops } : Context).erase =
      { c.erase with loops := frame.erase :: c.erase.loops } := rfl
  unfold Lower.inLoop
  rw [henter] at hend
  generalize m { c with loops := frame :: c.loops } = ended,
    m' { c.erase with loops := frame.erase :: c.erase.loops } = ended' at hend
  cases hend with
  | ok a d =>
    obtain ⟨options, directory, registry, wrapperDepth, functionDepth, earlyReturn, loops, suspension,
      scopes, nextFresh⟩ := d
    cases loops with
    | nil => exact .error _ _ _
    | cons top rest => exact .ok (a, top) _
  | error e e' d =>
    have hloops : d.erase.loops.tail = d.loops.tail.map LoopFrame.erase := map_tail.symm
    simp only [hloops]
    exact .error e e' { d with loops := d.loops.tail }

theorem inForm (name : String) (p p' : Option Position) (h : Erases f m m') :
    Erases f (Lowering.inForm name p m) (Lowering.inForm name p' m') := by
  intro c
  have hend := h c
  unfold Lowering.inForm
  generalize m c = ended, m' c.erase = ended' at hend
  cases hend with
  | ok a d => exact .ok a d
  | error e e' d => exact .error _ _ d

end Erases

/-- Trees without positions are lowered to nodes without positions. -/
def LowererErases (lower : Lowerer) : Prop := ∀ t, Erases Node.eraseOption (lower t) (lower t.erase)

end LispLowering
