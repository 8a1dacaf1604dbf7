import LispLowering.Proofs.Scoping.Script

/-!
# The parts of a form
-/

namespace LispLowering

namespace Act

def signature? : Act → Option Signature
  | .declare signature => some signature
  | _ => none

def isJump : Act → Bool
  | .jump => true
  | _ => false

end Act

/-- A part of a form: a tree in its place, or what the form does itself. -/
inductive Part where
  | tree (place : Place) (tree : SExpr)
  | act (act : Act)

namespace SExpr

/-- The tree as a part, if it is a list. -/
def partAt (place : Place) : SExpr → List Part
  | .list items p => [.tree place (.list items p)]
  | _ => []

end SExpr

def Place.all (place : Place) (trees : List SExpr) : List Part := trees.flatMap (SExpr.partAt place)

namespace Place

@[simp] theorem all_nil (place : Place) : place.all [] = [] := rfl

@[simp] theorem all_cons (place : Place) (t : SExpr) (ts : List SExpr) :
    place.all (t :: ts) = t.partAt place ++ place.all ts := rfl

@[simp] theorem all_append (place : Place) (ts us : List SExpr) :
    place.all (ts ++ us) = place.all ts ++ place.all us :=
  List.flatMap_append

theorem all_singleton (place : Place) (t : SExpr) : place.all [t] = t.partAt place := by
  simp

theorem mem_partAt {place : Place} {t : SExpr} {part : Part} (h : part ∈ t.partAt place) :
    part = .tree place t := by
  cases t with
  | list items p => simpa [SExpr.partAt] using h
  | symbol | literal => simp [SExpr.partAt] at h

theorem mem_all {place : Place} {ts : List SExpr} {part : Part} (h : part ∈ place.all ts) :
    ∃ t ∈ ts, part = .tree place t := by
  obtain ⟨t, ht, hpart⟩ := List.mem_flatMap.mp h
  exact ⟨t, ht, mem_partAt hpart⟩

end Place

/-- The parts of a script, in their order. -/
def Script.parts : Script → List Part
  | .done => []
  | .visit place tree rest => tree.partAt place ++ parts rest
  | .bind _ rest | .unnoted _ rest => parts rest
  | .scope _ inner rest | .block inner rest => parts inner ++ parts rest
  | .act own rest => .act own :: parts rest

/-- The parts of a tree, from left to right as they are lowered. -/
def SExpr.parts (t : SExpr) : List Part := t.script.parts

def Part.inPlace (place : Place) : Part → Part
  | .tree _ t => .tree place t
  | .act own => .act own

namespace Script

variable {α : Type}

@[simp] theorem parts_append (s s' : Script) : (s ++ s').parts = s.parts ++ s'.parts := by
  show (s.append s').parts = _
  induction s with
  | done => rfl
  | visit _ _ _ ih | scope _ _ _ _ ih | block _ _ _ ih =>
    simp only [append, parts, ih, List.append_assoc]
  | bind _ _ ih | unnoted _ _ ih | act _ _ ih => simp only [append, parts, ih, List.cons_append]

theorem parts_inPlace (place : Place) (s : Script) :
    (s.inPlace place).parts = s.parts.map (Part.inPlace place) := by
  have hpart (t : SExpr) (at_ : Place) :
      t.partAt place = (t.partAt at_).map (Part.inPlace place) := by
    cases t <;> rfl
  induction s with
  | done => rfl
  | visit at_ tree _ ih => simp only [inPlace, parts, ih, List.map_append, ← hpart]
  | scope _ _ _ ih ih' | block _ _ ih ih' => simp only [inPlace, parts, ih, ih', List.map_append]
  | bind _ _ ih | unnoted _ _ ih => exact ih
  | act _ _ ih => simp only [inPlace, parts, ih, List.map_cons, Part.inPlace]

theorem parts_each (one : α → Script) (items : List α) :
    (each one items).parts = items.flatMap fun item => (one item).parts := by
  induction items with
  | nil => rfl
  | cons item rest ih => rw [each, parts_append, ih, List.flatMap_cons]

@[simp] theorem parts_values (ts : List SExpr) : (values ts).parts = Place.value.all ts := by
  simp [values, parts_each, value, parts, Place.all]

@[simp] theorem parts_statements (ts : List SExpr) :
    (statements ts).parts = Place.statement.all ts := by
  simp [statements, parts_each, parts, Place.all]

end Script

theorem Place.map_inPlace_all (place place' : Place) (ts : List SExpr) :
    (place'.all ts).map (Part.inPlace place) = place.all ts := by
  have hpart (t : SExpr) : (t.partAt place').map (Part.inPlace place) = t.partAt place := by
    cases t <;> rfl
  simp only [all, List.map_flatMap, hpart]

namespace Lowering

/-! ## Values of bindings -/

theorem mem_parts_pairsScript {ts : List SExpr} {part : Part} (h : part ∈ (pairsScript ts).parts) :
    ∃ t, part = .tree .value t := by
  have hall {ts : List SExpr} (h : part ∈ Place.value.all ts) : ∃ t, part = .tree .value t := by
    obtain ⟨t, -, ht⟩ := Place.mem_all h
    exact ⟨t, ht⟩
  induction ts using List.twoStepInduction with
  | nil | singleton => cases h
  | cons_cons target value rest ih _ =>
    simp only [pairsScript, declarationScript, Script.parts_append, List.mem_append,
      Script.parts_values, Script.parts, List.not_mem_nil, or_false] at h
    rcases h with (h | h) | h
    · unfold targetScript at h
      split at h
      · exact hall (by simpa using h)
      · cases h
    · exact hall h
    · exact ih h

theorem parts_loopScript (bindings : SExpr) (body : List SExpr) : (loopScript (bindings :: body)).parts =
    (pairsScript bindings.bindingItems).parts ++ Place.looped.all body := by
  simp [loopScript, Script.parts, Script.parts_inPlace, Place.map_inPlace_all]

/-! ## Functions -/

/-- The trees of a function: the defaults of its parameters and its body. -/
def functionParts (params : ParamList) (body : List SExpr) : List Part :=
  Place.default.all params.defaults ++ Place.inner.all body

theorem parts_defaultsScript (index : Nat) (params : List Pattern) :
    (defaultsScript index params).parts = Place.value.all (params.flatMap Pattern.defaults) := by
  induction params generalizing index with
  | nil => rfl
  | cons param rest ih =>
    simp only [defaultsScript, Script.parts_append, Script.parts_values, Script.parts, ih,
      List.flatMap_cons, Place.all_append]

theorem parts_functionScript (name : Option String) (params : ParamList) (body : List SExpr) :
    (functionScript name params body).parts = Place.default.all params.defaults ++
      ((name.map fun name => Part.act (.declare ⟨name, params, body⟩)).toList ++
        Place.inner.all body) := by
  have hinside : ((Script.statements body).inPlace .inner).parts = Place.inner.all body := by
    rw [Script.parts_inPlace, Script.parts_statements, Place.map_inPlace_all]
  have hdefaults : ((defaultsScript 0 params.params).inPlace .default).parts =
      Place.default.all params.defaults := by
    rw [Script.parts_inPlace, parts_defaultsScript, Place.map_inPlace_all]
    rfl
  cases name <;> simp [functionScript, Script.declaring, Script.parts, hdefaults, hinside]

namespace FunctionSpec

def declaredName? (spec : FunctionSpec) : Option String :=
  if spec.isDeclared then spec.name.map Symbol.identifier else none

def script (spec : FunctionSpec) : Script := functionScript spec.declaredName? spec.params spec.body

def parts (spec : FunctionSpec) : List Part := spec.script.parts

theorem functionParts_subset (spec : FunctionSpec) :
    functionParts spec.params spec.body ⊆ spec.parts := by
  rw [parts, script, parts_functionScript]
  intro part hpart
  rcases List.mem_append.mp hpart with h | h
  · exact List.mem_append_left _ h
  · exact List.mem_append_right _ (List.mem_append_right _ h)

theorem mem_parts {spec : FunctionSpec} {part : Part} (h : part ∈ spec.parts) :
    part ∈ functionParts spec.params spec.body ∨ ∃ signature, part = .act (.declare signature) := by
  rw [parts, script, parts_functionScript] at h
  rcases List.mem_append.mp h with h | h
  · exact .inl (List.mem_append_left _ h)
  · rcases List.mem_append.mp h with h | h
    · obtain ⟨name, -, rfl⟩ := Option.map_eq_some_iff.mp (Option.mem_toList.mp h)
      exact .inr ⟨_, rfl⟩
    · exact .inl (List.mem_append_right _ h)

end FunctionSpec

end Lowering

/-! ## What is done below a tree -/

/-- What is done in a place, as the form around it sees it: the body of a function and that of a loop
do not jump back to the loop around them. -/
def Place.outward (acts : List Act) : Place → List Act
  | .inner | .looped => acts.filter fun act => !act.isJump
  | _ => acts

def Part.acts (below : SExpr → List Act) : Part → List Act
  | .tree place t => place.outward (below t)
  | .act own => [own]

def SExpr.actsWithin : Nat → SExpr → List Act
  | 0, _ => []
  | n + 1, t => t.parts.flatMap (Part.acts (actsWithin n))

/-- What the form and the trees in it do, in their order. -/
def SExpr.acts (t : SExpr) : List Act := t.actsWithin t.depth

/-- What the function forms in a tree declare, in the order in which they are lowered: a function is
declared after the defaults of its parameters and before its body. -/
def SExpr.signatures (t : SExpr) : List Signature := t.acts.filterMap Act.signature?

/-- How many `recur` forms of a tree jump to the loop around it. Those in functions and in loops inside
the tree do not. -/
def SExpr.recurs (t : SExpr) : Nat := t.acts.countP Act.isJump

/-! ## Trees below a tree -/

/-- A tree is a part of a part, at any depth. -/
inductive SExpr.Below : SExpr → SExpr → Prop where
  | refl (t : SExpr) : Below t t
  | part {t part u : SExpr} {place : Place} : .tree place part ∈ t.parts → Below part u → Below t u

variable {t u v : SExpr} {P : Part → Prop} {place : Place} {ts : List SExpr}

theorem SExpr.Below.trans (h : t.Below u) (h' : u.Below v) : t.Below v := by
  induction h with
  | refl => exact h'
  | part hpart _ ih => exact .part hpart (ih h')

theorem SExpr.parts_atom (h : t.items? = none) : t.parts = [] := by
  cases t with
  | list items p => cases h
  | symbol | literal => rfl

/-! ## Conditions on parts -/

/-- The parts of the tree meet the condition, at every depth. -/
def SExpr.Everywhere (P : Part → Prop) (t : SExpr) : Prop := ∀ u, t.Below u → ∀ part ∈ u.parts, P part

def Part.Everywhere (P : Part → Prop) : Part → Prop
  | .tree place u => P (.tree place u) ∧ u.Everywhere P
  | .act a => P (.act a)

theorem SExpr.Everywhere.below (h : t.Everywhere P) (hu : t.Below u) : u.Everywhere P :=
  fun v hv => h v (hu.trans hv)

theorem SExpr.everywhere_iff : t.Everywhere P ↔ ∀ part ∈ t.parts, part.Everywhere P := by
  constructor
  · intro h part hpart
    match part with
    | .tree place u => exact ⟨h t (.refl t) _ hpart, h.below (.part hpart (.refl u))⟩
    | .act act => exact h t (.refl t) _ hpart
  · intro h u hu
    cases hu with
    | refl =>
      intro part hpart
      match part with
      | .tree place u => exact (h _ hpart).1
      | .act act => exact h _ hpart
    | part hpart hbelow => exact (h _ hpart).2 u hbelow

theorem SExpr.everywhere_atom (h : t.items? = none) : t.Everywhere P := by
  rw [everywhere_iff, parts_atom h]
  simp

theorem everywhere_of_partAt (h : ∀ part ∈ t.partAt place, part.Everywhere P) : t.Everywhere P := by
  cases t with
  | list items p => exact (h (.tree place (.list items p)) (by simp [SExpr.partAt])).2
  | symbol | literal => exact SExpr.everywhere_atom rfl

theorem everywhere_of_all (h : ∀ part ∈ place.all ts, part.Everywhere P) : ∀ t ∈ ts, t.Everywhere P :=
  fun t ht => everywhere_of_partAt fun part hpart => h part (List.mem_flatMap.mpr ⟨t, ht, hpart⟩)

theorem everywhere_all (hplace : ∀ t, P (.tree place t)) (h : ∀ t ∈ ts, t.Everywhere P) :
    ∀ part ∈ place.all ts, part.Everywhere P := by
  intro part hpart
  obtain ⟨t, ht, rfl⟩ := Place.mem_all hpart
  exact ⟨hplace t, h t ht⟩

theorem forall_of_all {Q : SExpr → Prop} (h : ∀ part ∈ place.all ts, part.Everywhere P)
    (hatom : ∀ t : SExpr, t.items? = none → Q t) (hP : ∀ t, P (.tree place t) → Q t) : ∀ t ∈ ts, Q t := by
  intro t ht
  cases t with
  | list items p =>
    have hpart : Part.tree place (.list items p) ∈ place.all ts :=
      List.mem_flatMap.mpr ⟨_, ht, by simp [SExpr.partAt]⟩
    exact hP _ (h _ hpart).1
  | symbol | literal => exact hatom _ rfl

end LispLowering
