import LispLowering.Proofs.Erasure.Basic

/-!
# Trees inside trees
-/

namespace LispLowering

open SExpr List

variable {t : SExpr} {pattern : Pattern}

/-! ## Hereditary properties -/

/-- A property of trees that every list passes on to its items. -/
def Hereditary (T : SExpr → Prop) : Prop := ∀ items p, T (.list items p) → ∀ item ∈ items, T item

theorem hereditary_true : Hereditary fun _ => True := fun _ _ _ _ _ => trivial

namespace SExpr

def children : SExpr → List SExpr
  | .list items _ => items
  | _ => []

def string? : SExpr → Option String
  | .literal (.string text) _ => some text
  | _ => none

def mapKeys : List SExpr → List String
  | key :: _ :: rest => key.string?.toList ++ mapKeys rest
  | _ => []

theorem depth_le_depthItems {items : List SExpr} {item : SExpr} (h : item ∈ items) :
    item.depth ≤ depthItems items := by
  induction items with
  | nil => cases h
  | cons first rest ih =>
    rcases mem_cons.mp h with rfl | h
    · exact Nat.le_max_left _ _
    · exact Nat.le_trans (ih h) (Nat.le_max_right _ _)

theorem hereditary_depth_le (n : Nat) : Hereditary fun t => t.depth ≤ n := by
  intro items p h item hitem
  simp only [depth] at h
  have := depth_le_depthItems hitem
  omega

end SExpr

theorem Hereditary.children {T : SExpr → Prop} (hT : Hereditary T) (h : T t) :
    ∀ child ∈ t.children, T child := by
  cases t with
  | symbol | literal => intro child hchild; cases hchild
  | list items p => exact hT items p h

/-! ## Defaults of patterns -/

namespace Pattern

mutual

/-- The defaults of a pattern, in the order in which they are lowered. A skipped target has none. -/
def defaults : Pattern → List SExpr
  | ⟨.skip, _, _⟩ => []
  | ⟨kind, default, _⟩ => kindDefaults kind ++ default.toList

def kindDefaults : PatternKind → List SExpr
  | .identifier _ _ => []
  | .array elements => elementDefaults elements
  | .object properties rest => propertyDefaults properties ++ restDefaults rest
  | .rest inner => defaults inner
  | .skip => []

def elementDefaults : List Pattern → List SExpr
  | [] => []
  | element :: rest => defaults element ++ elementDefaults rest

def propertyDefaults : List PropertyPattern → List SExpr
  | [] => []
  | ⟨_, value⟩ :: rest => defaults value ++ propertyDefaults rest

def restDefaults : Option Pattern → List SExpr
  | none => []
  | some rest => defaults rest

end

theorem elementDefaults_eq_flatMap (elements : List Pattern) :
    elementDefaults elements = elements.flatMap defaults := by
  induction elements with
  | nil => rfl
  | cons element rest ih => simp only [elementDefaults, flatMap_cons, ih]

end Pattern

def ParamList.defaults (list : ParamList) : List SExpr := list.params.flatMap Pattern.defaults

/-! ## Results of reading -/

/-- A reading succeeds with a result or fails with an error, each of which has its property. -/
def Answered {ε α : Type} (E : ε → Prop) (R : α → Prop) : Except ε α → Prop
  | .ok a => R a
  | .error e => E e

namespace Answered

variable {ε α β : Type} {E : ε → Prop} {R : α → Prop} {Q : β → Prop} {x : Except ε α}

theorem bind {f : α → Except ε β} (hx : Answered E R x) (hf : ∀ a, R a → Answered E Q (f a)) :
    Answered E Q (x >>= f) := by
  cases x with
  | ok a => exact hf a hx
  | error e => exact hx

theorem ite {p : Prop} [Decidable p] {y : Except ε α} (hx : Answered E R x) (hy : Answered E R y) :
    Answered E R (if p then x else y) := by
  split
  · exact hx
  · exact hy

theorem of_ok {a : α} (hx : Answered E R x) (h : x = .ok a) : R a := by
  rw [h] at hx
  exact hx

theorem imp {E' : ε → Prop} {R' : α → Prop} (hx : Answered E R x) (hE : ∀ e, E e → E' e)
    (hR : ∀ a, x = .ok a → R a → R' a) : Answered E' R' x := by
  cases x with
  | ok a => exact hR a rfl hx
  | error e => exact hE e hx

end Answered

/-- Two readings that both fail, the first one with an error that has its property, or that both succeed, with
results that `f` takes to each other and of which the first one has its property. -/
inductive ReadsAlike {ε α : Type} (E : ε → Prop) (f : α → α) (R : α → Prop) :
    Except ε α → Except ε α → Prop where
  | ok {a : α} : R a → ReadsAlike E f R (.ok a) (.ok (f a))
  | error {e e' : ε} : E e → ReadsAlike E f R (.error e) (.error e')

namespace ReadsAlike

variable {ε α β : Type} {E : ε → Prop} {f : α → α} {g : β → β} {R : α → Prop} {Q : β → Prop}
  {x x' : Except ε α}

theorem pure {a a' : α} (h : f a = a') (ha : R a) : ReadsAlike E f R (Pure.pure a) (Pure.pure a') :=
  h ▸ .ok ha

theorem bind {k k' : α → Except ε β} (hx : ReadsAlike E f R x x')
    (hk : ∀ a, R a → ReadsAlike E g Q (k a) (k' (f a))) : ReadsAlike E g Q (x >>= k) (x' >>= k') := by
  cases hx with
  | ok ha => exact hk _ ha
  | error he => exact .error he

theorem ite {p p' : Prop} [Decidable p] [Decidable p'] {y y' : Except ε α} (h : p' ↔ p)
    (hx : ReadsAlike E f R x x') (hy : ReadsAlike E f R y y') :
    ReadsAlike E f R (if p then x else y) (if p' then x' else y') := by
  by_cases hp : p
  · rwa [if_pos hp, if_pos (h.mpr hp)]
  · rwa [if_neg hp, if_neg (mt h.mp hp)]

theorem imp {R' : α → Prop} (h : ReadsAlike E f R x x') (hR : ∀ a, R a → R' a) : ReadsAlike E f R' x x' := by
  cases h with
  | ok ha => exact .ok (hR _ ha)
  | error he => exact .error he

theorem answered (h : ReadsAlike E f R x x') : Answered E R x := by
  cases h with
  | ok ha => exact ha
  | error he => exact he

end ReadsAlike

theorem except_bind_ok {ε α β : Type} {x : Except ε α} {f : α → Except ε β} {b : β}
    (h : (x >>= f) = .ok b) : ∃ a, x = .ok a ∧ f a = .ok b := by
  cases x with
  | error e => cases h
  | ok a => exact ⟨a, rfl, h⟩

/-! ## What patterns are made of -/

/-- What may be drawn on where trees are read: trees, the texts of symbols and keys, the names that such
texts bind, without a rest mark in front or a colon at the end, and positions. -/
structure Supply where
  trees : SExpr → Prop
  texts : String → Prop
  names : String → Prop
  positions : Option Position → Prop
  hereditary : Hereditary trees
  symbol : ∀ text p, trees (.symbol text p) → texts text
  position : ∀ t, trees t → positions t.position
  binds : ∀ {text part name ascribed}, texts text →
    part = text ∨ Pattern.restName? text = some part ∨ Text.stripEnd? ":" text = some part →
    Pattern.splitAscription part = .ok (name, ascribed) → names name

namespace Supply

variable (S : Supply)

/-- What the tree holds may be drawn on. -/
structure Opens (t : SExpr) : Prop where
  position : S.positions t.position
  symbol : ∀ text p, t = .symbol text p → S.texts text
  children : ∀ child ∈ t.children, S.trees child

/-- Reading a tree, and reading it without positions. -/
abbrev Reads {α : Type} (f : α → α) (R : α → Prop) (x x' : Except SyntaxFault α) : Prop :=
  ReadsAlike (fun fault => S.positions fault.position) f R x x'

variable {S}

theorem opens (h : S.trees t) : S.Opens t where
  position := S.position t h
  symbol := fun text p heq => S.symbol text p (heq ▸ h)
  children := S.hereditary.children h

end Supply

mutual

/-- The pattern is made of what may be drawn on. -/
def Pattern.Drawn (S : Supply) : Pattern → Prop
  | ⟨kind, default, p⟩ => S.positions p ∧ kind.Drawn S ∧ ∀ value ∈ default, S.trees value

def PatternKind.Drawn (S : Supply) : PatternKind → Prop
  | .skip => True
  | .identifier name _ => S.names name
  | .array elements => Pattern.AllDrawn S elements
  | .object properties rest => Pattern.EntriesDrawn S properties ∧ Pattern.RestDrawn S rest
  | .rest inner => inner.Drawn S

def Pattern.AllDrawn (S : Supply) : List Pattern → Prop
  | [] => True
  | pattern :: rest => pattern.Drawn S ∧ Pattern.AllDrawn S rest

def Pattern.EntriesDrawn (S : Supply) : List PropertyPattern → Prop
  | [] => True
  | ⟨_, value⟩ :: rest => value.Drawn S ∧ Pattern.EntriesDrawn S rest

def Pattern.RestDrawn (S : Supply) : Option Pattern → Prop
  | none => True
  | some rest => rest.Drawn S

end

/-! ## Patterns that are drawn -/

namespace Pattern

variable {S : Supply} {p : Option Position}

theorem Drawn.position (h : pattern.Drawn S) : S.positions pattern.position := by
  cases pattern
  exact h.1

theorem Drawn.withDefault (h : pattern.Drawn S) {value : SExpr}
    (hvalue : S.trees value) : Drawn S { pattern with default := some value } := by
  cases pattern
  refine ⟨h.1, h.2.1, fun _ hgiven => ?_⟩
  cases hgiven
  exact hvalue

theorem allDrawn_iff {patterns : List Pattern} :
    AllDrawn S patterns ↔ ∀ pattern ∈ patterns, pattern.Drawn S := by
  induction patterns with
  | nil => simp [AllDrawn]
  | cons pattern rest ih =>
    rw [forall_mem_cons, ← ih]
    rfl

theorem drawn_rest {inner : Pattern} (h : inner.Drawn S) (hp : S.positions p) :
    Drawn S ⟨.rest inner, none, p⟩ :=
  ⟨hp, h, by simp⟩

theorem erase_with_default (value : SExpr) : erase { pattern with default := some value } =
      { pattern.erase with default := some value.erase } := by
  cases pattern
  rfl

@[simp] theorem isRestMark_erase : isRestMark t.erase = isRestMark t := by
  simp only [isRestMark, isSymbol_erase]

@[simp] theorem isMarkedRest_erase : isMarkedRest t.erase = isMarkedRest t := by
  simp only [isMarkedRest, symbol?_erase]

theorem keyOf_alike (t : SExpr) :
    ReadsAlike (fun _ => True) id (fun _ => True) (keyOf t) (keyOf t.erase) := by
  cases t with
  | symbol name p => exact .ite Iff.rfl (.error trivial) (.ok trivial)
  | literal value p =>
    cases value with
    | string key => exact .ok trivial
    | _ => exact .error trivial
  | list items p => exact .error trivial

end Pattern
/-! ## Defaults are trees inside -/

namespace Pattern

variable {S : Supply}

mutual

theorem Drawn.defaults : (pattern : Pattern) → pattern.Drawn S → ∀ d ∈ pattern.defaults, S.trees d
  | ⟨.skip, _, _⟩, _ => by simp [Pattern.defaults]
  | ⟨.identifier _ _, _, _⟩, h => by simpa [Pattern.defaults, kindDefaults] using h.2.2
  | ⟨.array elements, _, _⟩, h => by
    have hinner := AllDrawn.defaults elements h.2.1
    simp only [Pattern.defaults, kindDefaults, forall_mem_append]
    exact ⟨hinner, by simpa using h.2.2⟩
  | ⟨.object properties rest, _, _⟩, h => by
    have hentries := EntriesDrawn.defaults properties h.2.1.1
    have hrest := RestDrawn.defaults rest h.2.1.2
    simp only [Pattern.defaults, kindDefaults, forall_mem_append]
    exact ⟨⟨hentries, hrest⟩, by simpa using h.2.2⟩
  | ⟨.rest inner, _, _⟩, h => by
    have hinner := Drawn.defaults inner h.2.1
    simp only [Pattern.defaults, kindDefaults, forall_mem_append]
    exact ⟨hinner, by simpa using h.2.2⟩

theorem AllDrawn.defaults : (elements : List Pattern) → AllDrawn S elements →
    ∀ d ∈ elementDefaults elements, S.trees d
  | [], _ => nofun
  | element :: rest, h => forall_mem_append.mpr ⟨Drawn.defaults element h.1, AllDrawn.defaults rest h.2⟩

theorem EntriesDrawn.defaults : (properties : List PropertyPattern) → EntriesDrawn S properties →
    ∀ d ∈ propertyDefaults properties, S.trees d
  | [], _ => nofun
  | ⟨_, value⟩ :: rest, h =>
    forall_mem_append.mpr ⟨Drawn.defaults value h.1, EntriesDrawn.defaults rest h.2⟩

theorem RestDrawn.defaults : (rest : Option Pattern) → RestDrawn S rest →
    ∀ d ∈ restDefaults rest, S.trees d
  | none, _ => nofun
  | some rest, h => Drawn.defaults rest h

end

end Pattern

section

variable {T : SExpr → Prop}

/-- Only the trees matter. -/
def Supply.ofTrees (hT : Hereditary T) : Supply where
  trees := T
  texts := fun _ => True
  names := fun _ => True
  positions := fun _ => True
  hereditary := hT
  symbol := fun _ _ _ => trivial
  position := fun _ _ => trivial
  binds := fun _ _ _ => trivial

theorem Supply.opens_ofTrees (hT : Hereditary T) (h : ∀ child ∈ t.children, T child) :
    (Supply.ofTrees hT).Opens t :=
  ⟨trivial, fun _ _ _ => trivial, h⟩

end

end LispLowering
