import LispLowering.Proofs.Inside
import LispLowering.Proofs.Provenance.Spelling
import LispLowering.Proofs.Provenance.Watch

/-!
# Trees under watch
-/

namespace LispLowering

open Lowering List Node SExpr

variable {t : SExpr} {node : Node}
  {nodes : List Node}

/-! ## Gaps of forms -/

namespace SExpr

mutual

def subtrees : SExpr → List SExpr
  | .symbol name p => [.symbol name p]
  | .literal value p => [.literal value p]
  | .list items p => .list items p :: subtreesIn items

def subtreesIn : List SExpr → List SExpr
  | [] => []
  | t :: rest => t.subtrees ++ subtreesIn rest

end

theorem mem_subtrees_self (t : SExpr) : t ∈ t.subtrees := by
  cases t <;> simp [subtrees]

theorem mem_subtrees_item {items : List SExpr} {item u : SExpr} (hitem : item ∈ items)
    (hu : u ∈ item.subtrees) (p : Option Position) : u ∈ (SExpr.list items p).subtrees := by
  refine mem_cons_of_mem _ ?_
  induction items with
  | nil => cases hitem
  | cons first rest ih =>
    rcases mem_cons.mp hitem with rfl | hrest
    · exact mem_append_left _ hu
    · exact mem_append_right _ (ih hrest)

/-- The first part behind the symbols is a parameter map. -/
def hasParamMap (parts : List SExpr) : Bool :=
  match parts.dropWhile fun part => part.symbol?.isSome with
  | params :: _ => params.isForm "hash-map" || params.isForm "empty-map"
  | [] => false

/-- The clause of `cond` is always taken. -/
def isElseClause : SExpr → Bool
  | .list (test :: _) _ => isElse test
  | _ => false

end SExpr

def testCount (clauses : List SExpr) : Nat := (clauses.filter fun clause => !clause.isElseClause).length

/-- The gaps of `cond`: the value of a missing last branch, and the choices after the first one. -/
def condGaps (clauses : List SExpr) : List Gap :=
  (if testCount clauses = clauses.length then [.fallback] else []) ++
    if 2 ≤ testCount clauses then [.choice] else []

/-- The gap of an arrow function with parameters that are not written. -/
def arrowGaps (args : List SExpr) : List Gap :=
  if hasParamVector args = false ∧ implicitArity args ≠ 0 then [.implicit] else []

/-- The gap of an import of names. A module under a name has a position. -/
def importGaps : List SExpr → List Gap
  | [binding, _, _] => if binding.symbol?.isSome then [] else [.specifier]
  | _ => []

def exportGaps : List SExpr → List Gap
  | [only] => if isNameList only then [.specifier] else []
  | _ => []

def specialGaps (special : SpecialForm) (args : List SExpr) : List Gap :=
  match special with
  | .branch => if args.length = 2 then [.fallback] else []
  | .cond => condGaps args
  | .trying | .label => [.block]
  | .switching => [.exit]
  | .set | .emptySet => [.set]
  | .importing => importGaps args
  | .exporting => exportGaps args
  | .arrow => arrowGaps args
  | .async =>
    match args with
    | .symbol "=>" _ :: rest => arrowGaps rest
    | _ => []
  | _ => []

/-- The gaps of a list with a symbol at its head. A method is a list with a head of its own. -/
def formGaps (head : String) (args : List SExpr) : List Gap :=
  (match HeadMeaning.ofName head with
    | .special special => specialGaps special args
    | _ => []) ++
  if head ∈ SExpr.functionHeads ∧ SExpr.hasParamMap args = true then [.noArguments] else []

/-- The form has a parameter list among its arguments. -/
def SpecialForm.hasParams : SpecialForm → Bool
  | .function | .generator | .async => true
  | _ => false

/-- All arguments of the form are values. -/
def SpecialForm.takesValues : SpecialForm → Bool
  | .returning | .yielding _ | .awaiting | .branch | .sequence | .throwing | .recur | .whileLoop | .vector
  | .map | .set | .get | .construct | .template | .spread | .methodCall | .propertyGet | .propertySet
  | .getInvoke | .dynamicImport | .operator _ => true
  | _ => false

theorem mem_functionHeads {name : String} {special : SpecialForm}
    (h : HeadMeaning.ofName name = .special special) (hparams : special.hasParams = true) :
    name ∈ SExpr.functionHeads := by
  have hheads : ∀ entry ∈ SpecialForm.heads, entry.2.hasParams = true →
      entry.1 ∈ SExpr.functionHeads := by decide
  unfold HeadMeaning.ofName at h
  split at h
  · cases h
  · split at h
    · next hlookup =>
      cases h
      obtain ⟨before, after, heq, -⟩ := lookup_eq_some_iff.mp hlookup
      exact hheads (name, special) (by simp [heq]) hparams
    · cases h

def SExpr.ownGaps : SExpr → List Gap
  | .list (.symbol head _ :: args) _ => formGaps head args
  | _ => []

/-- The gaps that the forms inside the tree leave. -/
def SExpr.gaps (t : SExpr) : List Gap := t.subtrees.flatMap ownGaps

/-! ## Trees -/

/-- The tree is fit for being lowered under the watch. -/
structure SExpr.Suits (w : Watch) (t : SExpr) : Prop where
  trees : ∀ u ∈ t.subtrees, w.trees u
  known : ∀ u ∈ t.subtrees, w.Known u.position
  avoids : ∀ name ∈ w.names, t.Avoids name
  gaps : ∀ gap ∈ t.gaps, w.gaps gap

abbrev SExpr.SuitIn (w : Watch) : List SExpr → Prop := Each (Suits w)

/-- The text of a symbol gives no name that is watched. -/
def Watch.Silent (w : Watch) (text : String) : Prop := ∀ name ∈ w.names, ¬Symbol.Gives text name

/-- The parts of a function, behind a head that says so, are fit for being lowered under the watch. -/
structure SExpr.SuitParts (w : Watch) (parts : List SExpr) : Prop where
  items : SuitIn w parts
  keys : ∀ key ∈ SExpr.paramKeys parts, w.Silent key
  map : SExpr.hasParamMap parts = true → w.gaps .noArguments

namespace SExpr

variable {w : Watch} {t : SExpr} {trees : List SExpr} {p q : Option Position} {head text : String}

theorem Suits.position (h : t.Suits w) : w.Known t.position := h.known t t.mem_subtrees_self

theorem suitIn_iff : SuitIn w trees ↔ ∀ t ∈ trees, t.Suits w := each_iff

theorem Suits.items (h : (SExpr.list trees p).Suits w) : ∀ item ∈ trees, item.Suits w := by
  intro item hitem
  refine ⟨fun u hu => h.trees u (mem_subtrees_item hitem hu p),
    fun u hu => h.known u (mem_subtrees_item hitem hu p), fun name hname => ?_, fun gap hgap => ?_⟩
  · exact avoidIn_iff.mp (h.avoids name hname).items item hitem
  · obtain ⟨u, hu, hmem⟩ := mem_flatMap.mp hgap
    exact h.gaps gap (mem_flatMap.mpr ⟨u, mem_subtrees_item hitem hu p, hmem⟩)

theorem Suits.itemsIn (h : (SExpr.list trees p).Suits w) : SuitIn w trees := suitIn_iff.mpr h.items

theorem Suits.symbol (h : (SExpr.symbol text p).Suits w) : w.Silent text :=
  fun name hname => (h.avoids name hname).symbol

theorem hereditary_suits : Hereditary (Suits w) := fun _ _ h => h.items

theorem Suits.bindingItems (h : t.Suits w) : SuitIn w t.bindingItems :=
  Lowering.bindingItems_of hereditary_suits h

/-- The pairs of a target and a value among the items of a binding list. -/
def pairsOf : List SExpr → List (SExpr × SExpr)
  | target :: value :: rest => (target, value) :: pairsOf rest
  | _ => []

theorem mem_of_pairsOf {pair : SExpr × SExpr} (h : pair ∈ pairsOf trees) :
    pair.1 ∈ trees ∧ pair.2 ∈ trees := by
  induction trees using List.twoStepInduction with
  | nil | singleton => cases h
  | cons_cons target value rest ih _ =>
    rcases mem_cons.mp h with rfl | h
    · exact ⟨.head _, .tail _ (.head _)⟩
    · exact ⟨.tail _ (.tail _ (ih h).1), .tail _ (.tail _ (ih h).2)⟩

theorem suits_pairsOf (h : SuitIn w trees) : ∀ pair ∈ pairsOf trees, pair.1.Suits w ∧ pair.2.Suits w :=
  fun _ hpair => ⟨suitIn_iff.mp h _ (mem_of_pairsOf hpair).1, suitIn_iff.mp h _ (mem_of_pairsOf hpair).2⟩

theorem Suits.formGaps (h : (SExpr.list (.symbol head q :: trees) p).Suits w) :
    ∀ gap ∈ formGaps head trees, w.gaps gap :=
  fun gap hgap => h.gaps gap (mem_flatMap.mpr ⟨_, mem_subtrees_self _, hgap⟩)

theorem Suits.parts (h : (SExpr.list (.symbol head q :: trees) p).Suits w) (hhead : head ∈ functionHeads) :
    SuitParts w trees where
  items := h.itemsIn.2
  keys := fun key hkey name hname => (h.avoids name hname).keys hhead key hkey
  map := fun hmap => h.formGaps _ (by simp [LispLowering.formGaps, hhead, hmap])

theorem SuitParts.behind_symbol (h : SuitParts w (.symbol text p :: trees)) : SuitParts w trees where
  items := h.items.2
  keys := h.keys
  map := h.map

end SExpr

/-! ## Readings -/

/-- A reading of syntax gives what has the property, or fails at a site. -/
abbrev Watch.Reads {α : Type} (w : Watch) (R : α → Prop) (x : Except SyntaxFault α) : Prop :=
  Answered (fun fault => w.Sited fault.position) R x

/-- How the diagnostics of lowering arise: for a fault at a position, for a fault of syntax, and around
another diagnostic that has no location. -/
inductive Diagnostic.Raised (P : Position → Prop) : Diagnostic → Prop where
  | fault (fault : Fault) {p : Option Position} : Known P p → Raised P (fault.place p)
  | reading (fault : SyntaxFault) : Known P fault.position → Raised P (.ofSyntax fault)
  | inForm {d : Diagnostic} (name : String) {p : Option Position} :
      Raised P d → Known P p → Raised P (d.inForm name p)

theorem TypeExpr.ReadAlike.pinned {α : Type} {x x' : Except Diagnostic α}
    (h : ReadAlike (Suits w) x x') : Answered (Diagnostic.Raised w.sites) (fun _ => True) x := by
  cases h with
  | ok a => trivial
  | error e hfault ht => exact .fault _ ht.position.1

/-! ## Patterns -/

mutual

/-- What the pattern is lowered to is allowed, as far as the pattern says. -/
def Pattern.Suits (w : Watch) : Pattern → Prop
  | ⟨kind, default, p⟩ => kind.Suits w p ∧ ∀ value ∈ default, value.Suits w ∧ w.Known p

/-- What the shape is lowered to at the position is allowed, as far as the shape says. -/
def PatternKind.Suits (w : Watch) (p : Option Position) : PatternKind → Prop
  | .identifier name ascribed =>
    Symbol.identifier name ∉ w.names ∧
      w.Placed ⟨.identifier (Symbol.identifier name) (ascribed.map TypeExpr.ofText), p⟩
  | .array elements => w.Known p ∧ Pattern.SuitIn w elements
  | .object properties rest =>
    w.Known p ∧ Pattern.SuitInEntries w properties ∧ Pattern.SuitInRest w rest
  | .rest inner => w.Known p ∧ inner.Suits w ∧ w.Known inner.position
  | .skip => w.Known p

def Pattern.SuitIn (w : Watch) : List Pattern → Prop
  | [] => True
  | element :: rest => element.Suits w ∧ Pattern.SuitIn w rest

def Pattern.SuitInEntries (w : Watch) : List PropertyPattern → Prop
  | [] => True
  | ⟨_, value⟩ :: rest => (value.Suits w ∧ w.Known value.position) ∧ Pattern.SuitInEntries w rest

def Pattern.SuitInRest (w : Watch) : Option Pattern → Prop
  | none => True
  | some rest => rest.Suits w ∧ w.Known rest.position

end

/-- What trees that suit the watch hold. -/
def Watch.supply (w : Watch) : Supply where
  trees := Suits w
  texts := w.Silent
  names := fun name => Symbol.identifier name ∉ w.names
  positions := w.Known
  hereditary := hereditary_suits
  symbol := fun _ _ h => h.symbol
  position := fun _ h => h.position
  binds := fun htext hpart hsplit hmem => htext _ hmem (.binding hpart hsplit)

namespace Pattern

variable {w : Watch}

mutual

theorem Drawn.suits : (pattern : Pattern) → pattern.Drawn w.supply → pattern.Suits w
  | ⟨kind, _, _⟩, h => ⟨Drawn.kindSuits h.1 kind h.2.1, fun value hvalue => ⟨h.2.2 value hvalue, h.1⟩⟩

theorem Drawn.kindSuits {p : Option Position} (hp : w.Known p) :
    (kind : PatternKind) → kind.Drawn w.supply → kind.Suits w p
  | .skip, _ => hp
  | .identifier _ _, h => ⟨h, .inl hp⟩
  | .array elements, h => ⟨hp, AllDrawn.suitIn elements h⟩
  | .object properties rest, h => ⟨hp, EntriesDrawn.suitIn properties h.1, RestDrawn.suitIn rest h.2⟩
  | .rest inner, h => ⟨hp, Drawn.suits inner h, Drawn.position h⟩

theorem AllDrawn.suitIn : (elements : List Pattern) → AllDrawn w.supply elements → SuitIn w elements
  | [], _ => trivial
  | element :: rest, h => ⟨Drawn.suits element h.1, AllDrawn.suitIn rest h.2⟩

theorem EntriesDrawn.suitIn : (properties : List PropertyPattern) →
    EntriesDrawn w.supply properties → SuitInEntries w properties
  | [], _ => trivial
  | ⟨_, value⟩ :: rest, h => ⟨⟨Drawn.suits value h.1, h.1.position⟩, EntriesDrawn.suitIn rest h.2⟩

theorem RestDrawn.suitIn : (rest : Option Pattern) → RestDrawn w.supply rest → SuitInRest w rest
  | none, _ => trivial
  | some rest, h => ⟨Drawn.suits rest h, Drawn.position h⟩

end

theorem read_suits (h : t.Suits w) :
    w.Reads (fun pattern => pattern.Suits w ∧ w.Known pattern.position) (read t) :=
  (read_drawn t (Supply.opens (S := w.supply) h)).answered.imp (fun _ hfault => hfault.1)
    fun pattern _ h => ⟨Drawn.suits pattern h.drawn, h.drawn.position⟩

end Pattern

/-! ## Parameter lists -/

/-- The parameters suit the watch, and if they are written as a map, the object that stands in for a
missing one may be without a position. -/
structure ParamList.Suits (w : Watch) (list : ParamList) : Prop where
  params : ∀ param ∈ list.params, param.Suits w
  map : list.structured = true → w.gaps .noArguments ∧ ∀ param ∈ list.params, w.Known param.position

namespace ParamList

variable {w : Watch}

theorem isForm_of_structured {list : ParamList} (h : read t = .ok list)
    (hmap : list.structured = true) : t.isForm "hash-map" = true ∨ t.isForm "empty-map" = true := by
  have hplain {p : Option Position} {items : List SExpr} (h : readPlain p items = .ok list) : False := by
    obtain ⟨params, -, h⟩ := except_bind_ok h
    obtain ⟨-, -, h⟩ := except_bind_ok h
    cases h
    cases hmap
  cases t with
  | symbol | literal => cases h
  | list items p =>
    simp only [read] at h
    split at h
    · next hhead => exact .inl (by simp [SExpr.isForm, hhead])
    · next hhead => exact .inr (by simp [SExpr.isForm, hhead])
    · cases h
      cases hmap
    · exact (hplain h).elim
    · exact (hplain h).elim

theorem read_suits (h : t.Suits w)
    (hkeys : t.isForm "hash-map" = true → ∀ key ∈ SExpr.mapKeys t.children.tail, w.Silent key)
    (hmap : t.isForm "hash-map" = true ∨ t.isForm "empty-map" = true → w.gaps .noArguments) :
    w.Reads (Suits w) (read t) := by
  refine (read_drawn (Supply.opens (S := w.supply) h) hkeys).answered.imp (fun _ hfault => hfault.1) ?_
  intro list hread hlist
  exact ⟨fun param hparam => Pattern.Drawn.suits param (hlist.drawn param hparam), fun hstruct =>
    ⟨hmap (isForm_of_structured hread hstruct), fun param hparam => (hlist.drawn param hparam).position⟩⟩

theorem read_suits_of_parts {params : SExpr} {body : List SExpr}
    (h : SuitParts w (params :: body)) : w.Reads (Suits w) (read params) := by
  have hparams := h.items.1
  cases params with
  | symbol | literal => exact hparams.position.1
  | list items p =>
    refine read_suits hparams (fun hform => ?_) fun hform => h.map ?_
    · have heq : SExpr.paramKeys (.list items p :: body) =
          if (SExpr.list items p).isForm "hash-map" then SExpr.mapKeys items.tail else [] := rfl
      have hkeys := h.keys
      rw [heq, if_pos hform] at hkeys
      exact hkeys
    · have heq : SExpr.hasParamMap (.list items p :: body) =
          ((SExpr.list items p).isForm "hash-map" || (SExpr.list items p).isForm "empty-map") := rfl
      rw [heq, Bool.or_eq_true]
      exact hform

end ParamList

/-! ## A single name -/

/-- Only the name is watched. -/
def Watch.only (label : String) (h : ¬IsOwnName label) : Watch where
  names := [label]
  sites := fun _ => True
  free := True
  gaps := fun _ => True
  trees := fun _ => True
  strict := False
  shut := false
  foreign := by
    intro name hname hown
    rw [mem_singleton.mp hname] at hown
    exact absurd hown h

section Only

variable {label : String} {hforeign : ¬IsOwnName label}

theorem Watch.known_only : (Watch.only label hforeign).Known p := ⟨fun _ _ => trivial, .inl trivial⟩

theorem SExpr.Avoids.suits (h : t.Avoids label) : t.Suits (.only label hforeign) where
  trees := fun _ _ => trivial
  known := fun _ _ => Watch.known_only
  avoids := by
    intro name hname
    rw [mem_singleton.mp hname]
    exact h
  gaps := fun _ _ => trivial

theorem SExpr.AvoidIn.suitIn (h : AvoidIn label trees) : SuitIn (.only label hforeign) trees :=
  suitIn_iff.mpr fun t ht => (avoidIn_iff.mp h t ht).suits

theorem Node.Allowed.lacks (h : node.Allowed (.only label hforeign)) : node.Lacks label :=
  Every.imp h fun _ hm => hm.self.spares label (.head _)

theorem Node.Lacks.allowed (h : node.Lacks label) : node.Allowed (.only label hforeign) := by
  refine Every.imp h fun m hm => ⟨fun _ hwatched => ?_, .inl Watch.known_only, fun _ _ => trivial⟩
  rw [mem_singleton.mp hwatched]
  exact hm.self

theorem Node.Pending.lacks (h : node.Pending (.only label hforeign)) : node.Lacks label := by
  obtain ⟨kind, p⟩ := node
  have hplaced : Anchored (.only label hforeign) ⟨kind, p⟩ := h.place Watch.known_only
  exact hplaced.allowed.lacks

theorem Node.AllowedIn.lackIn (h : AllowedIn (.only label hforeign) nodes) : LackIn label nodes :=
  allIn_iff.mpr fun node hnode => Allowed.lacks (everyIn_iff.mp h node hnode)

theorem Node.LackIn.allowedIn (h : LackIn label nodes) : AllowedIn (.only label hforeign) nodes :=
  everyIn_iff.mpr fun node hnode => Lacks.allowed (allIn_iff.mp h node hnode)

theorem Watch.silent_only {text : String} (h : ¬Symbol.Gives text label) :
    (Watch.only label hforeign).Silent text := by
  intro name hname
  rw [mem_singleton.mp hname]
  exact h

end Only

/-! ## Positions and trees -/

theorem Watch.foreign_nil : ∀ name ∈ ([] : List String), IsOwnName name →
    false = true ∧ name.toList.head? = some '$' :=
  List.forall_mem_nil _

/-- Only positions and trees are watched: all of them have their properties. -/
def Watch.within (S : Position → Prop) (T : SExpr → Prop) : Watch where
  names := []
  sites := S
  free := True
  gaps := fun _ => True
  trees := T
  strict := True
  shut := false
  foreign := foreign_nil

section Within

variable {S S' : Position → Prop} {T T' : SExpr → Prop}

theorem Watch.known_within (h : LispLowering.Known S p) : (Watch.within S T).Known p :=
  ⟨h, .inl trivial⟩

theorem SExpr.suits_within (h : ∀ u ∈ t.subtrees, Known S u.position ∧ T u) : t.Suits (.within S T) where
  trees := fun u hu => (h u hu).2
  known := fun u hu => Watch.known_within (h u hu).1
  avoids := forall_mem_nil _
  gaps := fun _ _ => trivial

theorem Node.Allowed.within (h : node.Allowed (.within S T)) (himp : ∀ q, S q → S' q) :
    node.Allowed (.within S' T') :=
  Every.imp h fun _ hm => ⟨forall_mem_nil _,
    .inl (Watch.known_within (Known.imp hm.self.placed.sited himp)),
    fun q hq => himp q (hm.self.labels q hq)⟩

end Within

theorem Node.Allowed.positions (h : node.Allowed w) (hshut : w.shut = false) :
    ∀ q ∈ node.positions, w.sites q := by
  rw [Allowed, hshut] at h
  exact Every.positions node (Every.imp h fun _ hm => ⟨hm.self.placed.sited, hm.self.labels⟩)

/-! ## The label of a loop -/

def Watch.loop (n : Nat) : Watch := .only (loopLabel n) (not_isOwnName (by simp [loopLabel]))

theorem Watch.mem_loop {name : String} {n : Nat} : name ∈ (Watch.loop n).names ↔ name = loopLabel n :=
  mem_singleton

end LispLowering
