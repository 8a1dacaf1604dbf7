import Mathlib
import LispLowering.Source.Interchange

/-!
# Trees through their interchange form
-/

namespace LispLowering

open List

variable {items : List Json} {tree : Json}

/-! ## Writing -/

/-- What is written for a tree at a position, given what is written for the tree itself. -/
def Json.atPosition : Option Position → Json → Json
  | none, tree => tree
  | some ⟨line, column, none⟩, tree =>
    .obj [("line", .int line), ("column", .int column), ("node", tree)]
  | some ⟨line, column, some file⟩, tree =>
    .obj [("line", .int line), ("column", .int column), ("file", .str file), ("node", tree)]

/-- A literal: a string is told apart from a symbol, and everything else stands for itself. -/
def Literal.interchange : Literal → Json
  | .null => .null
  | .bool value => .bool value
  | .number x => .ofNumber x
  | .string text => .obj [("str", .str text)]

namespace SExpr

mutual

def toJson : SExpr → Json
  | .symbol name p => .atPosition p (.str name)
  | .literal value p => .atPosition p value.interchange
  | .list items p => .atPosition p (.arr (itemsJson items))

def itemsJson : List SExpr → List Json
  | [] => []
  | item :: rest => toJson item :: itemsJson rest

end

mutual

def numbers : SExpr → List Binary64
  | .symbol _ _ => []
  | .literal value _ =>
    match value with
    | .number x => [x]
    | _ => []
  | .list items _ => numbersIn items

def numbersIn : List SExpr → List Binary64
  | [] => []
  | item :: rest => numbers item ++ numbersIn rest

end

/-! ## Reading what is written -/

theorem ofNodeMember_eq : ofNodeMember members = (Json.lookup "node" members).map ofJson := by
  induction members with
  | nil => rfl
  | cons member rest ih =>
    simp only [ofNodeMember, Json.lookup, ih]
    split <;> simp

variable {members : List (String × Json)}

theorem ofJson_obj_node (hstr : Json.lookup "str" members = none)
    (hnode : Json.lookup "node" members = some tree) :
    ofJson (.obj members) = do
      let node ← ofJson tree
      let position ← positionOf members
      return node.place (some position) := by
  rw [ofJson, ofNodeMember_eq, hstr, hnode]
  rfl

theorem place_none {t : SExpr} (h : t.position = none) : t.place none = t := by
  cases t <;> cases h <;> rfl

theorem indexOf_int {field : String} {n : Nat} (h : Json.lookup field members = some (.int n)) :
    indexOf field members = .ok n := by
  simp [indexOf, h, Json.index?]

theorem positionOf_eq {line column : Nat} {file : Option String}
    (hline : Json.lookup "line" members = some (.int line))
    (hcolumn : Json.lookup "column" members = some (.int column)) (hfile : fileOf members = .ok file) :
    positionOf members = .ok ⟨line, column, file⟩ := by
  rw [positionOf, indexOf_int hline, indexOf_int hcolumn, hfile]
  rfl

theorem ofJson_atPosition {t : SExpr} (h : ofJson tree = .ok t)
    (ht : t.position = none) (p : Option Position) : ofJson (.atPosition p tree) = .ok (t.place p) := by
  cases p with
  | none => rw [place_none ht, Json.atPosition, h]
  | some p =>
    obtain ⟨line, column, file⟩ := p
    cases file with
    | none =>
      -- without a file there is no member for it
      rw [Json.atPosition, ofJson_obj_node rfl rfl, h, positionOf_eq rfl rfl rfl]
      rfl
    | some file =>
      rw [Json.atPosition, ofJson_obj_node rfl rfl, h, positionOf_eq rfl rfl rfl]
      rfl

mutual

theorem ofJson_toJson : (t : SExpr) → (∀ x ∈ t.numbers, x.isFinite = true) → ofJson t.toJson = .ok t
  | .symbol name p, _ => ofJson_atPosition (t := .symbol name none) rfl rfl p
  | .literal value p, h => by
    have hvalue : ofJson value.interchange = .ok (.literal value none) := by
      cases value with
      | number x =>
        have hx : x.isFinite = true := h x (by simp [numbers])
        simp [Literal.interchange, Json.ofNumber, hx, ofJson]
      | _ => rfl
    exact ofJson_atPosition hvalue rfl p
  | .list items p, h => by
    have hitems : ofJson (.arr (itemsJson items)) = .ok (.list items none) := by
      rw [ofJson, ofItems_itemsJson items h]
      rfl
    exact ofJson_atPosition hitems rfl p

theorem ofItems_itemsJson : (items : List SExpr) → (∀ x ∈ numbersIn items, x.isFinite = true) →
    ofItems (itemsJson items) = .ok items
  | [], _ => rfl
  | item :: rest, h => by
    obtain ⟨hitem, hrest⟩ := forall_mem_append.mp h
    rw [itemsJson, ofItems, ofJson_toJson item hitem, ofItems_itemsJson rest hrest]
    rfl

end

end SExpr

/-! ## Objects that reading looks at -/

/-- Reading the value looks at the object: it is the value itself, or it is reached from an item of an
array or from the member `node` of an object without `str`. -/
inductive Json.Reaches : Json → List (String × Json) → Prop where
  | here (members : List (String × Json)) : Reaches (.obj members) members
  | item {items : List Json} {item : Json} {members : List (String × Json)} (hitem : item ∈ items) :
      Reaches item members → Reaches (.arr items) members
  | node {outer members : List (String × Json)} {tree : Json} (hstr : Json.lookup "str" outer = none)
      (hnode : Json.lookup "node" outer = some tree) : Reaches tree members →
      Reaches (.obj outer) members

namespace Json

mutual

/-- The objects that reading looks at, in the order in which it judges them. -/
def visited : Json → List (List (String × Json))
  | .arr items => visitedItems items
  | .obj members =>
    if (lookup "str" members).isSome then [members] else (visitedNode members).getD [] ++ [members]
  | _ => []

def visitedItems : List Json → List (List (String × Json))
  | [] => []
  | item :: rest => visited item ++ visitedItems rest

def visitedNode : List (String × Json) → Option (List (List (String × Json)))
  | [] => none
  | (name, value) :: rest => (visitedNode rest).or (if name = "node" then some (visited value) else none)

end

theorem visitedNode_eq : visitedNode members = (lookup "node" members).map visited := by
  induction members with
  | nil => rfl
  | cons member rest ih =>
    simp only [visitedNode, lookup, ih]
    split <;> simp

variable {members : List (String × Json)}

theorem visited_obj_str {value : Json} (hstr : lookup "str" members = some value) :
    visited (.obj members) = [members] := by
  simp [visited, hstr]

theorem visited_obj_node (hstr : lookup "str" members = none)
    (hnode : lookup "node" members = some tree) : visited (.obj members) = tree.visited ++ [members] := by
  simp [visited, hstr, visitedNode_eq, hnode]

theorem visited_obj_bare (hstr : lookup "str" members = none) (hnode : lookup "node" members = none) :
    visited (.obj members) = [members] := by
  simp [visited, hstr, visitedNode_eq, hnode]

end Json

/-! ## Faults of objects -/

/-- The member is a line or a column. -/
def HasIndex (field : String) (members : List (String × Json)) : Prop :=
  ∃ n : Nat, Json.lookup field members = some (.int n)

/-- The fault of an object itself, whatever is inside it. -/
inductive ObjectFault (members : List (String × Json)) : SyntaxFault → Prop where
  | string {value : Json} (hstr : Json.lookup "str" members = some value)
      (hvalue : ∀ text, value ≠ .str text) : ObjectFault members .stringExpected
  | unexpected (hstr : Json.lookup "str" members = none) (hnode : Json.lookup "node" members = none) :
      ObjectFault members (.unexpectedObject (Json.names members))
  | line (hstr : Json.lookup "str" members = none) (hnode : Json.lookup "node" members ≠ none)
      (hline : ¬HasIndex "line" members) : ObjectFault members (.invalidIndex "line")
  | column (hstr : Json.lookup "str" members = none) (hnode : Json.lookup "node" members ≠ none)
      (hline : HasIndex "line" members) (hcolumn : ¬HasIndex "column" members) :
      ObjectFault members (.invalidIndex "column")
  | file {value : Json} (hstr : Json.lookup "str" members = none)
      (hnode : Json.lookup "node" members ≠ none) (hline : HasIndex "line" members)
      (hcolumn : HasIndex "column" members) (hfile : Json.lookup "file" members = some value)
      (hnull : value ≠ .null) (hvalue : ∀ text, value ≠ .str text) :
      ObjectFault members (.invalidFile value)

/-- The object has no fault of its own. -/
def Faultfree (members : List (String × Json)) : Prop := ∀ fault, ¬ObjectFault members fault

/-- The fault of the first of the objects that has one. -/
def FirstFault (objects : List (List (String × Json))) (fault : SyntaxFault) : Prop :=
  ∃ before members after, objects = before ++ members :: after ∧
    (∀ earlier ∈ before, Faultfree earlier) ∧ ObjectFault members fault

namespace FirstFault

variable {objects objects' : List (List (String × Json))} {members : List (String × Json)}
  {fault : SyntaxFault}

theorem not_nil : ¬FirstFault [] fault := by
  rintro ⟨before, members, after, hobjects, -⟩
  simp at hobjects

theorem cons_iff : FirstFault (members :: objects) fault ↔
    ObjectFault members fault ∨ Faultfree members ∧ FirstFault objects fault := by
  constructor
  -- the first faulty object is the head, or the head comes before it and has no fault
  · rintro ⟨before, members', after, hobjects, hbefore, hfault⟩
    cases before with
    | nil =>
      cases hobjects
      exact .inl hfault
    | cons first before =>
      cases hobjects
      obtain ⟨hfirst, hbefore⟩ := forall_mem_cons.mp hbefore
      exact .inr ⟨hfirst, before, members', after, rfl, hbefore, hfault⟩
  · rintro (hfault | ⟨hfree, before, members', after, rfl, hbefore, hfault⟩)
    · exact ⟨[], members, objects, rfl, by simp, hfault⟩
    · exact ⟨members :: before, members', after, rfl, forall_mem_cons.mpr ⟨hfree, hbefore⟩, hfault⟩

theorem singleton_iff : FirstFault [members] fault ↔ ObjectFault members fault := by
  simp [cons_iff, not_nil]

theorem exists_iff : (∃ fault, FirstFault objects fault) ↔
    ∃ members ∈ objects, ∃ fault, ObjectFault members fault := by
  constructor
  · rintro ⟨fault, before, members, after, rfl, -, hfault⟩
    exact ⟨members, by simp, fault, hfault⟩
  · rintro ⟨members, hmembers, hfault⟩
    induction objects with
    | nil => cases hmembers
    | cons first objects ih =>
      by_cases hfirst : Faultfree first
      · -- a faultless object is passed over, so the faulty one is among the rest
        have hrest : members ∈ objects := by
          rcases mem_cons.mp hmembers with rfl | hrest
          · obtain ⟨fault, hfault⟩ := hfault
            exact absurd hfault (hfirst fault)
          · exact hrest
        obtain ⟨fault, hfault⟩ := ih hrest
        exact ⟨fault, cons_iff.mpr (.inr ⟨hfirst, hfault⟩)⟩
      · obtain ⟨fault, hfault⟩ := not_forall_not.mp hfirst
        exact ⟨fault, cons_iff.mpr (.inl hfault)⟩

theorem append_iff : FirstFault (objects ++ objects') fault ↔
    FirstFault objects fault ∨ (∀ members ∈ objects, Faultfree members) ∧ FirstFault objects' fault := by
  induction objects with
  | nil => simp [not_nil]
  | cons members objects ih =>
    simp only [cons_append, cons_iff, ih, forall_mem_cons]
    tauto

end FirstFault

/-- An outcome of reading that looks at the objects: it succeeds if none of them has a fault, and else it
fails with the fault of the first that has one. -/
inductive Judges {α : Type} (objects : List (List (String × Json))) : Except SyntaxFault α → Prop where
  | ok (a : α) (h : ∀ members ∈ objects, Faultfree members) : Judges objects (.ok a)
  | error {fault : SyntaxFault} (h : FirstFault objects fault) : Judges objects (.error fault)

namespace Judges

variable {α β : Type} {objects objects' : List (List (String × Json))}

theorem pure (a : α) : Judges [] (.ok a) := .ok a (by simp)

theorem bind {step : Except SyntaxFault α} {next : α → Except SyntaxFault β}
    (hstep : Judges objects step) (hnext : ∀ a, Judges objects' (next a)) :
    Judges (objects ++ objects') (step >>= next) := by
  cases hstep with
  | error hfirst => exact .error (FirstFault.append_iff.mpr (.inl hfirst))
  | ok a hfree =>
    have hresult := hnext a
    show Judges _ (next a)
    generalize next a = result at hresult ⊢
    cases hresult with
    | ok b hfree' => exact .ok b (forall_mem_append.mpr ⟨hfree, hfree'⟩)
    | error hfirst => exact .error (FirstFault.append_iff.mpr (.inr ⟨hfree, hfirst⟩))

end Judges

/-! ## Judging objects -/

variable {members : List (String × Json)}

theorem ObjectFault.unique {fault' : SyntaxFault} (h : ObjectFault members fault)
    (h' : ObjectFault members fault') : fault = fault' := by
  -- each fault presupposes that those before it do not arise
  cases h <;> cases h' <;> grind

theorem FirstFault.unique {fault' : SyntaxFault}
    (h : FirstFault objects fault) (h' : FirstFault objects fault') : fault = fault' := by
  induction objects with
  | nil => exact absurd h not_nil
  | cons members objects ih =>
    rw [cons_iff] at h h'
    rcases h with h | ⟨hfree, h⟩
    · rcases h' with h' | ⟨hfree', -⟩
      · exact h.unique h'
      · exact absurd h (hfree' fault)
    · rcases h' with h' | ⟨-, h'⟩
      · exact absurd h' (hfree fault')
      · exact ih h h'

section

variable {members : List (String × Json)}

theorem faultfree_string {text : String} (hstr : Json.lookup "str" members = some (.str text)) :
    Faultfree members := by
  intro fault hfault
  cases hfault <;> simp_all

theorem faultfree_position (hstr : Json.lookup "str" members = none)
    (hnode : Json.lookup "node" members ≠ none) (hline : HasIndex "line" members)
    (hcolumn : HasIndex "column" members) (hfile : ∀ value, Json.lookup "file" members = some value →
      value = .null ∨ ∃ text, value = .str text) : Faultfree members := by
  intro fault hfault
  cases hfault with
  | string hstr' => cases hstr.symm.trans hstr'
  | unexpected _ hnode' => exact hnode hnode'
  | line _ _ hline' => exact hline' hline
  | column _ _ _ hcolumn' => exact hcolumn' hcolumn
  | file _ _ _ _ hfile' hnull hvalue =>
    rcases hfile _ hfile' with rfl | ⟨text, rfl⟩
    · exact hnull rfl
    · exact hvalue text rfl

end

namespace SExpr

variable {members : List (String × Json)}

theorem indexOf_error {field : String} (h : ¬HasIndex field members) :
    indexOf field members = .error (.invalidIndex field) := by
  unfold indexOf
  split
  · next n hn =>
    obtain ⟨value, hvalue, hindex⟩ := Option.bind_eq_some_iff.mp hn
    -- only an integer that is not negative is an index
    refine absurd ⟨n, ?_⟩ h
    cases value with
    | int z =>
      simp only [Json.index?] at hindex
      split at hindex
      · cases hindex
        simp_all
      · cases hindex
    | _ => cases hindex
  · rfl

theorem judges_positionOf (hstr : Json.lookup "str" members = none)
    (hnode : Json.lookup "node" members ≠ none) : Judges [members] (positionOf members) := by
  by_cases hline : HasIndex "line" members
  · by_cases hcolumn : HasIndex "column" members
    · have hfree := faultfree_position hstr hnode hline hcolumn
      obtain ⟨line, hline'⟩ := hline
      obtain ⟨column, hcolumn'⟩ := hcolumn
      rw [positionOf, indexOf_int hline', indexOf_int hcolumn', fileOf]
      cases hfile : Json.lookup "file" members with
      | none => exact .ok _ (forall_mem_singleton.mpr (hfree (by simp [hfile])))
      | some value =>
        cases value with
        | null | str => exact .ok _ (forall_mem_singleton.mpr (hfree (by simp [hfile])))
        | _ =>
          exact .error (FirstFault.singleton_iff.mpr
            (.file hstr hnode ⟨line, hline'⟩ ⟨column, hcolumn'⟩ hfile (by simp) (by simp)))
    · obtain ⟨line, hline'⟩ := hline
      rw [positionOf, indexOf_int hline', indexOf_error hcolumn]
      exact .error (FirstFault.singleton_iff.mpr (.column hstr hnode ⟨line, hline'⟩ hcolumn))
  · rw [positionOf, indexOf_error hline]
    exact .error (FirstFault.singleton_iff.mpr (.line hstr hnode hline))

end SExpr

/-! ## Reading values -/

theorem Json.inductionOn {P : Json → Prop}
    (hplain : ∀ v, (∀ items, v ≠ .arr items) → (∀ members, v ≠ .obj members) → P v)
    (harr : ∀ items, (∀ item ∈ items, P item) → P (.arr items))
    (hobj : ∀ members, (∀ tree, lookup "node" members = some tree → P tree) → P (.obj members))
    (v : Json) : P v := by
  -- the last member called `node` counts, as for `lookup`; the other members are not descended into
  refine @Json.rec P (fun items => ∀ item ∈ items, P item)
    (fun members => ∀ tree, lookup "node" members = some tree → P tree) (fun member => P member.2)
    ?null ?bool ?int ?float ?str harr hobj (by simp) ?items ?noMember ?members
    (fun _ _ hvalue => hvalue) v
  case items => exact fun _ rest hitem hrest => forall_mem_cons.mpr ⟨hitem, hrest⟩
  case noMember =>
    intro tree h
    cases h
  case members =>
    rintro ⟨name, value⟩ rest hvalue hrest tree h
    rw [lookup, Option.or_eq_some_iff] at h
    rcases h with h | ⟨-, h⟩
    · exact hrest tree h
    · split at h
      · cases h
        exact hvalue
      · cases h
  all_goals intros; exact hplain _ (by simp) (by simp)

theorem Json.mem_visitedItems :
    members ∈ visitedItems items ↔ ∃ item ∈ items, members ∈ item.visited := by
  induction items with
  | nil => simp [visitedItems]
  | cons item rest ih => simp [visitedItems, ih]

theorem Json.mem_visited_iff {v : Json} : members ∈ v.visited ↔ v.Reaches members := by
  induction v using Json.inductionOn with
  | hplain v harr hobj =>
    cases v with
    | arr items => exact absurd rfl (harr items)
    | obj members => exact absurd rfl (hobj members)
    -- a value that is neither has no object in it
    | _ => exact iff_of_false (not_mem_nil) (by rintro ⟨⟩)
  | harr items ih =>
    rw [visited, mem_visitedItems]
    constructor
    · rintro ⟨item, hitem, hmembers⟩
      exact .item hitem ((ih item hitem).mp hmembers)
    · intro hreach
      cases hreach with
      | item hitem hreach => exact ⟨_, hitem, (ih _ hitem).mpr hreach⟩
  | hobj outer ih =>
    cases hstr : lookup "str" outer with
    | some value =>
      rw [visited_obj_str hstr, mem_singleton]
      constructor
      · rintro rfl
        exact .here _
      · intro hreach
        cases hreach with
        | here => rfl
        | node hstr' => cases hstr.symm.trans hstr'
    | none =>
      cases hnode : lookup "node" outer with
      | none =>
        rw [visited_obj_bare hstr hnode, mem_singleton]
        constructor
        · rintro rfl
          exact .here _
        · intro hreach
          cases hreach with
          | here => rfl
          | node _ hnode' => cases hnode.symm.trans hnode'
      | some tree =>
        rw [visited_obj_node hstr hnode, mem_append, mem_singleton, ih tree hnode]
        constructor
        · rintro (hreach | rfl)
          · exact .node hstr hnode hreach
          · exact .here _
        · intro hreach
          cases hreach with
          | here => exact .inr rfl
          | node _ hnode' hreach =>
            cases hnode.symm.trans hnode'
            exact .inl hreach

namespace SExpr

theorem judges_ofItems (h : ∀ item ∈ items, Judges item.visited (ofJson item)) :
    Judges (Json.visitedItems items) (ofItems items) := by
  induction items with
  | nil => exact .pure []
  | cons item rest ih =>
    obtain ⟨hitem, hrest⟩ := forall_mem_cons.mp h
    refine hitem.bind fun _ => ?_
    rw [← append_nil (Json.visitedItems rest)]
    exact (ih hrest).bind fun _ => .pure _

theorem judges_ofJson (v : Json) : Judges v.visited (ofJson v) := by
  induction v using Json.inductionOn with
  | hplain v harr hobj =>
    cases v with
    | arr items => exact absurd rfl (harr items)
    | obj members => exact absurd rfl (hobj members)
    | _ => exact .pure _
  | harr items ih =>
    rw [Json.visited, ofJson, ← append_nil (Json.visitedItems items)]
    exact (judges_ofItems ih).bind fun _ => .pure _
  | hobj members ih =>
    cases hstr : Json.lookup "str" members with
    | some value =>
      rw [Json.visited_obj_str hstr, ofJson, hstr]
      cases value with
      | str text => exact .ok _ (forall_mem_singleton.mpr (faultfree_string hstr))
      | _ => exact .error (FirstFault.singleton_iff.mpr (.string hstr (by simp)))
    | none =>
      cases hnode : Json.lookup "node" members with
      | none =>
        rw [Json.visited_obj_bare hstr hnode, ofJson, ofNodeMember_eq, hstr, hnode]
        exact .error (FirstFault.singleton_iff.mpr (.unexpected hstr hnode))
      | some tree =>
        rw [Json.visited_obj_node hstr hnode, ofJson_obj_node hstr hnode]
        -- the tree inside comes first, so its fault hides a fault of the position
        refine (ih tree hnode).bind fun _ => ?_
        exact (judges_positionOf hstr (by simp [hnode])).bind fun _ => .pure _

theorem ofJson_eq_error_iff {v : Json} : ofJson v = .error fault ↔ FirstFault v.visited fault := by
  have hjudges := judges_ofJson v
  generalize ofJson v = result at hjudges ⊢
  cases hjudges with
  | error hfirst =>
    rw [Except.error.injEq]
    constructor
    · rintro rfl
      exact hfirst
    · exact hfirst.unique
  | ok t hfree =>
    refine iff_of_false (by simp) ?_
    rintro ⟨before, members, after, hobjects, -, hfault⟩
    exact hfree members (by simp [hobjects]) fault hfault

end SExpr

/-- **The interchange form is read back, and reading fails at faulty objects only.** A tree whose numbers are
finite is read from its interchange form with all its positions. Reading a value fails exactly if an object
that it reaches has a fault, and the fault that it gives is that of the first such object: items are visited
from left to right, and what is inside an object before the object. -/
theorem interchange_exact :
    (∀ t : SExpr, (∀ x ∈ t.numbers, x.isFinite = true) → SExpr.ofJson t.toJson = .ok t) ∧
    (∀ v : Json, (∃ fault, SExpr.ofJson v = .error fault) ↔
      ∃ members, v.Reaches members ∧ ∃ fault, ObjectFault members fault) ∧
    (∀ (v : Json) (members : List (String × Json)), members ∈ v.visited ↔ v.Reaches members) ∧
    ∀ (v : Json) (fault : SyntaxFault), SExpr.ofJson v = .error fault ↔ FirstFault v.visited fault := by
  refine ⟨SExpr.ofJson_toJson, fun v => ?_, fun v _ => Json.mem_visited_iff,
    fun v _ => SExpr.ofJson_eq_error_iff⟩
  simp only [SExpr.ofJson_eq_error_iff, FirstFault.exists_iff, Json.mem_visited_iff]

/-- `(tag "a" (1.5))`, where only the outer list and the symbol have positions. -/
def partlyPlaced : SExpr :=
  .list [.symbol "tag" (some ⟨1, 2, none⟩), .literal (.string "a") none,
    .list [.literal (.number ⟨0x3FF8000000000000⟩) none] none] (some ⟨1, 1, some "main"⟩)

/-- Positions with and without a file are read back; the empty object inside a position with an invalid
line gives the fault, not the position. -/
theorem interchange_exact_partlyPlaced : (∀ x ∈ partlyPlaced.numbers, x.isFinite = true) ∧
    SExpr.ofJson partlyPlaced.toJson = .ok partlyPlaced ∧
    SExpr.ofJson (.obj [("line", .int (-1)), ("column", .int 1), ("node", .arr [.str "x", .obj []])]) =
      .error (.unexpectedObject []) := by
  have hfinite : ∀ x ∈ partlyPlaced.numbers, x.isFinite = true := by decide
  have hfirst : FirstFault (Json.visited
      (.obj [("line", .int (-1)), ("column", .int 1), ("node", .arr [.str "x", .obj []])]))
      (.unexpectedObject []) :=
    FirstFault.cons_iff.mpr (.inl (.unexpected rfl rfl))
  obtain ⟨reads, -, -, fails⟩ := interchange_exact
  exact ⟨hfinite, reads _ hfinite, (fails _ _).mpr hfirst⟩

end LispLowering
