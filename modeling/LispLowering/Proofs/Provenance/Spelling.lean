import LispLowering.Proofs.Erasure.Parts
import LispLowering.Proofs.Provenance.Names

/-!
# Names that trees give
-/

namespace LispLowering

open List

variable {text : String} {p : Option Position}

/-! ## Symbols -/

/-- The text of a symbol, or of a key of a parameter map, gives a name to the target. -/
inductive Symbol.Gives (text : String) : String → Prop where
  /-- The text is a label. -/
  | label : Gives text text
  /-- The text is a name as a whole. -/
  | identifier : Gives text (Symbol.identifier text)
  /-- The name has type parameters behind it. -/
  | generic : Gives text (Symbol.identifier (GenericName.ofSymbol text).name)
  /-- The name has the type of raw values behind it. -/
  | enumeration : Gives text (Symbol.identifier (Lowering.splitRawType text).1)
  /-- The name is part of the value of the symbol, which may be spread. -/
  | reference {part name : String} {p : Option Position} {node : Node} :
      part = text ∨ Text.stripStart? "..." text = some part →
      Lowering.reference part p = .ok node → ¬node.Lacks name → Gives text name
  /-- The name is bound, without a rest mark in front of it or a colon at its end. -/
  | binding {part name : String} {ascribed : Option String} :
      part = text ∨ Pattern.restName? text = some part ∨ Text.stripEnd? ":" text = some part →
      Pattern.splitAscription part = .ok (name, ascribed) → Gives text (Symbol.identifier name)

/-- The names in a value that may have been refused. -/
def referredNames : Except Diagnostic Node → List String
  | .ok node => node.names
  | .error _ => []

theorem referredNames_reference (text : String) (p q : Option Position) :
    referredNames (Lowering.reference text p) = referredNames (Lowering.reference text q) := by
  have halike := Lowering.reference_alike text p q
  generalize Lowering.reference text p = x, Lowering.reference text q = y at halike
  cases halike with
  | error => rfl
  | ok hreferred =>
    induction hreferred with
    | literal | identifier | thisValue => rfl
    | member _ _ ih | optionalMember _ _ ih | index _ _ ih => exact congrArg (· ++ []) ih
    | spread _ ih => exact ih

/-- The names that a text gives, as a list. -/
def Symbol.givenNames (text : String) : List String :=
  [text, Symbol.identifier text, Symbol.identifier (GenericName.ofSymbol text).name,
    Symbol.identifier (Lowering.splitRawType text).1] ++
  (text :: (Text.stripStart? "..." text).toList).flatMap
    (fun part => referredNames (Lowering.reference part none)) ++
  (text :: (Pattern.restName? text).toList ++ (Text.stripEnd? ":" text).toList).flatMap fun part =>
    match Pattern.splitAscription part with
    | .ok (name, _) => [Symbol.identifier name]
    | .error _ => []

theorem Symbol.Gives.mem_givenNames {name : String} (h : Symbol.Gives text name) :
    name ∈ Symbol.givenNames text := by
  simp only [givenNames, mem_append, mem_flatMap]
  cases h with
  | label | identifier | generic | enumeration => simp
  | @reference part _ p node hpart hnode hname =>
    refine .inl (.inr ⟨part, ?_, ?_⟩)
    · rcases hpart with rfl | hpart <;> simp [*]
    · have hnames := referredNames_reference part p none
      rw [hnode] at hnames
      rw [Node.lacks_iff, not_not] at hname
      exact hnames ▸ hname
  | @binding part bound ascribed hpart hsplit =>
    refine .inr ⟨part, ?_, ?_⟩
    · rcases hpart with rfl | hpart | hpart <;> simp [*]
    · simp [hsplit]

/-! ## Trees -/

namespace SExpr

/-- The keys that are strings, if the first part behind the symbols is a parameter map. -/
def paramKeys (parts : List SExpr) : List String :=
  match parts.dropWhile fun part => part.symbol?.isSome with
  | params :: _ => if params.isForm "hash-map" then mapKeys params.children.tail else []
  | [] => []

/-- The heads of lists with a parameter list. -/
def functionHeads : List String := ["fn", "fn*", "async", "constructor", "getter", "setter"]

/-- The keys of the parameter map of a list that has one. -/
def keysSpelled : List SExpr → List String
  | .symbol head _ :: parts => if head ∈ functionHeads then paramKeys parts else []
  | _ => []

/-- The tree has the text as a symbol, or as a key of a parameter map. -/
inductive Spells (text : String) : SExpr → Prop where
  | symbol (p : Option Position) : Spells text (.symbol text p)
  | key {head : String} {parts : List SExpr} {p q : Option Position} :
      head ∈ functionHeads → text ∈ paramKeys parts → Spells text (.list (.symbol head q :: parts) p)
  | item {items : List SExpr} {item : SExpr} {p : Option Position} :
      item ∈ items → Spells text item → Spells text (.list items p)

/-- No symbol of the tree and no key of a parameter map gives the name. -/
def Avoids (label : String) (t : SExpr) : Prop := ∀ text, t.Spells text → ¬Symbol.Gives text label

def AvoidIn (label : String) : List SExpr → Prop
  | [] => True
  | t :: rest => t.Avoids label ∧ AvoidIn label rest

variable {label : String} {trees : List SExpr}

theorem avoidIn_iff : AvoidIn label trees ↔ ∀ t ∈ trees, t.Avoids label := by
  induction trees with
  | nil => simp [AvoidIn]
  | cons t rest ih => simp [AvoidIn, ih]

theorem Avoids.symbol (h : (symbol text p).Avoids label) : ¬Symbol.Gives text label := h text (.symbol p)

theorem Avoids.items (h : (list trees p).Avoids label) : AvoidIn label trees :=
  avoidIn_iff.mpr fun _ hitem text htext => h text (.item hitem htext)

theorem Avoids.keys {head : String} {q : Option Position}
    (h : (list (.symbol head q :: trees) p).Avoids label) (hhead : head ∈ functionHeads) :
    ∀ key ∈ paramKeys trees, ¬Symbol.Gives key label :=
  fun key hkey => h key (.key hhead hkey)

mutual

def spelled : SExpr → List String
  | .symbol text _ => [text]
  | .literal _ _ => []
  | .list items _ => keysSpelled items ++ spelledIn items

def spelledIn : List SExpr → List String
  | [] => []
  | t :: rest => t.spelled ++ spelledIn rest

end

theorem mem_spelledIn {t : SExpr} (ht : t ∈ trees) (h : text ∈ t.spelled) : text ∈ spelledIn trees := by
  induction ht with
  | head rest => exact mem_append_left _ h
  | tail first _ ih => exact mem_append_right _ ih

theorem Spells.mem_spelled {t : SExpr} (h : t.Spells text) : text ∈ t.spelled := by
  induction h with
  | symbol p => exact mem_singleton_self text
  | key hhead hkey => exact mem_append_left _ (by simpa [keysSpelled, hhead] using hkey)
  | item hitem _ ih => exact mem_append_right _ (mem_spelledIn hitem ih)

theorem avoidIn_of_spelled (h : ∀ text ∈ spelledIn trees, label ∉ Symbol.givenNames text) :
    AvoidIn label trees :=
  avoidIn_iff.mpr fun _ ht text htext hgives =>
    h text (mem_spelledIn ht htext.mem_spelled) hgives.mem_givenNames

end SExpr

end LispLowering
