import LispLowering.Proofs.Provenance.Traversal
import LispLowering.Proofs.Session

/-!
# Positions
-/

namespace LispLowering

open Lowering Node Watch

/-! ## Located trees and nodes -/

/-- Every tree inside the tree has a position. -/
def SExpr.Located (t : SExpr) : Prop := ∀ u ∈ t.subtrees, u.position.isSome = true

instance (t : SExpr) : Decidable t.Located := inferInstanceAs (Decidable (∀ _ ∈ _, _))

namespace Node

/-- Every node that the node contains has a position. -/
def Located (node : Node) : Prop := ∀ m ∈ node.contents, m.position.isSome = true

instance (node : Node) : Decidable node.Located := inferInstanceAs (Decidable (∀ _ ∈ _, _))

/-- The value behind a statement that takes its position from it, and otherwise the node. -/
def said : Node → Node
  | ⟨.expressionStatement value, _⟩ => value.said
  | ⟨.returnStatement (some value), _⟩ => value.said
  | node => node

end Node

/-- Positions are watched, and only the gaps of a tree are allowed. -/
def Watch.positions (gaps : List Gap) : Watch where
  names := []
  sites := fun _ => True
  free := False
  gaps := (· ∈ gaps)
  trees := fun _ => True
  strict := False
  shut := false
  foreign := foreign_nil

variable {gaps : List Gap} {node : Node}

namespace Watch

theorem known_positions {p : Option Position} : (Watch.positions gaps).Known p ↔ p.isSome = true :=
  ⟨fun h => h.2.resolve_left id, fun h => ⟨fun _ _ => trivial, .inr h⟩⟩

theorem hidden_positions (low high : Nat) : (Watch.positions gaps).Hidden low high :=
  fun _ _ _ _ _ => List.not_mem_nil

end Watch

/-! ## Located nodes are allowed, and the other way round -/

theorem Node.Located.allowed (h : node.Located) : node.Allowed (.positions gaps) := by
  rw [Allowed, every_iff]
  exact fun m hm => ⟨List.forall_mem_nil _, .inl (known_positions.mpr (h m hm)), fun _ _ => trivial⟩

theorem Node.Allowed.said_covered : (node : Node) → node.Allowed (.positions gaps) →
    node.position = none → ∃ gap ∈ gaps, gap.covers node.said.kind = true
  | ⟨kind, p⟩, h, hp => by
    have hcovered {kind : NodeKind} (hplaced : (Watch.positions gaps).Placed ⟨kind, none⟩)
        (hstated : kind.stated? = none) : ∃ gap ∈ gaps, gap.covers kind = true := by
      rcases hplaced with hknown | ⟨-, ⟨gap, hgap, hcovers⟩ | ⟨value, hvalue, -⟩⟩
      · cases known_positions.mp hknown
      · exact ⟨gap, hgap, hcovers⟩
      · cases hstated.symm.trans hvalue
    have hinner {kind : NodeKind} {value : Node} (hkind : kind.stated? = some value)
        (hcovers : ∀ gap : Gap, gap.covers kind = false)
        (hplaced : (Watch.positions gaps).Placed ⟨kind, none⟩) : value.position = none := by
      rcases hplaced with hknown | ⟨-, ⟨gap, -, hgap⟩ | ⟨other, hother, hnone⟩⟩
      · cases known_positions.mp hknown
      · rw [hcovers gap] at hgap
        cases hgap
      · cases hkind.symm.trans hother
        exact hnone
    cases hp
    cases kind with
    | expressionStatement value =>
      exact Allowed.said_covered value h.2 (hinner rfl (fun gap => by cases gap <;> rfl) h.1.placed)
    | returnStatement value =>
      cases value with
      | none => exact hcovered h.1.placed rfl
      | some value =>
        exact Allowed.said_covered value h.2 (hinner rfl (fun gap => by cases gap <;> rfl) h.1.placed)
    | _ => exact hcovered h.1.placed rfl

theorem Node.Allowed.covered (h : node.Allowed (.positions gaps)) :
    ∀ m ∈ node.contents, m.position = none → ∃ gap ∈ gaps, gap.covers m.said.kind = true :=
  every_iff.mp (Every.imp h Allowed.said_covered)

theorem Node.Allowed.located (h : node.Allowed (.positions [])) : node.Located := by
  intro m hm
  rw [Option.isSome_iff_ne_none]
  intro hp
  obtain ⟨gap, hgap, -⟩ := h.covered m hm hp
  cases hgap

/-! ## Lowering located trees -/

theorem SExpr.Located.suits {t : SExpr} (h : t.Located) : t.Suits (.positions t.gaps) :=
  ⟨fun _ _ => trivial, fun u hu => known_positions.mpr (h u hu), nofun, fun _ hgap => hgap⟩

theorem Context.unwatched_positions {c : Context} (h : c.registry.StoresOnly Located) :
    c.Unwatched (.positions gaps) :=
  ⟨⟨List.not_mem_nil, fun default hdefault => (h default hdefault).allowed, nofun⟩,
    fun _ _ => List.not_mem_nil⟩

/-- A located tree is lowered to a node with a position. A node inside it that has no position is covered
by a gap of the tree, or it is a statement that takes its position from such a node. Without gaps there is
none, and all defaults that are remembered afterwards are located as well. -/
theorem lower_located {t : SExpr} (ht : t.Located) {c d : Context}
    (hc : c.registry.StoresOnly Located) {node : Node} (h : Lowering.lower t c = .ok (some node) d) :
    node.position.isSome = true ∧
      (∀ m ∈ node.contents, m.position = none → ∃ gap ∈ t.gaps, gap.covers m.said.kind = true) ∧
      (t.gaps = [] → node.Located ∧ d.registry.StoresOnly Located) := by
  obtain ⟨hd, hnode⟩ := lower_allowed ht.suits (Context.unwatched_positions hc)
    (hidden_positions _ _) h
  refine ⟨known_positions.mp hnode.known, hnode.allowed.covered, fun hgaps => ?_⟩
  rw [hgaps] at hd hnode
  exact ⟨hnode.allowed.located, fun default hdefault => (hd.registry.found default hdefault).located⟩

/-! ## Trees with gaps and without -/

/-- A symbol in a column of the first line. -/
def symbolAt (column : Nat) (name : String) : SExpr := .symbol name (some ⟨1, column, none⟩)

/-- A list in a column of the first line. -/
def listAt (column : Nat) (items : List SExpr) : SExpr := .list items (some ⟨1, column, none⟩)

/-- `(fn f (a b = a) (if a b c))`. -/
def defaultingAt : SExpr :=
  listAt 1 [symbolAt 2 "fn", symbolAt 5 "f",
    listAt 7 [symbolAt 8 "a", symbolAt 10 "b", symbolAt 12 "=", symbolAt 14 "a"],
    listAt 17 [symbolAt 18 "if", symbolAt 21 "a", symbolAt 23 "b", symbolAt 25 "c"]]

/-- `(try (f x) (catch e (g e)))`. -/
def guardedAt : SExpr :=
  listAt 1 [symbolAt 2 "try", listAt 6 [symbolAt 7 "f", symbolAt 9 "x"],
    listAt 12 [symbolAt 13 "catch", symbolAt 19 "e", listAt 21 [symbolAt 22 "g", symbolAt 24 "e"]]]

/-- The state behind the declaration. -/
def defaultingState : Context := endState (Lowering.lower defaultingAt (Context.start "" {}))

/-- Behind a declaration without gaps, a call in a `try` statement takes the default of the declaration
with its position, and only blocks have none. -/
theorem lower_located_guarded :
    defaultingAt.Located ∧ guardedAt.Located ∧ defaultingAt.gaps = [] ∧ guardedAt.gaps = [.block] ∧
    ∃ declaration statement d,
      Lowering.lower defaultingAt (Context.start "" {}) = .ok (some declaration) defaultingState ∧
      Lowering.lower guardedAt defaultingState = .ok (some statement) d ∧
      declaration.Located ∧ defaultingState.registry.StoresOnly Located ∧
      statement.position.isSome = true ∧ ∀ m ∈ statement.contents, m.position = none →
        ∃ gap ∈ guardedAt.gaps, gap.covers m.said.kind = true := by
  have hempty : (Context.start "" {}).registry.StoresOnly Located := by
    rintro default ⟨name, entry, index, hentry, -⟩
    cases hentry
  have hfirst : defaultingAt.Located := by decide
  have hsecond : guardedAt.Located := by decide
  have hdeclare : Lowering.lower defaultingAt (Context.start "" {}) = .ok _ defaultingState := rfl
  obtain ⟨-, -, hdeclared⟩ := lower_located hfirst hempty hdeclare
  obtain ⟨hlocated, hstored⟩ := hdeclared (by decide)
  have hguard : Lowering.lower guardedAt defaultingState = .ok _ _ := rfl
  obtain ⟨hp, hcovered, -⟩ := lower_located hsecond hstored hguard
  exact ⟨hfirst, hsecond, by decide, by decide, _, _, _, hdeclare, hguard, hlocated, hstored, hp, hcovered⟩

/-- `(if a b)`: the value for the missing branch has no position. -/
theorem lower_branch_unlocated : (listAt 1 [symbolAt 2 "if", symbolAt 5 "a", symbolAt 7 "b"]).Located ∧
    ∃ node d, Lowering.lower (listAt 1 [symbolAt 2 "if", symbolAt 5 "a", symbolAt 7 "b"])
        (Context.start "" {}) = .ok (some node) d ∧ ¬node.Located :=
  ⟨by decide, _, _, rfl, by decide⟩

end LispLowering
