import LispLowering.Lowering.Dispatch
import LispLowering.Proofs.Provenance.Contents

/-!
# Nodes without a name
-/

namespace LispLowering

open NodeKind

/-! ## Labels -/

/-- The label that a loop gets with the number of the next fresh name. -/
def loopLabel (n : Nat) : String := "loop" ++ "_" ++ Text.decimal n

theorem ne_loopLabel {name : String} (h : name.toList.head? ≠ some 'l') (n : Nat) : name ≠ loopLabel n := by
  rintro rfl
  apply h
  simp [loopLabel]

/-! ## Nodes -/

def NodeKind.Spares (label : String) : NodeKind → Prop
  | .identifier name _ => name ≠ label
  | .continueStatement target => target ≠ some label
  | .functionDeclaration f => f.id ≠ some label
  | .classDeclaration name _ _ => name ≠ label
  | .enumDeclaration name _ _ => name ≠ label
  | _ => True

def NodeKind.name? : NodeKind → Option String
  | .identifier name _ => some name
  | .continueStatement target => target
  | .functionDeclaration f => f.id
  | .classDeclaration name _ _ => some name
  | .enumDeclaration name _ _ => some name
  | _ => none

theorem NodeKind.spares_iff {label : String} {kind : NodeKind} :
    kind.Spares label ↔ kind.name? ≠ some label := by
  cases kind <;> simp [Spares, name?]

namespace Node

variable {label : String}

abbrev Lacks (label : String) (node : Node) : Prop := node.All (Spares label)

abbrev LackIn (label : String) (nodes : List Node) : Prop := AllIn (Spares label) nodes

abbrev LackOption (label : String) (node : Option Node) : Prop :=
  EveryOption false (fun m => Spares label m.kind) node

def names (node : Node) : List String := node.fold false [] (· ++ ·) fun m => m.kind.name?.toList

theorem lacks_iff {node : Node} : node.Lacks label ↔ label ∉ node.names := by
  have H : Related false [] (· ++ ·) (fun m : Node => m.kind.name?.toList) True And
      (fun m => m.kind.Spares label) fun names q => (label ∉ names) = q :=
    .hom (by simp) (by simp) fun m => by rw [spares_iff, Option.mem_toList]
  exact (H.fold node).symm.to_iff

theorem Lacks.identifier?_ne {node : Node} (h : node.Lacks label) : node.identifier? ≠ some label := by
  obtain ⟨kind, p⟩ := node
  cases kind with
  | identifier name ascribed =>
    intro heq
    exact h.1 (Option.some.inj heq)
  | _ => nofun

end Node

end LispLowering
