import LispLowering.Proofs.Provenance.Contents

/-!
# The positions in a node
-/

namespace LispLowering

open List

open List (forall_mem_append)

/-! ## Folds over positions -/

section Fold

variable {α : Type} (zero : α) (add : α → α → α) (weight : Option Position → α)

mutual

/-- The weights of the positions in a node, added up. -/
def Node.foldPositions : Node → α
  | ⟨kind, p⟩ => add (weight p) kind.foldPositions

def NodeKind.foldPositions : NodeKind → α
  | .identifier _ _ | .literal _ | .thisValue | .breakStatement _ | .continueStatement _
  | .importSpecifier _ _ | .importNamespaceSpecifier _ | .exportSpecifier _ _ | .typeAlias _ _ _
  | .interface _ _ _ _ => zero
  | .spread a | .unary _ a | .await a | .typeAssertion a _ | .importExpression a | .restElement a
  | .expressionStatement a | .throwStatement a | .labeled _ a | .exportDefault a => a.foldPositions
  | .yield a _ | .returnStatement a | .propertyDefinition _ a _ _ => Node.foldOptionPositions a
  | .templateLiteral _ as | .array as | .object as | .objectPattern as | .block as
  | .variableDeclaration _ as | .importDeclaration as _ _ => Node.foldAllPositions as
  | .arrayPattern slots => Node.foldSlotPositions slots
  | .enumDeclaration _ _ cases => Node.foldCasePositions cases
  | .function f | .functionDeclaration f | .methodDefinition _ f _ _ => f.foldPositions
  | .binary _ a b | .logical _ a b | .assignment a b | .assignmentPattern a b | .whileLoop a b
  | .member a b _ | .optionalMember a b _ _ | .property a b _ _ => add a.foldPositions b.foldPositions
  | .call a as _ | .construct a as | .switchStatement a as =>
    add a.foldPositions (Node.foldAllPositions as)
  | .variableDeclarator a b => add a.foldPositions (Node.foldOptionPositions b)
  | .catchClause a b => add (Node.foldOptionPositions a) b.foldPositions
  | .switchCase a as | .classDeclaration _ a as | .exportNamed a as =>
    add (Node.foldOptionPositions a) (Node.foldAllPositions as)
  | .conditional a b c | .forOf a b c _ | .forIn a b c =>
    add a.foldPositions (add b.foldPositions c.foldPositions)
  | .ifStatement a b c => add a.foldPositions (add b.foldPositions (Node.foldOptionPositions c))
  | .tryStatement a b c =>
    add a.foldPositions (add (Node.foldOptionPositions b) (Node.foldOptionPositions c))
  | .forLoop a b c d =>
    add (Node.foldOptionPositions a)
      (add (Node.foldOptionPositions b) (add (Node.foldOptionPositions c) d.foldPositions))

def Function.foldPositions : Function → α
  | ⟨_, params, body, _, _, _, _, _⟩ => add (Node.foldAllPositions params) (Node.foldAllPositions body)

def EnumCase.foldPositions : EnumCase → α
  | ⟨_, raw, associated, p⟩ =>
    add (weight p) (add (Node.foldOptionPositions raw) (Node.foldAllPositions associated))

def Node.foldCasePositions : List EnumCase → α
  | [] => zero
  | one :: rest => add one.foldPositions (Node.foldCasePositions rest)

def Node.foldAllPositions : List Node → α
  | [] => zero
  | node :: rest => add node.foldPositions (Node.foldAllPositions rest)

def Node.foldSlotPositions : List (Option Node) → α
  | [] => zero
  | slot :: rest => add (Node.foldOptionPositions slot) (Node.foldSlotPositions rest)

def Node.foldOptionPositions : Option Node → α
  | none => zero
  | some node => node.foldPositions

end

end Fold

/-- The position has the property, if there is one. -/
def Known (S : Position → Prop) (p : Option Position) : Prop := ∀ q ∈ p, S q

def Node.positions (node : Node) : List Position := node.foldPositions [] (· ++ ·) Option.toList

/-- The positions in a shape that belong to no node that it contains: of the name of a property, and of the
cases of an enumeration. -/
def NodeKind.labels : NodeKind → List Position
  | .member _ key computed | .optionalMember _ key computed _ | .property key _ computed _ =>
    bif computed then [] else key.positions
  | .enumDeclaration _ _ cases => cases.filterMap EnumCase.position
  | _ => []

/-! ## Positions with a property -/

section

variable {S T : Position → Prop} {p q : Option Position}

theorem Known.or (hp : Known S p) (hq : Known S q) : Known S (p.or q) := by
  cases p with
  | none => exact hq
  | some p => exact hp

theorem Known.imp (h : Known S p) (himp : ∀ q, S q → T q) : Known T p := fun q hq => himp q (h q hq)

/-- The position of the node and the labels of its shape have the property. -/
structure Node.Sited (S : Position → Prop) (node : Node) : Prop where
  position : Known S node.position
  labels : ∀ q ∈ node.kind.labels, S q

namespace Node

theorem foldAllPositions_eq (nodes : List Node) :
    foldAllPositions [] (· ++ ·) Option.toList nodes = nodes.flatMap positions := by
  induction nodes with
  | nil => rfl
  | cons node rest ih =>
    rw [foldAllPositions, ih]
    rfl

theorem foldOptionPositions_eq (node : Option Node) :
    foldOptionPositions [] (· ++ ·) Option.toList node = node.toList.flatMap positions := by
  cases node with
  | none => rfl
  | some node => exact (append_nil _).symm

theorem foldSlotPositions_eq (slots : List (Option Node)) :
    foldSlotPositions [] (· ++ ·) Option.toList slots =
      (slots.flatMap Option.toList).flatMap positions := by
  induction slots with
  | nil => rfl
  | cons slot rest ih =>
    rw [foldSlotPositions, ih, foldOptionPositions_eq, flatMap_cons, flatMap_append]

theorem forall_casePositions {cases : List EnumCase}
    (hlabels : ∀ q ∈ cases.filterMap EnumCase.position, S q)
    (h : ∀ child ∈ cases.flatMap fun one => one.rawValue.toList ++ one.associated,
      ∀ q ∈ child.positions, S q) : ∀ q ∈ foldCasePositions [] (· ++ ·) Option.toList cases, S q := by
  induction cases with
  | nil => exact forall_mem_nil _
  | cons one rest ih =>
    obtain ⟨name, raw, associated, p⟩ := one
    simp only [forall_mem_filterMap, forall_mem_cons] at hlabels ih
    simp only [flatMap_cons, forall_mem_append] at h
    simp only [foldCasePositions, EnumCase.foldPositions, foldOptionPositions_eq, foldAllPositions_eq,
      forall_mem_append, forall_mem_flatMap]
    exact ⟨⟨fun q hq => hlabels.1 q (Option.mem_toList.mp hq), h.1⟩, ih hlabels.2 h.2⟩

end Node

theorem NodeKind.forall_positions {kind : NodeKind} (hlabels : ∀ q ∈ kind.labels, S q)
    (h : ∀ child ∈ kind.children, ∀ q ∈ child.positions, S q) :
    ∀ q ∈ kind.foldPositions [] (· ++ ·) Option.toList, S q := by
  cases kind with
  | identifier | literal | thisValue | breakStatement | continueStatement | importSpecifier
  | importNamespaceSpecifier | exportSpecifier | typeAlias | interface => exact forall_mem_nil _
  | enumDeclaration => exact Node.forall_casePositions hlabels h
  | arrayPattern slots =>
    rw [foldPositions, Node.foldSlotPositions_eq, forall_mem_flatMap]
    exact h
  | function f | functionDeclaration f | methodDefinition _ f _ _ =>
    cases f
    simp only [foldPositions, Function.foldPositions, Node.foldAllPositions_eq, ← flatMap_append,
      forall_mem_flatMap]
    exact h
  | member _ _ computed | optionalMember _ _ computed _ | property _ _ computed _ =>
    -- the key is a child or a label
    cases computed <;> simp_all [foldPositions, labels, children, Node.positions, or_imp, forall_and]
  | _ =>
    simp only [children, forall_mem_cons, forall_mem_append, not_mem_nil, false_implies,
      implies_true, and_true] at h
    simp only [foldPositions, Node.foldAllPositions_eq, Node.foldOptionPositions_eq, forall_mem_append,
      forall_mem_flatMap]
    exact h

theorem Node.Every.positions (node : Node) : node.Every false (Node.Sited S) → ∀ q ∈ node.positions, S q := by
  induction node using Node.of_children with
  | step node ih =>
    intro h
    obtain ⟨kind, p⟩ := node
    refine forall_mem_append.mpr ⟨fun q hq => h.self.position q (Option.mem_toList.mp hq),
      NodeKind.forall_positions h.self.labels fun child hchild => ih child hchild ?_⟩
    exact Node.everyIn_iff.mp h.children child hchild

end

end LispLowering
