import Mathlib
import LispLowering.Target.Build

/-!
# What a node contains
-/

namespace LispLowering

open Node

variable {node : Node} {nodes : List Node}
  {f : Function}

/-! ## Folds -/

section Fold

variable {α : Type} (shut : Bool) (zero : α) (add : α → α → α) (weight : Node → α)

mutual

/-- The weights of the nodes that a node contains, added up. -/
def Node.fold : Node → α
  | ⟨kind, p⟩ => add (weight ⟨kind, p⟩) kind.fold

/-- The weights of the nodes inside a shape, added up. The key of a property counts only if it is
computed. -/
def NodeKind.fold : NodeKind → α
  | .identifier _ _ | .literal _ | .thisValue | .breakStatement _ | .continueStatement _
  | .importSpecifier _ _ | .importNamespaceSpecifier _ | .exportSpecifier _ _ | .typeAlias _ _ _
  | .interface _ _ _ _ => zero
  | .spread a | .unary _ a | .await a | .typeAssertion a _ | .importExpression a | .restElement a
  | .expressionStatement a | .throwStatement a | .labeled _ a | .exportDefault a => a.fold
  | .yield a _ | .returnStatement a | .propertyDefinition _ a _ _ => Node.foldOption a
  | .templateLiteral _ as | .array as | .object as | .objectPattern as | .block as
  | .variableDeclaration _ as | .importDeclaration as _ _ => Node.foldAll as
  | .arrayPattern slots => Node.foldSlots slots
  | .enumDeclaration _ _ cases => Node.foldCases cases
  | .function f | .functionDeclaration f | .methodDefinition _ f _ _ => f.fold
  | .binary _ a b | .logical _ a b | .assignment a b | .assignmentPattern a b | .whileLoop a b =>
    add a.fold b.fold
  | .member a key computed | .optionalMember a key computed _ | .property key a computed _ =>
    add a.fold (bif computed then key.fold else zero)
  | .call a as _ | .construct a as | .switchStatement a as => add a.fold (Node.foldAll as)
  | .variableDeclarator a b => add a.fold (Node.foldOption b)
  | .catchClause a b => add (Node.foldOption a) b.fold
  | .switchCase a as | .classDeclaration _ a as | .exportNamed a as =>
    add (Node.foldOption a) (Node.foldAll as)
  | .conditional a b c | .forOf a b c _ | .forIn a b c => add a.fold (add b.fold c.fold)
  | .ifStatement a b c => add a.fold (add b.fold (Node.foldOption c))
  | .tryStatement a b c => add a.fold (add (Node.foldOption b) (Node.foldOption c))
  | .forLoop a b c d =>
    add (Node.foldOption a) (add (Node.foldOption b) (add (Node.foldOption c) d.fold))

/-- The weights of the nodes inside a function, added up, but not of an arrow function with parameters
that is shut. -/
def Function.fold : Function → α
  | ⟨_, params, body, _, _, isArrow, _, _⟩ =>
    bif shut && (isArrow && !params.isEmpty) then zero else add (Node.foldAll params) (Node.foldAll body)

def EnumCase.fold : EnumCase → α
  | ⟨_, raw, associated, _⟩ => add (Node.foldOption raw) (Node.foldAll associated)

def Node.foldCases : List EnumCase → α
  | [] => zero
  | one :: rest => add one.fold (Node.foldCases rest)

def Node.foldAll : List Node → α
  | [] => zero
  | node :: rest => add node.fold (Node.foldAll rest)

def Node.foldSlots : List (Option Node) → α
  | [] => zero
  | slot :: rest => add (Node.foldOption slot) (Node.foldSlots rest)

def Node.foldOption : Option Node → α
  | none => zero
  | some node => node.fold

end

end Fold

namespace Node

/-- The nodes that the node contains, itself first. -/
def contents (node : Node) : List Node := node.fold false [] (· ++ ·) fun m => [m]

/-- The nodes that the node contains outside of arrow functions with parameters, itself first. -/
def visible (node : Node) : List Node := node.fold true [] (· ++ ·) fun m => [m]

abbrev Every (shut : Bool) (P : Node → Prop) (node : Node) : Prop := node.fold shut True And P

abbrev EveryIn (shut : Bool) (P : Node → Prop) (nodes : List Node) : Prop := foldAll shut True And P nodes

abbrev EveryOption (shut : Bool) (P : Node → Prop) (node : Option Node) : Prop :=
  foldOption shut True And P node

abbrev All (P : NodeKind → Prop) (node : Node) : Prop := node.Every false fun m => P m.kind

abbrev AllIn (P : NodeKind → Prop) (nodes : List Node) : Prop := EveryIn false (fun m => P m.kind) nodes

abbrev count (q : NodeKind → Bool) (node : Node) : Nat :=
  node.fold false 0 (· + ·) fun m => (q m.kind).toNat

abbrev countIn (q : NodeKind → Bool) (nodes : List Node) : Nat :=
  foldAll false 0 (· + ·) (fun m => (q m.kind).toNat) nodes

section

variable {α : Type} {shut : Bool} {zero : α} {add : α → α → α}

theorem foldSlots_map_some {weight : Node → α} (nodes : List Node) :
    foldSlots shut zero add weight (nodes.map some) = foldAll shut zero add weight nodes := by
  induction nodes with
  | nil => rfl
  | cons node rest ih =>
    rw [List.map_cons, foldSlots, foldAll, ih]
    rfl

@[simp] theorem fold_orPlace {weight : NodeKind → α} (p : Option Position) (node : Node) :
    (node.orPlace p).fold shut zero add (fun m => weight m.kind) =
      node.fold shut zero add fun m => weight m.kind := by
  cases node
  rfl

end

end Node

/-! ## Two folds -/

section Related

variable {α β : Type} {shut : Bool} {zero : α} {add : α → α → α} {weight : Node → α} {zero' : β}
  {add' : β → β → β} {weight' : Node → β} {S : α → β → Prop}

/-- The relation is kept by all of which two folds are made up. -/
structure Node.Related (shut : Bool) (zero : α) (add : α → α → α) (weight : Node → α) (zero' : β)
    (add' : β → β → β) (weight' : Node → β) (S : α → β → Prop) : Prop where
  node (kind : NodeKind) (p : Option Position) :
    S (kind.fold shut zero add weight) (kind.fold shut zero' add' weight') →
      S (Node.fold shut zero add weight ⟨kind, p⟩) (Node.fold shut zero' add' weight' ⟨kind, p⟩)
  zero : S zero zero'
  add {x y : α} {x' y' : β} : S x x' → S y y' → S (add x y) (add' x' y')

mutual

theorem Node.Related.fold (H : Related shut zero add weight zero' add' weight' S) :
    (node : Node) → S (node.fold shut zero add weight) (node.fold shut zero' add' weight')
  | ⟨kind, p⟩ => H.node kind p (NodeKind.related H kind)

theorem NodeKind.related (H : Related shut zero add weight zero' add' weight' S) :
    (kind : NodeKind) → S (kind.fold shut zero add weight) (kind.fold shut zero' add' weight')
  | .identifier _ _ | .literal _ | .thisValue | .breakStatement _ | .continueStatement _
  | .importSpecifier _ _ | .importNamespaceSpecifier _ | .exportSpecifier _ _ | .typeAlias _ _ _
  | .interface _ _ _ _ => H.zero
  | .spread a | .unary _ a | .await a | .typeAssertion a _ | .importExpression a | .restElement a
  | .expressionStatement a | .throwStatement a | .labeled _ a | .exportDefault a => H.fold a
  | .yield a _ | .returnStatement a | .propertyDefinition _ a _ _ => H.option a
  | .templateLiteral _ as | .array as | .object as | .objectPattern as | .block as
  | .variableDeclaration _ as | .importDeclaration as _ _ => H.all as
  | .arrayPattern slots => H.slots slots
  | .enumDeclaration _ _ cases => H.cases cases
  | .function f | .functionDeclaration f | .methodDefinition _ f _ _ => Function.related H f
  | .binary _ a b | .logical _ a b | .assignment a b | .assignmentPattern a b | .whileLoop a b
  | .member a b true | .optionalMember a b true _ | .property b a true _ => H.add (H.fold a) (H.fold b)
  | .member a _ false | .optionalMember a _ false _ | .property _ a false _ => H.add (H.fold a) H.zero
  | .call a as _ | .construct a as | .switchStatement a as => H.add (H.fold a) (H.all as)
  | .variableDeclarator a b => H.add (H.fold a) (H.option b)
  | .catchClause a b => H.add (H.option a) (H.fold b)
  | .switchCase a as | .classDeclaration _ a as | .exportNamed a as => H.add (H.option a) (H.all as)
  | .conditional a b c | .forOf a b c _ | .forIn a b c => H.add (H.fold a) (H.add (H.fold b) (H.fold c))
  | .ifStatement a b c => H.add (H.fold a) (H.add (H.fold b) (H.option c))
  | .tryStatement a b c => H.add (H.fold a) (H.add (H.option b) (H.option c))
  | .forLoop a b c d => H.add (H.option a) (H.add (H.option b) (H.add (H.option c) (H.fold d)))

theorem Function.related (H : Related shut zero add weight zero' add' weight' S) :
    (f : Function) → S (f.fold shut zero add weight) (f.fold shut zero' add' weight')
  | ⟨_, params, body, _, _, isArrow, _, _⟩ => by
    have hinner := H.add (H.all params) (H.all body)
    unfold Function.fold
    cases shut && (isArrow && !params.isEmpty) with
    | false => exact hinner
    | true => exact H.zero

theorem Node.Related.cases (H : Related shut zero add weight zero' add' weight' S) :
    (cases : List EnumCase) →
      S (Node.foldCases shut zero add weight cases) (Node.foldCases shut zero' add' weight' cases)
  | [] => H.zero
  | ⟨_, raw, associated, _⟩ :: rest => H.add (H.add (H.option raw) (H.all associated)) (H.cases rest)

theorem Node.Related.all (H : Related shut zero add weight zero' add' weight' S) : (nodes : List Node) →
      S (Node.foldAll shut zero add weight nodes) (Node.foldAll shut zero' add' weight' nodes)
  | [] => H.zero
  | node :: rest => H.add (H.fold node) (H.all rest)

theorem Node.Related.slots (H : Related shut zero add weight zero' add' weight' S) :
    (slots : List (Option Node)) →
      S (Node.foldSlots shut zero add weight slots) (Node.foldSlots shut zero' add' weight' slots)
  | [] => H.zero
  | slot :: rest => H.add (H.option slot) (H.slots rest)

theorem Node.Related.option (H : Related shut zero add weight zero' add' weight' S) :
    (node : Option Node) →
      S (Node.foldOption shut zero add weight node) (Node.foldOption shut zero' add' weight' node)
  | none => H.zero
  | some node => H.fold node

end

theorem Node.Related.hom {f : α → β} (hzero : f zero = zero')
    (hadd : ∀ x y, f (add x y) = add' (f x) (f y)) (hweight : ∀ node, f (weight node) = weight' node) :
    Related shut zero add weight zero' add' weight' fun x y => f x = y where
  zero := hzero
  add hx hy := by rw [hadd, hx, hy]
  node kind p h := by rw [Node.fold, Node.fold, hadd, hweight, h]

end Related

/-! ## Properties of all contained nodes -/

namespace Node

section

variable {shut : Bool} {P Q : Node → Prop}

theorem Every.self (h : node.Every shut P) : P node := by
  cases node
  exact h.1

theorem every_function (hparams : EveryIn shut P f.params) (hbody : EveryIn shut P f.body) :
    f.fold shut True And P := by
  obtain ⟨id, params, body, isAsync, isGenerator, isArrow, returnType, typeParams⟩ := f
  unfold Function.fold
  cases shut && (isArrow && !params.isEmpty) with
  | false => exact ⟨hparams, hbody⟩
  | true => trivial

theorem every_shut (harrow : f.isArrow = true) (hparams : f.params ≠ []) : f.fold true True And P := by
  obtain ⟨id, params, body, isAsync, isGenerator, isArrow, returnType, typeParams⟩ := f
  cases params with
  | nil => exact absurd rfl hparams
  | cons =>
    cases harrow
    trivial

theorem everyIn_iff : EveryIn shut P nodes ↔ ∀ node ∈ nodes, node.Every shut P := by
  induction nodes with
  | nil => simp [EveryIn, foldAll]
  | cons node rest ih =>
    rw [List.forall_mem_cons, ← ih]
    rfl

@[simp] theorem everyIn_append {nodes' : List Node} :
    EveryIn shut P (nodes ++ nodes') ↔ EveryIn shut P nodes ∧ EveryIn shut P nodes' := by
  simp only [everyIn_iff, List.forall_mem_append]

theorem every_iff : node.Every shut P ↔ ∀ m ∈ node.fold shut [] (· ++ ·) fun m => [m], P m := by
  have H : Related shut [] (· ++ ·) (fun m => [m]) True And P fun nodes q => (∀ m ∈ nodes, P m) = q :=
    .hom (by simp) (fun _ _ => by simp only [List.forall_mem_append]) fun _ => by simp
  exact iff_of_eq (H.fold node).symm

theorem Every.imp (h : node.Every shut P) (himp : ∀ m : Node, m.Every shut P → Q m) :
    node.Every shut Q := by
  have H : Related shut True And P True And Q fun p q => p → q :=
    ⟨fun kind p hkind h => ⟨himp ⟨kind, p⟩ h, hkind h.2⟩, id, And.imp⟩
  exact H.fold node h

end

variable {P Q : NodeKind → Prop} {q : NodeKind → Bool}

theorem All.self (h : node.All P) : P node.kind := Every.self h

theorem allIn_iff : AllIn P nodes ↔ ∀ node ∈ nodes, node.All P := everyIn_iff

@[simp] theorem allIn_append {nodes' : List Node} :
    AllIn P (nodes ++ nodes') ↔ AllIn P nodes ∧ AllIn P nodes' :=
  everyIn_append

theorem All.imp (h : node.All P) (himp : ∀ m : Node, m.All P → Q m.kind) : node.All Q := Every.imp h himp

theorem countIn_eq_zero_iff : countIn q nodes = 0 ↔ AllIn (fun kind => q kind = false) nodes := by
  have H : Related false 0 (· + ·) (fun m => (q m.kind).toNat) True And (fun m => q m.kind = false)
      fun count r => (count = 0) = r := .hom (by simp) (fun _ _ => by simp) fun _ => by simp
  exact iff_of_eq (H.all nodes)

theorem countIn_eq_zero (h : AllIn P nodes)
    (himp : ∀ kind, P kind → q kind = false) : countIn q nodes = 0 :=
  countIn_eq_zero_iff.mpr <| allIn_iff.mpr fun node hnode =>
    (allIn_iff.mp h node hnode).imp fun m hm => himp m.kind hm.self

theorem All.count_eq_zero (h : node.All P) (himp : ∀ kind, P kind → q kind = false) : node.count q = 0 := by
  have hnodes : AllIn P [node] := ⟨h, trivial⟩
  exact countIn_eq_zero hnodes himp

@[simp] theorem countIn_append (nodes nodes' : List Node) :
    countIn q (nodes ++ nodes') = countIn q nodes + countIn q nodes' := by
  induction nodes with
  | nil => exact (Nat.zero_add _).symm
  | cons node rest ih =>
    change node.count q + countIn q (rest ++ nodes') = node.count q + countIn q rest + countIn q nodes'
    rw [ih, Nat.add_assoc]

end Node

/-! ## Direct contents -/

def NodeKind.children : NodeKind → List Node
  | .identifier _ _ | .literal _ | .thisValue | .breakStatement _ | .continueStatement _
  | .importSpecifier _ _ | .importNamespaceSpecifier _ | .exportSpecifier _ _ | .typeAlias _ _ _
  | .interface _ _ _ _ => []
  | .spread a | .unary _ a | .await a | .typeAssertion a _ | .importExpression a | .restElement a
  | .expressionStatement a | .throwStatement a | .labeled _ a | .exportDefault a => [a]
  | .yield a _ | .returnStatement a | .propertyDefinition _ a _ _ => a.toList
  | .templateLiteral _ as | .array as | .object as | .objectPattern as | .block as
  | .variableDeclaration _ as | .importDeclaration as _ _ => as
  | .arrayPattern slots => slots.flatMap Option.toList
  | .enumDeclaration _ _ cases => cases.flatMap fun one => one.rawValue.toList ++ one.associated
  | .function f | .functionDeclaration f | .methodDefinition _ f _ _ => f.params ++ f.body
  | .binary _ a b | .logical _ a b | .assignment a b | .assignmentPattern a b | .whileLoop a b => [a, b]
  | .member a key computed | .optionalMember a key computed _ | .property key a computed _ =>
    a :: bif computed then [key] else []
  | .call a as _ | .construct a as | .switchStatement a as => a :: as
  | .variableDeclarator a b => a :: b.toList
  | .catchClause a b => a.toList ++ [b]
  | .switchCase a as | .classDeclaration _ a as | .exportNamed a as => a.toList ++ as
  | .conditional a b c | .forOf a b c _ | .forIn a b c => [a, b, c]
  | .ifStatement a b c => a :: b :: c.toList
  | .tryStatement a b c => a :: (b.toList ++ c.toList)
  | .forLoop a b c d => a.toList ++ (b.toList ++ (c.toList ++ [d]))

namespace Node

variable {P : Node → Prop}

theorem everyIn_toList {node : Option Node} : EveryIn false P node.toList ↔ EveryOption false P node := by
  cases node with
  | none => exact Iff.rfl
  | some node => exact iff_of_eq (and_true _)

theorem everyIn_slots {slots : List (Option Node)} (h : foldSlots false True And P slots) :
    EveryIn false P (slots.flatMap Option.toList) := by
  induction slots with
  | nil => trivial
  | cons slot rest ih =>
    rw [List.flatMap_cons, everyIn_append]
    exact ⟨everyIn_toList.mpr h.1, ih h.2⟩

theorem everyIn_cases {cases : List EnumCase} (h : foldCases false True And P cases) :
    EveryIn false P (cases.flatMap fun one => one.rawValue.toList ++ one.associated) := by
  induction cases with
  | nil => trivial
  | cons one rest ih =>
    obtain ⟨name, raw, associated, p⟩ := one
    rw [List.flatMap_cons, everyIn_append, everyIn_append]
    exact ⟨⟨everyIn_toList.mpr h.1.1, h.1.2⟩, ih h.2⟩

theorem everyIn_computed {key : Node} {computed : Bool}
    (h : bif computed then key.fold false True And P else True) :
    EveryIn false P (bif computed then [key] else []) := by
  cases computed with
  | false => trivial
  | true => exact ⟨h, trivial⟩

theorem everyIn_children {kind : NodeKind} (h : kind.fold false True And P) : EveryIn false P kind.children := by
  cases kind with
  | identifier | literal | thisValue | breakStatement | continueStatement | importSpecifier
  | importNamespaceSpecifier | exportSpecifier | typeAlias | interface => trivial
  | arrayPattern => exact everyIn_slots h
  | enumDeclaration => exact everyIn_cases h
  | function f | functionDeclaration f | methodDefinition _ f _ _ =>
    cases f
    exact everyIn_append.mpr h
  | member | optionalMember | property => exact ⟨h.1, everyIn_computed h.2⟩
  | _ =>
    simp only [NodeKind.children, everyIn_append, everyIn_toList, foldAll, and_true]
    exact h

theorem Every.children (h : node.Every false P) : EveryIn false P node.kind.children := by
  cases node
  exact everyIn_children h.2

theorem of_children (step : ∀ node : Node, (∀ child ∈ node.kind.children, P child) → P node)
    (node : Node) : P node := by
  have H : Related false True And P True And P fun _ q => q :=
    ⟨fun kind p h => ⟨step ⟨kind, p⟩ fun child hchild =>
      (everyIn_iff.mp (everyIn_children h) child hchild).self, h⟩, trivial, And.intro⟩
  exact Every.self (H.fold node)

theorem All.children {P : NodeKind → Prop} (h : node.All P) : AllIn P node.kind.children :=
  Every.children h

end Node

end LispLowering
