import Mathlib
import LispLowering.Target.Build

/-!
# Slots of nodes
-/

namespace LispLowering

variable {F : Node → Prop} {nodes : List Node} {rest : List (Slot × Node)}

/-! ## Sorts -/

/-- The sorts of slots. Binding targets count as expressions. -/
inductive Slot where
  | any
  | expression
  | statement
  | entry
  | patternEntry
  | switchClause
  | handler
  | classMember
  | declarator
  | declaration
  | specifier
  deriving DecidableEq

/-- The sort of node that a slot asks for. -/
def Slot.admits (slot : Slot) (node : Node) : Bool :=
  match slot with
  | .any => true
  | .expression => !node.isStatement
  | .statement => node.isStatement
  | .entry =>
    match node.kind with
    | .property _ _ _ _ | .spread _ => true
    | _ => false
  | .patternEntry =>
    match node.kind with
    | .property _ _ _ _ | .restElement _ => true
    | _ => false
  | .switchClause =>
    match node.kind with
    | .switchCase _ _ => true
    | _ => false
  | .handler =>
    match node.kind with
    | .catchClause _ _ => true
    | _ => false
  | .classMember =>
    match node.kind with
    | .methodDefinition _ _ _ _ | .propertyDefinition _ _ _ _ => true
    | _ => false
  | .declarator =>
    match node.kind with
    | .variableDeclarator _ _ => true
    | _ => false
  | .declaration =>
    match node.kind with
    | .variableDeclaration _ _ => true
    | _ => false
  | .specifier =>
    match node.kind with
    | .importSpecifier _ _ | .importNamespaceSpecifier _ | .exportSpecifier _ _ => true
    | _ => false

def Slot.all (slot : Slot) (nodes : List Node) : List (Slot × Node) :=
  nodes.map fun node => (slot, node)

@[simp] theorem Slot.all_append (slot : Slot) (nodes nodes' : List Node) :
    slot.all (nodes ++ nodes') = slot.all nodes ++ slot.all nodes' :=
  List.map_append

theorem Slot.exists_mem_all {slot : Slot} :
    (∃ one ∈ slot.all nodes, F one.2) ↔ ∃ node ∈ nodes, F node := by
  simp [Slot.all]

namespace NodeKind

/-- The nodes directly inside a node with their slots, functions left out. -/
def slots : NodeKind → List (Slot × Node)
  | .templateLiteral _ expressions => Slot.expression.all expressions
  | .array elements => Slot.expression.all elements
  | .object entries => Slot.entry.all entries
  | .property key value _ _ => [(.expression, key), (.expression, value)]
  | .spread argument => [(.expression, argument)]
  | .call callee arguments _ => (.expression, callee) :: Slot.expression.all arguments
  | .construct callee arguments => (.expression, callee) :: Slot.expression.all arguments
  | .member target key _ => [(.expression, target), (.expression, key)]
  | .optionalMember target key _ _ => [(.expression, target), (.expression, key)]
  | .binary _ left right => [(.expression, left), (.expression, right)]
  | .logical _ left right => [(.expression, left), (.expression, right)]
  | .unary _ argument => [(.expression, argument)]
  | .conditional test consequent alternate =>
    [(.expression, test), (.expression, consequent), (.expression, alternate)]
  | .assignment target value => [(.expression, target), (.expression, value)]
  | .await argument => [(.expression, argument)]
  | .yield argument _ => Slot.expression.all argument.toList
  | .typeAssertion expression _ => [(.expression, expression)]
  | .importExpression source => [(.expression, source)]
  | .arrayPattern slots => Slot.expression.all (slots.flatMap Option.toList)
  | .objectPattern entries => Slot.patternEntry.all entries
  | .assignmentPattern target default => [(.expression, target), (.expression, default)]
  | .restElement argument => [(.expression, argument)]
  | .expressionStatement expression => [(.expression, expression)]
  | .block body => Slot.statement.all body
  | .variableDeclaration _ declarations => Slot.declarator.all declarations
  | .variableDeclarator id init => (.expression, id) :: Slot.expression.all init.toList
  | .returnStatement argument => Slot.expression.all argument.toList
  | .ifStatement test consequent alternate =>
    (.expression, test) :: (.statement, consequent) :: Slot.statement.all alternate.toList
  | .throwStatement argument => [(.expression, argument)]
  | .tryStatement body handler finalizer =>
    (.statement, body) :: (Slot.handler.all handler.toList ++ Slot.statement.all finalizer.toList)
  | .catchClause param body => Slot.expression.all param.toList ++ [(.statement, body)]
  | .whileLoop test body => [(.expression, test), (.statement, body)]
  | .forLoop init test update body =>
    Slot.declaration.all init.toList ++ (Slot.expression.all test.toList ++
      (Slot.expression.all update.toList ++ [(.statement, body)]))
  | .forOf left right body _ => [(.declaration, left), (.expression, right), (.statement, body)]
  | .forIn left right body => [(.declaration, left), (.expression, right), (.statement, body)]
  | .labeled _ body => [(.statement, body)]
  | .switchStatement discriminant cases => (.expression, discriminant) :: Slot.switchClause.all cases
  | .switchCase test consequent => Slot.expression.all test.toList ++ Slot.statement.all consequent
  | .classDeclaration _ parent body => Slot.expression.all parent.toList ++ Slot.classMember.all body
  | .propertyDefinition _ value _ _ => Slot.expression.all value.toList
  | .enumDeclaration _ _ cases =>
    cases.flatMap fun one =>
      Slot.expression.all one.rawValue.toList ++ Slot.expression.all one.associated
  | .importDeclaration specifiers _ _ => Slot.specifier.all specifiers
  | .exportNamed declaration specifiers =>
    Slot.statement.all declaration.toList ++ Slot.specifier.all specifiers
  | .exportDefault declaration => [(.expression, declaration)]
  | .identifier _ _ | .literal _ | .function _ | .thisValue | .functionDeclaration _
  | .breakStatement _ | .continueStatement _ | .methodDefinition _ _ _ _ | .importSpecifier _ _
  | .importNamespaceSpecifier _ | .exportSpecifier _ _ | .typeAlias _ _ _ | .interface _ _ _ _ => []

def definition? : NodeKind → Option Function
  | .function f | .functionDeclaration f | .methodDefinition _ f _ _ => some f
  | _ => none

/-- A template has one more text than it has expressions. -/
def isBalanced : NodeKind → Bool
  | .templateLiteral texts expressions => texts.length = expressions.length + 1
  | _ => true

end NodeKind

def Function.slots (f : Function) : List (Slot × Node) :=
  Slot.expression.all f.params ++ Slot.statement.all f.body

/-- Every slot of the node holds a node of its sort, at every depth, also inside of functions, and every
template has one more text than it has expressions. -/
inductive WellSorted : Node → Prop where
  | intro {node : Node} (balanced : node.kind.isBalanced = true)
      (admitted : ∀ held ∈ node.kind.slots, held.1.admits held.2 = true)
      (slots : ∀ held ∈ node.kind.slots, WellSorted held.2)
      (admittedIn : ∀ f, node.kind.definition? = some f → ∀ held ∈ f.slots, held.1.admits held.2 = true)
      (definition : ∀ f, node.kind.definition? = some f → ∀ held ∈ f.slots, WellSorted held.2) :
      WellSorted node

/-- A well-sorted node of the sort that the slot asks for. -/
structure Slot.Fits (slot : Slot) (node : Node) : Prop where
  admits : slot.admits node = true
  sorted : WellSorted node

def AllFit (held : List (Slot × Node)) : Prop := ∀ one ∈ held, one.1.Fits one.2

namespace AllFit

@[simp] theorem nil : AllFit [] := by
  simp [AllFit]

@[simp] theorem cons_iff {slot : Slot} :
    AllFit ((slot, node) :: rest) ↔ slot.Fits node ∧ AllFit rest :=
  List.forall_mem_cons

@[simp] theorem append_iff {held held' : List (Slot × Node)} :
    AllFit (held ++ held') ↔ AllFit held ∧ AllFit held' :=
  List.forall_mem_append

@[simp] theorem all_iff {slot : Slot} :
    AllFit (slot.all nodes) ↔ ∀ node ∈ nodes, slot.Fits node :=
  List.forall_mem_map

end AllFit

namespace WellSorted

variable {node : Node}

theorem held (h : WellSorted node) : AllFit node.kind.slots := by
  obtain ⟨-, admitted, slots, -, -⟩ := h
  exact fun held hheld => ⟨admitted held hheld, slots held hheld⟩

theorem defined (h : WellSorted node) {f : Function} (hf : node.kind.definition? = some f) :
    AllFit f.slots := by
  obtain ⟨-, -, -, admittedIn, definition⟩ := h
  exact fun held hheld => ⟨admittedIn f hf held hheld, definition f hf held hheld⟩

theorem hold (hbalanced : node.kind.isBalanced = true) (hdefn : node.kind.definition? = none)
    (h : AllFit node.kind.slots) : WellSorted node := by
  refine ⟨hbalanced, fun held hheld => (h held hheld).admits, fun held hheld => (h held hheld).sorted,
    ?_, ?_⟩
  all_goals
    intro f hf
    rw [hdefn] at hf
    cases hf

end WellSorted

/-! ## Marks -/

/-- What a node itself does, apart from what the nodes in it do: it waits, it yields, it leaves a
function, or it makes an object with given entries. -/
inductive Mark where
  | awaits
  | yields
  | returns
  | object (entries : List Node)

def NodeKind.marks : NodeKind → List Mark
  | .await _ => [.awaits]
  | .forOf _ _ _ true => [.awaits]
  | .yield _ _ => [.yields]
  | .returnStatement _ => [.returns]
  | .object (entry :: entries) => [.object (entry :: entries)]
  | _ => []

/-- The block that a `try` statement with a handler guards. -/
def NodeKind.guarded? : NodeKind → Option Node
  | .tryStatement body (some _) _ => some body
  | _ => none

/-- What to look for in a node: marks, in the parameters of the functions in it or not, and in the
bodies of some functions. -/
structure Scan where
  marks : Mark → Prop
  params : Prop
  body : Function → Prop

namespace Scan

/-- The scan finds a mark in the node, at some depth. -/
inductive Finds (scan : Scan) : Node → Prop where
  | mark {node : Node} {mark : Mark} : mark ∈ node.kind.marks → scan.marks mark → Finds scan node
  | slot {node : Node} {held : Slot × Node} :
      held ∈ node.kind.slots → Finds scan held.2 → Finds scan node
  | param {node param : Node} {f : Function} :
      node.kind.definition? = some f → scan.params → param ∈ f.params → Finds scan param →
      Finds scan node
  | body {node statement : Node} {f : Function} :
      node.kind.definition? = some f → scan.body f → statement ∈ f.body → Finds scan statement →
      Finds scan node

/-- The scan finds a mark in a function. -/
def FindsIn (scan : Scan) (f : Function) : Prop :=
  (scan.params ∧ ∃ param ∈ f.params, scan.Finds param) ∨
    (scan.body f ∧ ∃ statement ∈ f.body, scan.Finds statement)

/-- Looks for a mark outside of functions. -/
def outside (mark : Mark) : Scan where
  marks := fun found => found = mark
  params := False
  body := fun _ => False

theorem not_outside_marks {mark other : Mark} (h : other ≠ mark) : ¬(outside mark).marks other := h

theorem outside_not_findsIn (mark : Mark) (f : Function) : ¬(outside mark).FindsIn f := by
  rintro (⟨h, -⟩ | ⟨h, -⟩)
  · exact h
  · exact h

def FindsAmong (scan : Scan) (held : List (Slot × Node)) : Prop := ∃ one ∈ held, scan.Finds one.2

section

variable {scan : Scan}

@[simp] theorem findsAmong_cons {slot : Slot} :
    scan.FindsAmong ((slot, node) :: rest) ↔ scan.Finds node ∨ scan.FindsAmong rest :=
  List.exists_mem_cons_iff ..

@[simp] theorem findsAmong_append {held held' : List (Slot × Node)} :
    scan.FindsAmong (held ++ held') ↔ scan.FindsAmong held ∨ scan.FindsAmong held' := by
  simp only [FindsAmong, List.mem_append, or_and_right, exists_or]

@[simp] theorem findsAmong_all {slot : Slot} :
    scan.FindsAmong (slot.all nodes) ↔ ∃ node ∈ nodes, scan.Finds node :=
  Slot.exists_mem_all

end

theorem finds_iff (scan : Scan) (node : Node) :
    scan.Finds node ↔ (∃ mark ∈ node.kind.marks, scan.marks mark) ∨ scan.FindsAmong node.kind.slots ∨
      ∃ f, node.kind.definition? = some f ∧ scan.FindsIn f := by
  constructor
  · intro h
    cases h with
    | mark hmark hscan => exact .inl ⟨_, hmark, hscan⟩
    | slot hheld hfinds => exact .inr (.inl ⟨_, hheld, hfinds⟩)
    | param hf hscan hparam hfinds => exact .inr (.inr ⟨_, hf, .inl ⟨hscan, _, hparam, hfinds⟩⟩)
    | body hf hscan hbody hfinds => exact .inr (.inr ⟨_, hf, .inr ⟨hscan, _, hbody, hfinds⟩⟩)
  · rintro (⟨mark, hmark, hscan⟩ | ⟨held, hheld, hfinds⟩ | ⟨f, hf, hin⟩)
    · exact .mark hmark hscan
    · exact .slot hheld hfinds
    · rcases hin with ⟨hscan, param, hparam, hfinds⟩ | ⟨hscan, statement, hbody, hfinds⟩
      · exact .param hf hscan hparam hfinds
      · exact .body hf hscan hbody hfinds

end Scan

/-! ## Searches -/

/-- A search through nodes at every depth, where `F` tells in which nodes something is found: the node has
a mark or guards a block that is looked for, or something is found in a slot or in the function that the
node defines. -/
structure Search (F : Node → Prop) where
  marks : Mark → Prop
  guards : Node → Prop
  within : Function → Prop
  iff : ∀ node, F node ↔ (∃ mark ∈ node.kind.marks, marks mark) ∨
    (∃ block ∈ node.kind.guarded?, guards block) ∨ (∃ held ∈ node.kind.slots, F held.2) ∨
    ∃ f, node.kind.definition? = some f ∧ within f

theorem Search.slot (S : Search F) {held : Slot × Node}
    (hheld : held ∈ node.kind.slots) (hfinds : F held.2) : F node :=
  (S.iff node).mpr (.inr (.inr (.inl ⟨held, hheld, hfinds⟩)))

/-- A scan does not look at what is guarded. -/
def Scan.search (scan : Scan) : Search scan.Finds where
  marks := scan.marks
  guards := fun _ => False
  within := scan.FindsIn
  iff := fun node => by
    simp only [and_false, exists_false, false_or]
    exact scan.finds_iff node

end LispLowering
