import Mathlib
import LispLowering.Lowering.Dispatch

/-!
# Trees and nodes without positions
-/

namespace LispLowering

open List

variable {items : List SExpr} {name : String} {node : Node} {nodes : List Node}
  {p : Option Position} {pattern : Pattern} {t : SExpr}

/-! ## Trees -/

namespace SExpr

mutual

def erase : SExpr → SExpr
  | .symbol name _ => .symbol name none
  | .literal value _ => .literal value none
  | .list items _ => .list (eraseItems items) none

def eraseItems : List SExpr → List SExpr
  | [] => []
  | item :: rest => erase item :: eraseItems rest

end

theorem eraseItems_eq_map : eraseItems items = items.map erase := by
  induction items with
  | nil => rfl
  | cons item rest ih => simp only [eraseItems, ih, map_cons]

@[simp] theorem erase_symbol : (symbol name p).erase = .symbol name none := rfl

@[simp] theorem erase_literal (value : Literal) : (literal value p).erase = .literal value none := rfl

@[simp] theorem erase_list : (list items p).erase = .list (items.map erase) none := by
  simp only [erase, eraseItems_eq_map]

@[simp] theorem position_erase (t : SExpr) : t.erase.position = none := by
  cases t <;> rfl

@[simp] theorem symbol?_erase : t.erase.symbol? = t.symbol? := by
  cases t <;> rfl

@[simp] theorem isSymbol_erase (name : String) (t : SExpr) : t.erase.isSymbol name = t.isSymbol name := by
  simp only [isSymbol, symbol?_erase]

@[simp] theorem items?_erase : t.erase.items? = t.items?.map (List.map erase) := by
  cases t <;> simp [items?]

@[simp] theorem head?_erase (t : SExpr) : t.erase.head? = t.head? := by
  match t with
  | .symbol _ _ | .literal _ _ | .list [] _ | .list (.symbol _ _ :: _) _
  | .list (.literal _ _ :: _) _ | .list (.list _ _ :: _) _ => simp [head?]

@[simp] theorem isForm_erase : t.erase.isForm name = t.isForm name := by
  simp only [isForm, head?_erase]

@[simp] theorem bindingItems_erase : t.erase.bindingItems = t.bindingItems.map erase := by
  cases t with
  | symbol | literal => simp [bindingItems]
  | list items _ =>
    cases items with
    | nil => simp [bindingItems]
    | cons head rest =>
      simp only [erase_list, map_cons, bindingItems, isSymbol_erase]
      split <;> simp

mutual

@[simp] theorem depth_erase : (t : SExpr) → t.erase.depth = t.depth
  | .symbol _ _ | .literal _ _ => rfl
  | .list items _ => by simp only [erase_list, depth, depthItems_erase items]

@[simp] theorem depthItems_erase : (items : List SExpr) → depthItems (items.map erase) = depthItems items
  | [] => rfl
  | item :: rest => by
    simp only [map_cons, depthItems, depth_erase item, depthItems_erase rest]

end

end SExpr

/-! ## Patterns -/

mutual

def Pattern.erase : Pattern → Pattern
  | ⟨kind, default, _⟩ => ⟨kind.erase, default.map SExpr.erase, none⟩

def PatternKind.erase : PatternKind → PatternKind
  | .identifier name ascribed => .identifier name ascribed
  | .array elements => .array (Pattern.eraseAll elements)
  | .object properties rest => .object (Pattern.eraseProperties properties) (Pattern.eraseRest rest)
  | .rest inner => .rest inner.erase
  | .skip => .skip

def Pattern.eraseAll : List Pattern → List Pattern
  | [] => []
  | element :: rest => element.erase :: Pattern.eraseAll rest

def Pattern.eraseProperties : List PropertyPattern → List PropertyPattern
  | [] => []
  | ⟨key, value⟩ :: rest => ⟨key, value.erase⟩ :: Pattern.eraseProperties rest

def Pattern.eraseRest : Option Pattern → Option Pattern
  | none => none
  | some rest => some rest.erase

end

def ParamList.erase (list : ParamList) : ParamList := ⟨list.params.map Pattern.erase, list.structured⟩

namespace Pattern

theorem eraseAll_eq_map (elements : List Pattern) : eraseAll elements = elements.map erase := by
  induction elements with
  | nil => rfl
  | cons element rest ih => simp only [eraseAll, ih, map_cons]

@[simp] theorem erase_mk (kind : PatternKind) (default : Option SExpr) :
    erase ⟨kind, default, p⟩ = ⟨kind.erase, default.map SExpr.erase, none⟩ := rfl

@[simp] theorem position_erase (pattern : Pattern) : pattern.erase.position = none := by
  cases pattern
  rfl

@[simp] theorem name?_erase : pattern.erase.name? = pattern.name? := by
  obtain ⟨kind, default, p⟩ := pattern
  cases kind <;> rfl

@[simp] theorem isRest_erase : pattern.erase.isRest = pattern.isRest := by
  obtain ⟨kind, default, p⟩ := pattern
  cases kind <;> rfl

@[simp] theorem key_erase (index : Nat) : pattern.erase.key index = pattern.key index := by
  simp only [key, name?_erase]

end Pattern

/-! ## Nodes -/

mutual

def Node.erase : Node → Node
  | ⟨kind, _⟩ => ⟨kind.erase, none⟩

def NodeKind.erase : NodeKind → NodeKind
  | .identifier name ascribed => .identifier name ascribed
  | .literal value => .literal value
  | .templateLiteral texts expressions => .templateLiteral texts (Node.eraseAll expressions)
  | .array elements => .array (Node.eraseAll elements)
  | .object entries => .object (Node.eraseAll entries)
  | .property key value computed shorthand => .property key.erase value.erase computed shorthand
  | .spread argument => .spread argument.erase
  | .call callee arguments optional => .call callee.erase (Node.eraseAll arguments) optional
  | .construct callee arguments => .construct callee.erase (Node.eraseAll arguments)
  | .member object property computed => .member object.erase property.erase computed
  | .optionalMember object property computed optional =>
    .optionalMember object.erase property.erase computed optional
  | .binary operator left right => .binary operator left.erase right.erase
  | .logical operator left right => .logical operator left.erase right.erase
  | .unary operator argument => .unary operator argument.erase
  | .conditional test consequent alternate => .conditional test.erase consequent.erase alternate.erase
  | .assignment target value => .assignment target.erase value.erase
  | .function definition => .function definition.erase
  | .await argument => .await argument.erase
  | .yield argument delegate => .yield (Node.eraseOption argument) delegate
  | .thisValue => .thisValue
  | .typeAssertion expression type => .typeAssertion expression.erase type
  | .importExpression source => .importExpression source.erase
  | .arrayPattern slots => .arrayPattern (Node.eraseSlots slots)
  | .objectPattern entries => .objectPattern (Node.eraseAll entries)
  | .assignmentPattern target default => .assignmentPattern target.erase default.erase
  | .restElement argument => .restElement argument.erase
  | .expressionStatement expression => .expressionStatement expression.erase
  | .block body => .block (Node.eraseAll body)
  | .variableDeclaration kind declarations => .variableDeclaration kind (Node.eraseAll declarations)
  | .variableDeclarator id init => .variableDeclarator id.erase (Node.eraseOption init)
  | .functionDeclaration definition => .functionDeclaration definition.erase
  | .returnStatement argument => .returnStatement (Node.eraseOption argument)
  | .ifStatement test consequent alternate =>
    .ifStatement test.erase consequent.erase (Node.eraseOption alternate)
  | .throwStatement argument => .throwStatement argument.erase
  | .tryStatement block handler finalizer =>
    .tryStatement block.erase (Node.eraseOption handler) (Node.eraseOption finalizer)
  | .catchClause param body => .catchClause (Node.eraseOption param) body.erase
  | .whileLoop test body => .whileLoop test.erase body.erase
  | .forLoop init test update body =>
    .forLoop (Node.eraseOption init) (Node.eraseOption test) (Node.eraseOption update) body.erase
  | .forOf left right body awaits => .forOf left.erase right.erase body.erase awaits
  | .forIn left right body => .forIn left.erase right.erase body.erase
  | .breakStatement label => .breakStatement label
  | .continueStatement label => .continueStatement label
  | .labeled label body => .labeled label body.erase
  | .switchStatement discriminant cases => .switchStatement discriminant.erase (Node.eraseAll cases)
  | .switchCase test consequent => .switchCase (Node.eraseOption test) (Node.eraseAll consequent)
  | .classDeclaration name parent body =>
    .classDeclaration name (Node.eraseOption parent) (Node.eraseAll body)
  | .methodDefinition key function kind static => .methodDefinition key function.erase kind static
  | .propertyDefinition key value static readonly =>
    .propertyDefinition key (Node.eraseOption value) static readonly
  | .enumDeclaration name rawType cases => .enumDeclaration name rawType (Node.eraseCases cases)
  | .importDeclaration specifiers source resolved =>
    .importDeclaration (Node.eraseAll specifiers) source resolved
  | .importSpecifier imported localName => .importSpecifier imported localName
  | .importNamespaceSpecifier localName => .importNamespaceSpecifier localName
  | .exportNamed declaration specifiers =>
    .exportNamed (Node.eraseOption declaration) (Node.eraseAll specifiers)
  | .exportSpecifier localName exported => .exportSpecifier localName exported
  | .exportDefault declaration => .exportDefault declaration.erase
  | .typeAlias name typeParams type => .typeAlias name typeParams type
  | .interface name typeParams parents members => .interface name typeParams parents members

def Function.erase : Function → Function
  | ⟨id, params, body, isAsync, isGenerator, isArrow, returnType, typeParams⟩ =>
    ⟨id, Node.eraseAll params, Node.eraseAll body, isAsync, isGenerator, isArrow, returnType, typeParams⟩

def EnumCase.erase : EnumCase → EnumCase
  | ⟨name, rawValue, associated, _⟩ => ⟨name, Node.eraseOption rawValue, Node.eraseAll associated, none⟩

def Node.eraseAll : List Node → List Node
  | [] => []
  | node :: rest => node.erase :: Node.eraseAll rest

def Node.eraseOption : Option Node → Option Node
  | none => none
  | some node => some node.erase

def Node.eraseSlots : List (Option Node) → List (Option Node)
  | [] => []
  | slot :: rest => Node.eraseOption slot :: Node.eraseSlots rest

def Node.eraseCases : List EnumCase → List EnumCase
  | [] => []
  | one :: rest => one.erase :: Node.eraseCases rest

end

namespace Node

@[simp] theorem eraseAll_eq_map : eraseAll nodes = nodes.map erase := by
  induction nodes with
  | nil => rfl
  | cons node rest ih => simp only [eraseAll, ih, map_cons]

@[simp] theorem eraseOption_eq_map (node : Option Node) : eraseOption node = node.map erase := by
  cases node <;> rfl

@[simp] theorem eraseSlots_eq_map (slots : List (Option Node)) :
    eraseSlots slots = slots.map (Option.map erase) := by
  induction slots with
  | nil => rfl
  | cons slot rest ih => simp only [eraseSlots, ih, map_cons, eraseOption_eq_map]

@[simp] theorem eraseCases_eq_map (cases : List EnumCase) :
    eraseCases cases = cases.map EnumCase.erase := by
  induction cases with
  | nil => rfl
  | cons one rest ih => simp only [eraseCases, ih, map_cons]

@[simp] theorem erase_mk (kind : NodeKind) : erase ⟨kind, p⟩ = ⟨kind.erase, none⟩ := rfl

@[simp] theorem position_erase (node : Node) : node.erase.position = none := by
  cases node
  rfl

@[simp] theorem erase_place : (node.place p).erase = node.erase := by
  cases node
  rfl

@[simp] theorem erase_orPlace : (node.orPlace p).erase = node.erase := by
  cases node
  rfl

@[simp] theorem place_none_erase : node.erase.place none = node.erase := by
  cases node
  rfl

@[simp] theorem orPlace_none_erase : node.erase.orPlace none = node.erase := by
  cases node
  rfl

@[simp] theorem erase_declare (kind : VariableKind) (id : Node) (init : Option Node) :
    (declare kind id init).erase = declare kind id.erase (eraseOption init) := by
  simp [declare, of, NodeKind.erase]

/-! ## Queries -/

@[simp] theorem isStatement_erase : node.erase.isStatement = node.isStatement := by
  obtain ⟨kind, p⟩ := node
  cases kind <;> rfl

@[simp] theorem isTerminator_erase : node.erase.isTerminator = node.isTerminator := by
  obtain ⟨kind, p⟩ := node
  cases kind <;> rfl

@[simp] theorem identifier?_erase : node.erase.identifier? = node.identifier? := by
  obtain ⟨kind, p⟩ := node
  cases kind <;> rfl

@[simp] theorem boundName?_erase (node : Node) : node.erase.boundName? = node.boundName? := by
  obtain ⟨kind, _⟩ := node
  cases kind with
  | assignmentPattern target default =>
    simpa [NodeKind.erase, boundName?] using boundName?_erase target
  | _ => rfl

mutual

@[simp] theorem boundNames_erase : (node : Node) → node.erase.boundNames = node.boundNames
  | ⟨kind, _⟩ => by
    cases kind with
    | assignmentPattern target default =>
      simpa [NodeKind.erase, boundNames] using boundNames_erase target
    | restElement inner => simpa [NodeKind.erase, boundNames] using boundNames_erase inner
    | arrayPattern slots => simpa [NodeKind.erase, boundNames] using slotNames_erase slots
    | objectPattern entries => simpa [NodeKind.erase, boundNames] using entryNames_erase entries
    | _ => rfl

theorem slotNames_erase : (slots : List (Option Node)) →
    slotNames (slots.map (Option.map erase)) = slotNames slots
  | [] => rfl
  | none :: rest => by simpa [slotNames, optionNames] using slotNames_erase rest
  | some node :: rest => by
    simp [slotNames, optionNames, slotNames_erase rest, boundNames_erase node]

theorem entryNames_erase : (entries : List Node) → entryNames (entries.map erase) = entryNames entries
  | [] => rfl
  | entry :: rest => by
    have hentry := boundNames_erase entry
    have hrest := entryNames_erase rest
    obtain ⟨kind, p⟩ := entry
    cases kind with
    | property key value computed shorthand =>
      simp [NodeKind.erase, entryNames, hrest, boundNames_erase value]
    | _ => simpa [NodeKind.erase, entryNames, hrest] using hentry

end

/-! ## Statements and values -/

theorem joined_erase : (joined p nodes).erase = joined none (nodes.map erase) := by
  rcases nodes with _ | ⟨first, _ | ⟨second, rest⟩⟩
  · rfl
  · rfl
  · simp [joined, NodeKind.erase]

theorem thenReturn_erase (name : Option String) :
    (thenReturn node name).map erase = thenReturn node.erase name := by
  cases name with
  | none => rfl
  | some name => simp [thenReturn, NodeKind.erase, place, ident, typedIdent, of]

theorem onlyVariable?_erase (declarations : List Node) :
    onlyVariable? (declarations.map erase) = onlyVariable? declarations := by
  match declarations with
  | [] => rfl
  | [⟨kind, p⟩] =>
    cases kind with
    | variableDeclarator id init => simp [onlyVariable?, NodeKind.erase]
    | _ => rfl
  | first :: second :: rest => simp [onlyVariable?]

mutual

theorem returning_erase : (node : Node) → returning node.erase = (returning node).map erase
  | ⟨kind, p⟩ => by
    cases kind with
    | block body => simp [NodeKind.erase, returning, returningAll_erase body]
    | ifStatement test consequent alternate =>
      simp [NodeKind.erase, returning, joined_erase, returning_erase consequent,
        returningOption_erase alternate]
    | tryStatement block handler finalizer =>
      simp [NodeKind.erase, returning, joined_erase, returning_erase block, returningHandler_erase handler]
    | functionDeclaration f =>
      obtain ⟨id, params, body, isAsync, isGenerator, isArrow, returnType, typeParams⟩ := f
      simp [NodeKind.erase, Function.erase, returning, thenReturn_erase]
    | classDeclaration | enumDeclaration => simp [NodeKind.erase, returning, thenReturn_erase]
    | variableDeclaration kind declarations =>
      simp [NodeKind.erase, returning, thenReturn_erase, onlyVariable?_erase]
    | _ => rfl

theorem returningAll_erase : (body : List Node) →
    returningAll (body.map erase) = (returningAll body).map erase
  | [] => rfl
  | [last] => returning_erase last
  | node :: next :: rest => by
    simpa [returningAll] using returningAll_erase (next :: rest)

theorem returningOption_erase : (branch : Option Node) →
    returningOption (branch.map erase) = (returningOption branch).map erase
  | none => rfl
  | some branch => by simp [returningOption, joined_erase, returning_erase branch]

theorem returningHandler_erase : (handler : Option Node) →
    returningHandler (handler.map erase) = (returningHandler handler).map erase
  | none => rfl
  | some ⟨kind, p⟩ => by
    cases kind with
    | catchClause param body =>
      simp [NodeKind.erase, returningHandler, joined_erase, returning_erase body]
    | _ => rfl

end

@[simp] theorem erase_asStatement : node.asStatement.erase = node.erase.asStatement := by
  unfold asStatement
  rw [isStatement_erase]
  split <;> simp [statementOf, NodeKind.erase]

theorem erase_wrapped (body : List Node) (suspension : Suspension) :
    (wrapped body suspension p).erase = wrapped (eraseAll body) suspension none := by
  obtain ⟨awaits, yields⟩ := suspension
  cases awaits <;> cases yields <;> rfl

@[simp] theorem erase_asExpression (node : Node) (suspension : Suspension) :
    (node.asExpression suspension).erase = node.erase.asExpression suspension := by
  obtain ⟨kind, p⟩ := node
  -- A statement of any other kind is wrapped.
  have hwrap : (wrapped (returning ⟨kind, p⟩) suspension p).erase =
      wrapped (returning (erase ⟨kind, p⟩)) suspension none := by
    rw [erase_wrapped, returning_erase, eraseAll_eq_map]
  cases kind <;> first | rfl | exact hwrap

end Node

end LispLowering
