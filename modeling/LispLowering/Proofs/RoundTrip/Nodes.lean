import LispLowering.Proofs.Provenance.Contents
import LispLowering.Proofs.RoundTrip.Types

/-!
# Programs through their JSON form
-/

namespace LispLowering

open Node Json

variable {kind : NodeKind} {n : Nat} {node : Node}
  {cases : List EnumCase} {f : Function} {nodes : List Node} {slots : List (Option Node)}

/-! ## What is inside a node -/

namespace NodeKind

/-- The node that names a property, whether it is computed or not. -/
def key? : NodeKind → Option Node
  | .member _ key _ | .optionalMember _ key _ _ | .property key _ _ _ => some key
  | _ => none

def types : NodeKind → List TypeExpr
  | .identifier _ type | .enumDeclaration _ type _ => type.toList
  | .typeAssertion _ type | .typeAlias _ _ type => [type]
  | .function f | .functionDeclaration f | .methodDefinition _ f _ _ => f.returnType.toList
  | .interface _ _ parents members => parents ++ members.map InterfaceMember.type
  | _ => []

def number? : NodeKind → Option Binary64
  | .literal (.number x) => some x
  | _ => none

end NodeKind

/-- Every number in the node is finite, at every depth and in every type. -/
inductive Node.FiniteNumbers : Node → Prop where
  | intro {node : Node} (own : ∀ x ∈ node.kind.number?, x.isFinite = true)
      (types : ∀ type ∈ node.kind.types, type.FiniteNumbers)
      (key : ∀ key ∈ node.kind.key?, FiniteNumbers key)
      (children : ∀ child ∈ node.kind.children, FiniteNumbers child) : FiniteNumbers node

theorem Node.finiteNumbers_mk {p : Option Position} :
    FiniteNumbers ⟨kind, p⟩ ↔ (∀ x ∈ kind.number?, x.isFinite = true) ∧
      (∀ type ∈ kind.types, type.FiniteNumbers) ∧ (∀ key ∈ kind.key?, key.FiniteNumbers) ∧
      ∀ child ∈ kind.children, child.FiniteNumbers := by
  constructor
  · rintro ⟨own, types, key, children⟩
    exact ⟨own, types, key, children⟩
  · rintro ⟨own, types, key, children⟩
    exact ⟨own, types, key, children⟩

def Program.FiniteNumbers (program : Program) : Prop := ∀ node ∈ program.body, node.FiniteNumbers

namespace Node

theorem itemsJson_eq_map (nodes : List Node) : itemsJson nodes = nodes.map toJson := by
  induction nodes with
  | nil => rfl
  | cons node rest ih => simp [itemsJson, ih]

theorem slotsJson_eq_map (slots : List (Option Node)) : slotsJson slots = slots.map optionJson := by
  induction slots with
  | nil => rfl
  | cons slot rest ih => simp [slotsJson, ih]

theorem casesJson_eq_map (cases : List EnumCase) : casesJson cases = cases.map caseJson := by
  induction cases with
  | nil => rfl
  | cons one rest ih => simp [casesJson, ih]

/-! ## Depth -/

theorem depth_itemsJson_le :
    depthItems (itemsJson nodes) ≤ n ↔ ∀ node ∈ nodes, node.toJson.depth ≤ n := by
  rw [itemsJson_eq_map, depthItems_le, List.forall_mem_map]

theorem depth_optionJson_le {node : Option Node} :
    (optionJson node).depth ≤ n ↔ ∀ one ∈ node.toList, one.toJson.depth ≤ n := by
  cases node <;> simp [optionJson, depth]

theorem depth_slotsJson_le : depthItems (slotsJson slots) ≤ n ↔
      ∀ node ∈ slots.flatMap Option.toList, node.toJson.depth ≤ n := by
  rw [slotsJson_eq_map, depthItems_le, List.forall_mem_map, List.forall_mem_flatMap]
  simp only [depth_optionJson_le]

theorem depth_functionJson (h : (functionJson f).depth ≤ n) :
    ∀ node ∈ f.params ++ f.body, node.toJson.depth ≤ n := by
  obtain ⟨id, params, body, isAsync, isGenerator, isArrow, returnType, typeParams⟩ := f
  simp only [functionJson, depth, depthMembers] at h
  simp only [List.forall_mem_append, ← depth_itemsJson_le]
  omega

theorem depth_casesJson (h : depthItems (casesJson cases) ≤ n) :
    ∀ node ∈ cases.flatMap fun one => one.rawValue.toList ++ one.associated, node.toJson.depth ≤ n := by
  rw [casesJson_eq_map, depthItems_le, List.forall_mem_map] at h
  rw [List.forall_mem_flatMap]
  intro one hone
  have hdepth := h one hone
  obtain ⟨name, rawValue, associated, p⟩ := one
  simp only [caseJson, depth, List.cons_append, depthMembers] at hdepth
  simp only [List.forall_mem_append, ← depth_optionJson_le, ← depth_itemsJson_le]
  omega

theorem depth_key (h : (kindJson kind).depth ≤ n) : ∀ key ∈ kind.key?, key.toJson.depth ≤ n := by
  cases kind with
  | member a key _ | optionalMember a key _ _ | property key a _ _ =>
    simp only [kindJson, tag, depth, depthMembers] at h
    rintro _ ⟨⟩
    omega
  | _ =>
    intro key hkey
    cases hkey

theorem depth_children (h : (kindJson kind).depth ≤ n) :
    ∀ child ∈ kind.children, child.toJson.depth ≤ n := by
  cases kind with simp only [kindJson, tag, depth, depthMembers] at h
  | arrayPattern slots =>
    rw [NodeKind.children, ← depth_slotsJson_le]
    omega
  | enumDeclaration _ _ cases => exact depth_casesJson (by omega)
  | function f | functionDeclaration f | methodDefinition _ f _ _ => exact depth_functionJson (by omega)
  | member a key computed | optionalMember a key computed _ | property key a computed _ =>
    -- the key is a child only if it is computed, but it is written in both cases
    cases computed <;> simp [NodeKind.children] <;> omega
  | _ =>
    simp only [NodeKind.children, List.forall_mem_cons, List.forall_mem_append, ← depth_optionJson_le,
      ← depth_itemsJson_le, List.not_mem_nil, false_implies, implies_true, and_true] <;> omega

end Node

namespace Decode

/-! ## Leaves -/

theorem index_int (n : Nat) : index? (.int n) = some n := by
  simp [index?]

theorem position_toJson (p : Position) : position p.toJson = some p := by
  obtain ⟨line, column, file⟩ := p
  cases file with
  | none | some =>
    exact reads_then rfl (reads_then (index_int line) (reads_then (index_int column) rfl))

theorem literal_toJson {value : Literal} (h : ∀ x, value = .number x → x.isFinite = true) :
    literal value.toJson = some value := by
  cases value with
  | null | bool value | string text => rfl
  | number x => exact congrArg (Option.map Literal.number) (number_ofNumber (h x rfl))

theorem binaryOp_name (op : BinaryOp) : binaryOp (.str op.name) = some op := by
  cases op <;> rfl

theorem logicalOp_name (op : LogicalOp) : logicalOp (.str op.name) = some op := by
  cases op <;> rfl

theorem unaryOp_name (op : UnaryOp) : unaryOp (.str op.name) = some op := by
  cases op <;> rfl

theorem variableKind_name (kind : VariableKind) : variableKind (.str kind.name) = some kind := by
  cases kind <;> rfl

theorem methodKind_name (kind : MethodKind) : methodKind (.str kind.name) = some kind := by
  cases kind <;> rfl

/-! ## Options and lists -/

theorem nullable_type {type : Option TypeExpr} (h : ∀ one ∈ type.toList, typeExpr one.toJson = some one) :
    nullable typeExpr (TypeExpr.optionJson type) = some type := by
  cases type with
  | none => rfl
  | some type =>
    have htype := List.forall_mem_singleton.mp h
    obtain ⟨members, hmembers⟩ := type.toJson_eq_obj
    exact nullable_eq (by simp [TypeExpr.optionJson, hmembers]) htype

theorem listOf_members {members : List InterfaceMember}
    (h : ∀ member ∈ members, typeExpr member.type.toJson = some member.type) :
    listOf interfaceMember (.arr (members.map InterfaceMember.toJson)) = some members :=
  listOf_map fun member hmember =>
    reads_then rfl (reads_then rfl (reads_then (h member hmember) (reads_then rfl (reads_then rfl rfl))))

section

variable {read : Json → Option Node}

theorem nullable_node {node : Option Node} (h : ∀ one ∈ node.toList, read one.toJson = some one) :
    nullable read (optionJson node) = some node := by
  cases node with
  | none => rfl
  | some node =>
    have hnode := List.forall_mem_singleton.mp h
    obtain ⟨kind, p⟩ := node
    exact nullable_eq Json.noConfusion hnode

theorem listOf_nodes (h : ∀ node ∈ nodes, read node.toJson = some node) :
    listOf read (.arr (itemsJson nodes)) = some nodes := by
  rw [itemsJson_eq_map]
  exact listOf_map h

theorem listOf_slots
    (h : ∀ node ∈ slots.flatMap Option.toList, read node.toJson = some node) :
    listOf (nullable read) (.arr (slotsJson slots)) = some slots := by
  rw [slotsJson_eq_map]
  exact listOf_map fun slot hslot => nullable_node fun node hnode =>
    h node (List.mem_flatMap.mpr ⟨slot, hslot, hnode⟩)

theorem functionWith_functionJson
    (htype : ∀ type ∈ f.returnType.toList, typeExpr type.toJson = some type)
    (hinside : ∀ node ∈ f.params ++ f.body, read node.toJson = some node) :
    functionWith read (functionJson f) = some f := by
  obtain ⟨hparams, hbody⟩ := List.forall_mem_append.mp hinside
  obtain ⟨id, params, body, isAsync, isGenerator, isArrow, returnType, typeParams⟩ := f
  exact reads_then rfl (reads_then (nullable_text id) (reads_then (listOf_nodes hparams)
    (reads_then (listOf_nodes hbody) (reads_then rfl (reads_then rfl (reads_then rfl
      (reads_then (nullable_type htype) (reads_then (texts_ofTexts typeParams) rfl))))))))

theorem enumCaseWith_caseJson {one : EnumCase}
    (hinside : ∀ node ∈ one.rawValue.toList ++ one.associated, read node.toJson = some node) :
    enumCaseWith read (caseJson one) = some one := by
  obtain ⟨hraw, hassoc⟩ := List.forall_mem_append.mp hinside
  obtain ⟨name, rawValue, associated, p⟩ := one
  cases p with
  | none =>
    exact reads_then rfl (reads_then rfl (reads_then (nullable_node hraw)
      (reads_then (listOf_nodes hassoc) (reads_then rfl rfl))))
  | some p =>
    exact reads_then rfl (reads_then rfl (reads_then (nullable_node hraw) (reads_then (listOf_nodes hassoc)
        (reads_then (nullable_eq Json.noConfusion (position_toJson p)) rfl))))

theorem listOf_cases
    (h : ∀ node ∈ cases.flatMap fun one => one.rawValue.toList ++ one.associated,
      read node.toJson = some node) : listOf (enumCaseWith read) (.arr (casesJson cases)) = some cases := by
  rw [casesJson_eq_map]
  exact listOf_map fun one hone => enumCaseWith_caseJson fun node hnode =>
    h node (List.mem_flatMap.mpr ⟨one, hone, hnode⟩)

/-! ## Shapes -/

theorem shape_tag : shape (.tag name content) = some (name, some content) := by
  simp [shape, tag, Json.names, insertName, lookup]

theorem kindWith_tag {name : String} (hname : name ≠ "This") (content : Json) :
    kindWith read (.tag name content) = ((expressionWith read name content).or
      (statementWith read name content)).or (declarationWith read name content) := by
  unfold kindWith
  rw [shape_tag]
  split
  · next heq => cases heq
  · next heq =>
    cases heq
    exact absurd rfl hname
  · next heq =>
    cases heq
    rfl
  · next hno => exact absurd rfl (hno name content)

variable {name : String} {content : Json} {kind : NodeKind}

theorem kindWith_expression (h : expressionWith read name content = some kind) :
    kindWith read (.tag name content) = some kind := by
  have hname : name ≠ "This" := by
    rintro rfl
    cases h
  simp [kindWith_tag hname, h]

theorem kindWith_statement (hskip : expressionWith read name content = none)
    (h : statementWith read name content = some kind) : kindWith read (.tag name content) = some kind := by
  have hname : name ≠ "This" := by
    rintro rfl
    cases h
  simp [kindWith_tag hname, hskip, h]

theorem kindWith_declaration (hskip : expressionWith read name content = none)
    (hskip' : statementWith read name content = none) (h : declarationWith read name content = some kind) :
    kindWith read (.tag name content) = some kind := by
  have hname : name ≠ "This" := by
    rintro rfl
    cases h
  simp [kindWith_tag hname, hskip, hskip', h]

theorem kindWith_kindJson (hown : ∀ x ∈ kind.number?, x.isFinite = true)
    (htypes : ∀ type ∈ kind.types, typeExpr type.toJson = some type)
    (hkey : ∀ key ∈ kind.key?, read key.toJson = some key)
    (hchildren : ∀ child ∈ kind.children, read child.toJson = some child) :
    kindWith read (kindJson kind) = some kind := by
  cases kind with simp only [NodeKind.children, List.forall_mem_cons, List.forall_mem_append,
      List.not_mem_nil, false_implies, implies_true, and_true] at hchildren
  | thisValue => rfl
  | literal value =>
    refine kindWith_expression (reads_then (literal_toJson ?_) rfl)
    rintro x rfl
    exact hown x rfl
  | function f =>
    have hinside := List.forall_mem_append.mpr hchildren
    exact kindWith_expression (reads_then (functionWith_functionJson htypes hinside) rfl)
  | functionDeclaration f =>
    have hinside := List.forall_mem_append.mpr hchildren
    exact kindWith_statement rfl (reads_then (functionWith_functionJson htypes hinside) rfl)
  | methodDefinition key f kind =>
    have hinside := List.forall_mem_append.mpr hchildren
    exact kindWith_declaration rfl rfl (reads_then rfl (reads_then rfl
      (reads_then (functionWith_functionJson htypes hinside) (reads_then (methodKind_name kind) rfl))))
  | interface name params parents members =>
    obtain ⟨hparents, hmembers⟩ := List.forall_mem_append.mp htypes
    have hmembers := List.forall_mem_map.mp hmembers
    exact kindWith_declaration rfl rfl (reads_then rfl (reads_then rfl
      (reads_then (texts_ofTexts params) (reads_then (listOf_types hparents)
        (reads_then (listOf_members hmembers) rfl)))))
  | _ =>
    -- the shape is in one of the groups; its fields are passed by computation, its parts as they are read
    first
    | refine kindWith_declaration rfl rfl ?_
    | refine kindWith_statement rfl ?_
    | refine kindWith_expression ?_
    try casesm* _ ∧ _
    repeat first
      | rfl
      | refine reads_then rfl ?_
      | refine reads_then ‹_› ?_
      | refine reads_then (hkey _ rfl) ?_
      | refine reads_then (listOf_nodes ‹_›) ?_
      | refine reads_then (nullable_node ‹_›) ?_
      | refine reads_then (nullable_text _) ?_
      | refine reads_then (texts_ofTexts _) ?_
      | refine reads_then (nullable_type htypes) ?_
      | refine reads_then (htypes _ (.head _)) ?_
      | refine reads_then (listOf_slots ‹_›) ?_
      | refine reads_then (listOf_cases ‹_›) ?_
      | refine reads_then (unaryOp_name _) ?_
      | refine reads_then (binaryOp_name _) ?_
      | refine reads_then (logicalOp_name _) ?_
      | refine reads_then (variableKind_name _) ?_

theorem nodeWith_toJson (h : kindWith read (kindJson node.kind) = some node.kind) :
    nodeWith read node.toJson = some node := by
  obtain ⟨kind, p⟩ := node
  cases p with
  | none => exact reads_then rfl (reads_then h rfl)
  | some p =>
    exact reads_then rfl (reads_then h (reads_then (nullable_eq Json.noConfusion (position_toJson p)) rfl))

end

/-! ## Whole programs -/

theorem nodeWithin_toJson (h : node.FiniteNumbers) (fuel : Nat)
    (hfuel : node.toJson.depth ≤ fuel) : nodeWithin fuel node.toJson = some node := by
  -- the fuel for the shape is one less than that for the node, and serves for all nodes inside
  induction h generalizing fuel with
  | @intro node own types key children ihkey ihchildren =>
    obtain ⟨kind, p⟩ := node
    simp only [toJson, depth, depthMembers] at hfuel
    cases fuel with
    | zero => omega
    | succ fuel =>
      have hdepth : (kindJson kind).depth ≤ fuel := by omega
      exact nodeWith_toJson (kindWith_kindJson own (fun type htype => typeExpr_toJson (types type htype))
        (fun one hone => ihkey one hone fuel (depth_key hdepth one hone))
        (fun child hchild => ihchildren child hchild fuel (depth_children hdepth child hchild)))

theorem node_toJson (h : node.FiniteNumbers) : Decode.node node.toJson = some node :=
  nodeWithin_toJson h _ (Nat.le_refl _)

theorem program_toJson {program : Program} (h : program.FiniteNumbers) :
    Decode.program program.toJson = some program :=
  reads_then rfl (reads_then (listOf_nodes fun node hnode => node_toJson (h node hnode)) rfl)

theorem injOn_of_reads {α : Type} {read : Json → Option α} {write : α → Json} {s : Set α}
    (h : ∀ a ∈ s, read (write a) = some a) : Set.InjOn write s := by
  intro a ha b hb hab
  have hread : some a = some b := by rw [← h a ha, ← h b hb, hab]
  exact Option.some.inj hread

end Decode

/-- The JSON form loses nothing: types, nodes and programs with finite numbers are read back as they
were, so different ones are written differently. -/
theorem json_form_round_trips :
    (∀ type : TypeExpr, type.FiniteNumbers → Decode.typeExpr type.toJson = some type) ∧
    (∀ node : Node, node.FiniteNumbers → Decode.node node.toJson = some node) ∧
    (∀ program : Program, program.FiniteNumbers → Decode.program program.toJson = some program) ∧
    Set.InjOn TypeExpr.toJson {type | type.FiniteNumbers} ∧
    Set.InjOn toJson {node | node.FiniteNumbers} ∧
    Set.InjOn Program.toJson {program | program.FiniteNumbers} :=
  ⟨fun _ => Decode.typeExpr_toJson, fun _ => Decode.node_toJson, fun _ => Decode.program_toJson,
    Decode.injOn_of_reads fun _ => Decode.typeExpr_toJson,
    Decode.injOn_of_reads fun _ => Decode.node_toJson,
    Decode.injOn_of_reads fun _ => Decode.program_toJson⟩

/-- The literal type `1.5`. -/
def oneAndAHalf : TypeExpr := .literal (.number ⟨0x3FF8000000000000⟩)

/-- `const [x: 1.5, , ...rest] = -0`, at a position in a file. -/
def annotatedPattern : Node :=
  ⟨.variableDeclaration .fixed [of (.variableDeclarator (of (.arrayPattern
        [some (typedIdent "x" (some oneAndAHalf)), none,
          some ⟨.restElement (ident "rest"), some ⟨1, 16, none⟩⟩]))
      (some (number (Binary64.zero true))))],
    some ⟨1, 1, some "main"⟩⟩

/-- A skipped slot, an annotation, a negative zero and positions with and without a file are read back. -/
theorem json_form_round_trips_pattern : oneAndAHalf.FiniteNumbers ∧ annotatedPattern.FiniteNumbers ∧
    Program.FiniteNumbers ⟨[annotatedPattern]⟩ ∧ Decode.typeExpr oneAndAHalf.toJson = some oneAndAHalf ∧
    Decode.node annotatedPattern.toJson = some annotatedPattern ∧
    Decode.program (Program.toJson ⟨[annotatedPattern]⟩) = some ⟨[annotatedPattern]⟩ := by
  have htype : oneAndAHalf.FiniteNumbers := by
    refine ⟨?_, List.forall_mem_nil _⟩
    rintro x ⟨⟩
    decide
  have hzero : (Binary64.zero true).isFinite = true := by decide
  have hnode : annotatedPattern.FiniteNumbers := by
    simp [annotatedPattern, of, typedIdent, ident, Node.number, literal,
      NodeKind.number?, NodeKind.types, NodeKind.key?, NodeKind.children, finiteNumbers_mk,
      htype, hzero]
  have hprogram : Program.FiniteNumbers ⟨[annotatedPattern]⟩ := List.forall_mem_singleton.mpr hnode
  obtain ⟨types, nodes, programs, -⟩ := json_form_round_trips
  exact ⟨htype, hnode, hprogram, types _ htype, nodes _ hnode, programs _ hprogram⟩

end LispLowering
