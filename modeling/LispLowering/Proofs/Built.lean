import LispLowering.Lowering.Loop
import LispLowering.Proofs.Slots

/-!
# Nodes put together from nodes
-/

namespace LispLowering

open List NodeKind

variable {rest : List (Slot × Node)} {F : Node → Prop}

/-! ## Leaves -/

/-- What a node is put together from: values, nodes of any sort, functions, and the marks of the nodes
around them. -/
inductive Leaf where
  | value (n : Node)
  | node (n : Node)
  | function (f : Function)
  | mark (mark : Mark)

/-- A node that only holds other nodes fits into the slot: it defines no function, it guards no block and
has no mark. -/
def Slot.holds (slot : Slot) (node : Node) : Bool :=
  slot.admits node && node.kind.isBalanced && node.kind.definition?.isNone &&
    node.kind.guarded?.isNone && node.kind.marks.isEmpty

mutual

/-- The node fits into the slot and is put together from the leaves. -/
inductive Built : List Leaf → Slot → Node → Prop where
  | value (node : Node) : Built [.value node] .expression node
  | node (node : Node) : Built [.node node] .any node
  | define {f : Function} {slot : Slot} {node : Node} : slot.admits node = true →
      node.kind.definition? = some f → Built [.function f] slot node
  | make {leaves : List Leaf} {slot : Slot} {node : Node} : slot.admits node = true →
      node.kind.isBalanced = true → node.kind.definition? = none → node.kind.guarded? = none →
      BuiltAll leaves node.kind.slots → Built (leaves ++ node.kind.marks.map .mark) slot node
  /-- A node of any sort fits into the slots that admit it. -/
  | narrow {leaves : List Leaf} {slot : Slot} {node : Node} : slot.admits node = true →
      Built leaves .any node → Built leaves slot node
  | widen {leaves : List Leaf} {slot : Slot} {node : Node} :
      Built leaves slot node → Built leaves .any node
  /-- The position does not matter. -/
  | move {leaves : List Leaf} {slot : Slot} {node node' : Node} : node'.kind = node.kind →
      Built leaves slot node → Built leaves slot node'
  /-- The order of the leaves does not matter, and a leaf may be used again. -/
  | regroup {leaves leaves' : List Leaf} {slot : Slot} {node : Node} :
      (∀ leaf, leaf ∈ leaves' ↔ leaf ∈ leaves) → Built leaves slot node → Built leaves' slot node

/-- The nodes fit into their slots and are put together from the leaves. -/
inductive BuiltAll : List Leaf → List (Slot × Node) → Prop where
  | nil : BuiltAll [] []
  | cons {leaves leaves' : List Leaf} {slot : Slot} {node : Node} {rest : List (Slot × Node)} :
      Built leaves slot node → BuiltAll leaves' rest →
      BuiltAll (leaves ++ leaves') ((slot, node) :: rest)
  | regroup {leaves leaves' : List Leaf} {held : List (Slot × Node)} :
      (∀ leaf, leaf ∈ leaves' ↔ leaf ∈ leaves) → BuiltAll leaves held → BuiltAll leaves' held

end

namespace BuiltAll

variable {leaves : List Leaf} {slot : Slot} {node : Node}

theorem one (h : Built leaves slot node) : BuiltAll leaves [(slot, node)] := by
  simpa using BuiltAll.cons h .nil

theorem before (h : Built leaves slot node) (hrest : BuiltAll [] rest) :
    BuiltAll leaves ((slot, node) :: rest) := by
  simpa using BuiltAll.cons h hrest

theorem skip (h : Built [] slot node) (hrest : BuiltAll leaves rest) :
    BuiltAll leaves ((slot, node) :: rest) := by
  simpa using BuiltAll.cons h hrest

theorem eq_nil {leaves : List Leaf} {held : List (Slot × Node)} (h : BuiltAll leaves held)
    (hheld : held = []) : leaves = [] := by
  match h with
  | .nil => rfl
  | .cons _ _ => cases hheld
  | .regroup hmem hinner =>
    rw [eq_nil hinner hheld] at hmem
    exact eq_nil_iff_forall_not_mem.mpr fun leaf hleaf => not_mem_nil ((hmem leaf).mp hleaf)

theorem single {leaves : List Leaf} {held : List (Slot × Node)} {slot : Slot} {node : Node}
    (h : BuiltAll leaves held) (hheld : held = [(slot, node)]) : Built leaves slot node := by
  match h with
  | .nil => cases hheld
  | .cons hfirst hrest =>
    cases hheld
    rwa [eq_nil hrest rfl, append_nil]
  | .regroup hmem hinner => exact .regroup hmem (single hinner hheld)

theorem uncons {leaves : List Leaf} {held : List (Slot × Node)} {slot : Slot} {node : Node}
    (h : BuiltAll leaves held) (hheld : held = (slot, node) :: rest) : ∃ leaves₁ leaves₂,
      (∀ leaf, leaf ∈ leaves ↔ leaf ∈ leaves₁ ++ leaves₂) ∧ Built leaves₁ slot node ∧
        BuiltAll leaves₂ rest := by
  match h with
  | .nil => cases hheld
  | .cons hfirst hrest =>
    cases hheld
    exact ⟨_, _, fun _ => Iff.rfl, hfirst, hrest⟩
  | .regroup hmem hinner =>
    obtain ⟨leaves₁, leaves₂, hmem', hfirst, hrest⟩ := uncons hinner hheld
    exact ⟨leaves₁, leaves₂, fun leaf => (hmem leaf).trans (hmem' leaf), hfirst, hrest⟩

theorem append {leaves leaves' : List Leaf} {held held' : List (Slot × Node)}
    (h : BuiltAll leaves held) (h' : BuiltAll leaves' held') :
    BuiltAll (leaves ++ leaves') (held ++ held') := by
  match h with
  | .nil => exact h'
  | .cons hfirst hrest =>
    rw [append_assoc]
    exact .cons hfirst (append hrest h')
  | .regroup hmem hinner =>
    refine .regroup (fun _ => ?_) (append hinner h')
    simp only [mem_append, hmem]

theorem nodes {slot : Slot} {nodes : List Node} (h : ∀ n ∈ nodes, slot.admits n = true) :
    BuiltAll (nodes.map .node) (slot.all nodes) := by
  induction nodes with
  | nil => exact .nil
  | cons node rest ih =>
    rw [forall_mem_cons] at h
    exact .cons (.narrow h.1 (.node node)) (ih h.2)

end BuiltAll

variable {leaves : List Leaf} {slot : Slot} {node node' : Node}

theorem Built.hold (h : slot.holds node = true) (hslots : BuiltAll leaves node.kind.slots) :
    Built leaves slot node := by
  simp only [Slot.holds, Bool.and_eq_true, Option.isNone_iff_eq_none, List.isEmpty_iff] at h
  obtain ⟨⟨⟨⟨hadmits, hbalanced⟩, hdefn⟩, hguarded⟩, hmarks⟩ := h
  simpa [hmarks] using Built.make hadmits hbalanced hdefn hguarded hslots

theorem NodeKind.guarded?_of_marks {kind : NodeKind} (h : kind.marks ≠ []) : kind.guarded? = none := by
  unfold guarded?
  split
  · exact absurd rfl h
  · rfl

theorem Built.marked {mark : Mark} (hmarks : node.kind.marks = [mark])
    (hadmits : slot.admits node = true) (hbalanced : node.kind.isBalanced = true)
    (hdefn : node.kind.definition? = none) (hslots : BuiltAll leaves node.kind.slots) :
    Built (leaves ++ [.mark mark]) slot node := by
  have hguarded := guarded?_of_marks (hmarks ▸ cons_ne_nil mark [])
  simpa [hmarks] using Built.make hadmits hbalanced hdefn hguarded hslots

/-! ## Sorts -/

/-- What is needed of a leaf for the node to be well-sorted: a value is no statement. -/
def Leaf.WellSorted : Leaf → Prop
  | .value n => Slot.expression.Fits n
  | .node n => LispLowering.WellSorted n
  | .function f => AllFit f.slots
  | .mark _ => True

theorem NodeKind.of_definition? {kind : NodeKind} {f : Function} (h : kind.definition? = some f) :
    kind.slots = [] ∧ kind.marks = [] ∧ kind.guarded? = none ∧ kind.isBalanced = true := by
  unfold definition? at h
  split at h
  · exact ⟨rfl, rfl, rfl, rfl⟩
  · exact ⟨rfl, rfl, rfl, rfl⟩
  · exact ⟨rfl, rfl, rfl, rfl⟩
  · cases h

theorem WellSorted.move (hkind : node'.kind = node.kind) (h : WellSorted node) : WellSorted node' := by
  obtain ⟨balanced, admitted, slots, admittedIn, definition⟩ := h
  rw [← hkind] at balanced admitted slots admittedIn definition
  exact ⟨balanced, admitted, slots, admittedIn, definition⟩

theorem Slot.admits_move (hkind : node'.kind = node.kind) : slot.admits node' = slot.admits node := by
  cases slot <;> simp only [Slot.admits, Node.isStatement, hkind]

mutual

theorem Built.wellSorted {leaves : List Leaf} {slot : Slot} {node : Node}
    (h : Built leaves slot node) (hleaves : ∀ leaf ∈ leaves, leaf.WellSorted) : slot.Fits node := by
  match h with
  | .value node => exact hleaves (.value node) (by simp)
  | .node node => exact ⟨rfl, hleaves (.node node) (by simp)⟩
  | .define (f := f) hadmits hdefn =>
    have hf := hleaves (.function f) (by simp)
    obtain ⟨hslots, -, -, hbalanced⟩ := of_definition? hdefn
    refine ⟨hadmits, hbalanced, by simp [hslots], by simp [hslots], ?_, ?_⟩
    · intro g hg held hheld
      cases hdefn.symm.trans hg
      exact (hf held hheld).admits
    · intro g hg held hheld
      cases hdefn.symm.trans hg
      exact (hf held hheld).sorted
  | .make hadmits hbalanced hdefn _ hslots =>
    have hheld := hslots.wellSorted fun leaf hleaf => hleaves leaf (mem_append_left _ hleaf)
    exact ⟨hadmits, .hold hbalanced hdefn hheld⟩
  | .narrow hadmits hinner => exact ⟨hadmits, (hinner.wellSorted hleaves).sorted⟩
  | .widen hinner => exact ⟨rfl, (hinner.wellSorted hleaves).sorted⟩
  | .move hkind hinner =>
    obtain ⟨hadmits, hsorted⟩ := hinner.wellSorted hleaves
    exact ⟨by rw [Slot.admits_move hkind, hadmits], hsorted.move hkind⟩
  | .regroup hmem hinner => exact hinner.wellSorted fun leaf hleaf => hleaves leaf ((hmem leaf).mpr hleaf)

theorem BuiltAll.wellSorted {leaves : List Leaf} {held : List (Slot × Node)}
    (h : BuiltAll leaves held) (hleaves : ∀ leaf ∈ leaves, leaf.WellSorted) : AllFit held := by
  match h with
  | .nil => exact .nil
  | .cons hfirst hrest =>
    rw [forall_mem_append] at hleaves
    exact AllFit.cons_iff.mpr ⟨hfirst.wellSorted hleaves.1, hrest.wellSorted hleaves.2⟩
  | .regroup hmem hinner => exact hinner.wellSorted fun leaf hleaf => hleaves leaf ((hmem leaf).mpr hleaf)

end

/-! ## Searches -/

def Search.At {F : Node → Prop} (S : Search F) : Leaf → Prop
  | .value n => F n
  | .node n => F n
  | .function f => S.within f
  | .mark mark => S.marks mark

theorem Search.move (S : Search F) (hkind : node'.kind = node.kind) : F node' ↔ F node := by
  rw [S.iff, S.iff, hkind]

mutual

theorem Built.found_iff {leaves : List Leaf} {slot : Slot} {node : Node}
    (S : Search F) (h : Built leaves slot node) : F node ↔ ∃ leaf ∈ leaves, S.At leaf := by
  match h with
  | .value node => simp [Search.At]
  | .node node => simp [Search.At]
  | .define (f := f) _ hdefn =>
    obtain ⟨hslots, hmarks, hguarded, -⟩ := of_definition? hdefn
    rw [S.iff, hslots, hmarks, hguarded, hdefn]
    simp [Search.At]
  | .make _ _ hdefn hguarded hslots =>
    rw [S.iff, hdefn, hguarded, hslots.found_iff S]
    constructor
    · rintro (⟨mark, hmark, hfound⟩ | ⟨_, hnone, -⟩ | ⟨leaf, hleaf, hfound⟩ | ⟨f, hf, -⟩)
      · exact ⟨.mark mark, mem_append_right _ (mem_map_of_mem hmark), hfound⟩
      · cases hnone
      · exact ⟨leaf, mem_append_left _ hleaf, hfound⟩
      · cases hf
    · rintro ⟨leaf, hleaf, hfound⟩
      rcases mem_append.mp hleaf with hleaf | hleaf
      · exact .inr (.inr (.inl ⟨leaf, hleaf, hfound⟩))
      · obtain ⟨mark, hmark, rfl⟩ := mem_map.mp hleaf
        exact .inl ⟨mark, hmark, hfound⟩
  | .narrow _ hinner => exact hinner.found_iff S
  | .widen hinner => exact hinner.found_iff S
  | .move hkind hinner => exact (S.move hkind).trans (hinner.found_iff S)
  | .regroup hmem hinner => simp only [hinner.found_iff S, hmem]

theorem BuiltAll.found_iff {leaves : List Leaf} {held : List (Slot × Node)}
    (S : Search F) (h : BuiltAll leaves held) : (∃ one ∈ held, F one.2) ↔ ∃ leaf ∈ leaves, S.At leaf := by
  match h with
  | .nil => simp
  | .cons hfirst hrest =>
    rw [exists_mem_cons_iff, hfirst.found_iff S, hrest.found_iff S]
    simp only [mem_append, or_and_right, exists_or]
  | .regroup hmem hinner => simp only [hinner.found_iff S, hmem]

end

def Scan.FindsAt (scan : Scan) : Leaf → Prop
  | .value n => scan.Finds n
  | .node n => scan.Finds n
  | .function f => scan.FindsIn f
  | .mark mark => scan.marks mark

theorem Scan.search_at (scan : Scan) (leaf : Leaf) : scan.search.At leaf ↔ scan.FindsAt leaf := by
  cases leaf <;> exact Iff.rfl

theorem Built.finds_iff (scan : Scan) (h : Built leaves slot node) :
    scan.Finds node ↔ ∃ leaf ∈ leaves, scan.FindsAt leaf := by
  simpa only [scan.search_at] using h.found_iff scan.search

theorem BuiltAll.finds_iff {held : List (Slot × Node)} (scan : Scan) (h : BuiltAll leaves held) :
    scan.FindsAmong held ↔ ∃ leaf ∈ leaves, scan.FindsAt leaf := by
  simpa only [scan.search_at, Scan.FindsAmong] using h.found_iff scan.search

/-! ## Nodes that forms share -/

namespace Built

variable {leaves leaves' : List Leaf} {slot : Slot} {node : Node}

theorem place (h : Built leaves slot node) (p : Option Position) : Built leaves slot (node.place p) :=
  have hkind : (node.place p).kind = node.kind := rfl
  .move hkind h

theorem orPlace (h : Built leaves slot node) (p : Option Position) : Built leaves slot (node.orPlace p) :=
  have hkind : (node.orPlace p).kind = node.kind := rfl
  .move hkind h

theorem asStatement (h : Built leaves .any node) : Built leaves .statement node.asStatement := by
  unfold Node.asStatement
  split
  · next hstmt => exact .narrow hstmt h
  · next hexpr =>
    exact .hold rfl (.one (.narrow (by simp [Slot.admits, hexpr]) h))

theorem ident (name : String) : Built [] .expression (Node.ident name) := .hold rfl .nil

theorem string (value : String) : Built [] .expression (Node.string value) := .hold rfl .nil

theorem number (value : Binary64) : Built [] .expression (Node.number value) := .hold rfl .nil

theorem undefined : Built [] .expression Node.undefined := ident _

theorem bool (value : Bool) : Built [] .expression (Node.bool value) := .hold rfl .nil

section

variable (h : Built leaves .expression node)

include h

theorem member (key : String) : Built leaves .expression (Node.member node key) :=
  .hold rfl (.before h (.one (ident key)))

theorem index {key : Node} (hkey : Built leaves' .expression key) :
    Built (leaves ++ leaves') .expression (Node.index node key) :=
  .hold rfl (.cons h (.one hkey))

theorem call {arguments : List Node} (hgiven : BuiltAll leaves' (Slot.expression.all arguments)) :
    Built (leaves ++ leaves') .expression (Node.call node arguments) :=
  .hold rfl (.cons h hgiven)

theorem returned (p : Option Position) :
    Built (leaves ++ [.mark .returns]) .statement ⟨.returnStatement (some node), p⟩ :=
  .marked rfl rfl rfl rfl (.one h)

end

theorem getD {found : Option Node} (h : BuiltAll leaves (slot.all found.toList))
    (hnode : Built [] slot node) : Built leaves slot (found.getD node) := by
  cases found with
  | none =>
    rw [h.eq_nil rfl]
    exact hnode
  | some found => exact h.single rfl

theorem keyed (h : Built leaves .expression node) (key : String)
    (hslot : slot = .entry ∨ slot = .patternEntry) : Built leaves slot (Node.keyed key node) := by
  have hkey : Built [] .expression
      ((if Node.isPropertyName key then Node.ident key else Node.string key).place node.position) := by
    split
    · exact (ident key).place _
    · exact (string key).place _
  rcases hslot with rfl | rfl
  · exact .hold rfl (.cons hkey (.one h))
  · exact .hold rfl (.cons hkey (.one h))

end Built

theorem BuiltAll.appendAll {slot : Slot} {nodes nodes' : List Node} {leaves leaves' : List Leaf}
    (h : BuiltAll leaves (slot.all nodes)) (h' : BuiltAll leaves' (slot.all nodes')) :
    BuiltAll (leaves ++ leaves') (slot.all (nodes ++ nodes')) := by
  rw [Slot.all_append]
  exact h.append h'

end LispLowering
