import LispLowering.Proofs.Composition.Traversal
import LispLowering.Proofs.Provenance.Reading

/-!
# Quasiquotation by depth
-/

namespace LispLowering

open Lowering Node

/-! ## Data -/

/-- The tree is a list of two that asks for the value of the second. -/
def SExpr.isUnquoting : SExpr → Bool
  | .list [head, _] _ => head.isSymbol "unquote" || head.isSymbol "unquote-splicing"
  | _ => false

/-- No tree inside asks for a value. -/
def SExpr.IsData (t : SExpr) : Prop := ∀ u ∈ t.subtrees, u.isUnquoting = false

instance (t : SExpr) : Decidable t.IsData :=
  inferInstanceAs (Decidable (∀ u ∈ t.subtrees, u.isUnquoting = false))

namespace Lowering

variable {lower : Lowerer}

theorem spliced?_of_not_unquoting {t : SExpr} (h : t.isUnquoting = false) : spliced? t = none := by
  unfold spliced?
  split
  · exact if_neg (by simp_all [SExpr.isUnquoting])
  · rfl

mutual

theorem quasi_data (lower : Lowerer) (depth : Nat) : (t : SExpr) → t.IsData →
    quasi lower depth t = pure (quoted t)
  | .symbol _ _, _ | .literal _ _, _ => rfl
  | .list items p, h => by
    have hdata : ∀ item ∈ items, item.IsData := fun _ hitem u hu =>
      h u (SExpr.mem_subtrees_item hitem hu p)
    have hitems := quasiItems_data lower depth items hdata
    match items with
    | [head, tree] =>
      have hmark := h _ (SExpr.mem_subtrees_self _)
      simp only [SExpr.isUnquoting, Bool.or_eq_false_iff] at hmark
      have htree := quasi_data lower (depth + 1) tree (hdata tree (by simp))
      simp only [quasi, QuoteMark.ofHead, hmark.1, hmark.2]
      cases head.isSymbol "quasiquote" with
      | true => simp [htree, quoted, quotedItems]
      | false => simp [hitems, quoted]
    | [] | [_] | _ :: _ :: _ :: _ => simp [quasi, hitems, quoted]

theorem quasiItems_data (lower : Lowerer) (depth : Nat) : (items : List SExpr) →
    (∀ item ∈ items, item.IsData) → quasiItems lower depth items = pure (quotedItems items)
  | [], _ => rfl
  | item :: rest, h => by
    obtain ⟨hitem, hrest⟩ := List.forall_mem_cons.mp h
    have hspliced := spliced?_of_not_unquoting (hitem item item.mem_subtrees_self)
    simp [quasiItems, hspliced, quasi_data lower depth item hitem, quasiItems_data lower depth rest hrest,
      quotedItems]

end

end Lowering

/-- A quasiquotation without unquotes is lowered like the quotation of the same tree, at every place and in
every state, and it leaves the state as it is. -/
theorem quasiquote_eq_quote (t : SExpr) (h : t.IsData) (c : Context) (p q q' : Option Position) :
    Lowering.lower (.list [.symbol "quasiquote" q, t] p) c = .ok (some ((quoted t).orPlace p)) c ∧
      Lowering.lower (.list [.symbol "quote" q', t] p) c = .ok (some ((quoted t).orPlace p)) c := by
  refine ⟨lower_special rfl ?_, lower_special rfl rfl⟩
  show quasi Lowering.lower 1 t c = _
  rw [quasi_data Lowering.lower 1 t h]
  rfl

/-- A quasiquotation inside, and an unquote of two trees. -/
theorem quasiquote_eq_quote_nested :
    let t : SExpr := .list [.list [.symbol "quasiquote" none, .symbol "a" none] none,
      .list [.symbol "unquote" none, .symbol "b" none, .symbol "c" none] none] none
    t.IsData ∧ Lowering.lower (.list [.symbol "quasiquote" none, t] none) (.start "" {}) =
      Lowering.lower (.list [.symbol "quote" none, t] none) (.start "" {}) := by
  intro t
  have h : t.IsData := by decide
  obtain ⟨hquasi, hquote⟩ := quasiquote_eq_quote t h (.start "" {}) none none none
  exact ⟨h, hquasi.trans hquote.symm⟩

/-! ## Depths -/

/-- The depth of the second tree in a list of two that is not evaluated, given what the first one means and the
depth of the list. In a splice it may be less or not. -/
def innerDepth? (sinks : Bool) : QuoteMark → Nat → Option Nat
  | .quasiquote, depth => some (depth + 1)
  | .unquote, depth + 2 => some (depth + 1)
  | .splice, depth + 2 => some (if sinks then depth + 1 else depth + 2)
  | _, _ => none

mutual

/-- A tree in a template, its depth and the state in which it is lowered, the node that it is lowered to and
the state that is left. Data is quoted, list by list. -/
inductive Quotes (sinks : Bool) : Nat → SExpr → Context → Node → Context → Prop where
  | symbol (depth : Nat) (name : String) (p : Option Position) (c : Context) :
      Quotes sinks depth (.symbol name p) c ((string name).place p) c
  | literal (depth : Nat) (value : Literal) (p : Option Position) (c : Context) :
      Quotes sinks depth (.literal value p) c ((literal value).place p) c
  /-- The argument of an unquote at depth one is evaluated. -/
  | value {head tree : SExpr} {p : Option Position} {c d : Context} {node : Node} :
      QuoteMark.ofHead head = .unquote → lowerValue Lowering.lower tree c = .ok node d →
      Quotes sinks 1 (.list [head, tree] p) c node d
  | inner {depth inner : Nat} {head tree : SExpr} {p : Option Position} {c d : Context} {node : Node} :
      innerDepth? sinks (QuoteMark.ofHead head) depth = some inner → Quotes sinks inner tree c node d →
      Quotes sinks depth (.list [head, tree] p) c ((array [quoted head, node]).place p) d
  | list {depth : Nat} {items : List SExpr} {p : Option Position} {c d : Context} {nodes : List Node} :
      (∀ head tree, items = [head, tree] → QuoteMark.ofHead head = .none) →
      QuotesIn sinks depth items c nodes d →
      Quotes sinks depth (.list items p) c ((array nodes).place p) d

/-- The trees of a list, one after another. -/
inductive QuotesIn (sinks : Bool) : Nat → List SExpr → Context → List Node → Context → Prop where
  | nil (depth : Nat) (c : Context) : QuotesIn sinks depth [] c [] c
  /-- The argument of a splice at depth one is evaluated, and its elements are put in. -/
  | spread {head tree : SExpr} {p : Option Position} {items : List SExpr} {c c' d : Context} {node : Node}
      {nodes : List Node} : QuoteMark.ofHead head = .splice → lowerValue Lowering.lower tree c = .ok node c' →
      QuotesIn sinks 1 items c' nodes d →
      QuotesIn sinks 1 (.list [head, tree] p :: items) c (⟨.spread node, p⟩ :: nodes) d
  | cons {depth : Nat} {tree : SExpr} {items : List SExpr} {c c' d : Context} {node : Node}
      {nodes : List Node} : Quotes sinks depth tree c node c' → QuotesIn sinks depth items c' nodes d →
      QuotesIn sinks depth (tree :: items) c (node :: nodes) d

end

variable {sinks : Bool} {depth : Nat} {head tree : SExpr} {p : Option Position} {c d : Context} {node : Node}

theorem quotes_pair_iff : Quotes sinks depth (.list [head, tree] p) c node d ↔
    (QuoteMark.ofHead head = .unquote ∧ depth = 1 ∧ lowerValue Lowering.lower tree c = .ok node d) ∨
    (∃ inner, innerDepth? sinks (QuoteMark.ofHead head) depth = some inner ∧
      ∃ value, Quotes sinks inner tree c value d ∧ (array [quoted head, value]).place p = node) ∨
    (QuoteMark.ofHead head = .none ∧ ∃ nodes, QuotesIn sinks depth [head, tree] c nodes d ∧
      (array nodes).place p = node) := by
  constructor
  · intro h
    cases h with
    | value hhead hvalue => exact .inl ⟨hhead, rfl, hvalue⟩
    | inner hinner hvalue => exact .inr (.inl ⟨_, hinner, _, hvalue, rfl⟩)
    | list hhead hnodes => exact .inr (.inr ⟨hhead _ _ rfl, _, hnodes, rfl⟩)
  · rintro (⟨hhead, rfl, hvalue⟩ | ⟨inner, hinner, value, hvalue, rfl⟩ | ⟨hhead, nodes, hnodes, rfl⟩)
    · exact .value hhead hvalue
    · exact .inner hinner hvalue
    · exact .list (by rintro _ _ ⟨⟩; exact hhead) hnodes

namespace SExpr

mutual

/-- Every splice below depth one has data as its argument. -/
def Settled (depth : Nat) : SExpr → Prop
  | .list [head, tree] _ =>
    match QuoteMark.ofHead head with
    | .unquote => depth = 1 ∨ tree.Settled (depth - 1)
    | .quasiquote => tree.Settled (depth + 1)
    | .splice => depth = 1 ∨ tree.IsData
    | .none => SettledIn depth [head, tree]
  | .list items _ => SettledIn depth items
  | _ => True

/-- Every splice below depth one in the trees has data as its argument. -/
def SettledIn (depth : Nat) : List SExpr → Prop
  | [] => True
  | item :: rest => item.Settled depth ∧ SettledIn depth rest

end

mutual

theorem IsData.settled : {t : SExpr} → t.IsData → (depth : Nat) → t.Settled depth
  | .symbol _ _, _, _ | .literal _ _, _, _ => trivial
  | .list items p, h, depth => by
    have hdata : ∀ item ∈ items, item.IsData := fun _ hitem u hu => h u (mem_subtrees_item hitem hu p)
    have hitems := settledIn_of_data hdata depth
    match items with
    | [head, tree] =>
      have hmark := h _ (mem_subtrees_self _)
      simp only [isUnquoting, Bool.or_eq_false_iff] at hmark
      have htree := (hdata tree (by simp)).settled (depth + 1)
      unfold Settled QuoteMark.ofHead
      cases head.isSymbol "quasiquote" <;> simp_all
    | [] | [_] | _ :: _ :: _ :: _ => exact hitems

theorem settledIn_of_data : {items : List SExpr} → (∀ item ∈ items, item.IsData) → (depth : Nat) →
    SettledIn depth items
  | [], _, _ => trivial
  | _ :: _, h, depth =>
    ⟨(h _ (.head _)).settled depth, settledIn_of_data (fun _ hitem => h _ (.tail _ hitem)) depth⟩

end

end SExpr

namespace Lowering

theorem map_ok_iff {α β : Type} {f : α → β} {m : Lower α} {b : β} :
    (f <$> m) c = .ok b d ↔ ∃ a, m c = .ok a d ∧ f a = b := by
  simp only [Functor.map, EStateM.map]
  cases m c <;> simp [and_comm]

theorem spliced?_eq_some {t : SExpr} :
    spliced? t = some tree ↔ ∃ head p, t = .list [head, tree] p ∧ QuoteMark.ofHead head = .splice := by
  have hmark : ∀ head : SExpr, head.isSymbol "unquote-splicing" ↔ QuoteMark.ofHead head = .splice := by
    intro head
    unfold QuoteMark.ofHead
    split_ifs <;> simp_all [SExpr.isSymbol]
  unfold spliced?
  split
  · simp [hmark, and_comm]
  · next h =>
    simp only [reduceCtorEq, false_iff]
    rintro ⟨head, p, rfl, -⟩
    exact h head tree p rfl

mutual

theorem quasi_ok_iff : (depth : Nat) → (t : SExpr) → (sinks = true → t.Settled (depth + 1)) →
    ∀ (c d : Context) (node : Node),
      quasi lower (depth + 1) t c = .ok node d ↔ Quotes sinks (depth + 1) t c node d
  | depth, .symbol _ _, _, _, _, _ | depth, .literal _ _, _, _, _, _ => by
    constructor
    · intro h
      obtain ⟨rfl, rfl⟩ := pure_ok h
      constructor
    · intro h
      cases h
      rfl
  | depth, .list items p, h, c, d, node => by
    match items with
    | [head, tree] =>
      rw [quotes_pair_iff]
      cases hmark : QuoteMark.ofHead head with
      | none =>
        have hitems := quasiItems_ok_iff depth [head, tree] (by simpa [SExpr.Settled, hmark] using h)
        simp [quasi, hmark, map_ok_iff, hitems, innerDepth?]
      | quasiquote =>
        have htree := quasi_ok_iff (depth + 1) tree (by simpa [SExpr.Settled, hmark] using h)
        simp [quasi, hmark, map_ok_iff, htree, innerDepth?]
      | unquote =>
        obtain _ | depth := depth
        · simp [quasi, hmark, innerDepth?]
        · have htree := quasi_ok_iff depth tree (by simpa [SExpr.Settled, hmark] using h)
          simp [quasi, hmark, map_ok_iff, htree, innerDepth?]
      | splice =>
        obtain _ | depth := depth
        · simp [quasi, hmark, innerDepth?, Lower.refuse]
        -- inside another quotation a splice is quoted like a list, and does not lower the depth
        have hsplice : quasi lower (depth + 2) (.list [head, tree] p) =
            do return (array [quoted head, ← quasi lower (depth + 2) tree]).place p := by
          match head with
          | .symbol name q => simp [quasi, hmark, quasiItems]
          | .literal _ _ | .list _ _ => cases hmark
        by_cases hsinks : sinks = true
        · have hdata : tree.IsData := by simpa [SExpr.Settled, hmark] using h hsinks
          have htree := quasi_ok_iff depth tree fun _ => hdata.settled _
          rw [quasi_data lower _ tree hdata, ← quasi_data lower (depth + 1) tree hdata] at hsplice
          simp [hsplice, map_ok_iff, htree, innerDepth?, hsinks]
        · have htree := quasi_ok_iff (depth + 1) tree (absurd · hsinks)
          simp [hsplice, map_ok_iff, htree, innerDepth?, hsinks]
    | [] | [_] | _ :: _ :: _ :: _ =>
      have hitems := quasiItems_ok_iff depth _ h
      simp only [quasi, bind_pure_comp, map_ok_iff, hitems]
      constructor
      · rintro ⟨nodes, hnodes, rfl⟩
        exact .list (by simp) hnodes
      · intro h
        cases h with
        | list _ hnodes => exact ⟨_, hnodes, rfl⟩

theorem quasiItems_ok_iff : (depth : Nat) → (items : List SExpr) →
    (sinks = true → SExpr.SettledIn (depth + 1) items) → ∀ (c d : Context) (nodes : List Node),
      quasiItems lower (depth + 1) items c = .ok nodes d ↔ QuotesIn sinks (depth + 1) items c nodes d
  | depth, [], _, _, _, _ => by
    constructor
    · intro h
      obtain ⟨rfl, rfl⟩ := pure_ok h
      constructor
    · intro h
      cases h
      rfl
  | depth, item :: rest, h, c, d, nodes => by
    have hitem := quasi_ok_iff depth item fun hsinks => (h hsinks).1
    have hrest := quasiItems_ok_iff depth rest fun hsinks => (h hsinks).2
    by_cases hspread : depth = 0 ∧ (spliced? item).isSome
    · obtain ⟨rfl, hsome⟩ := hspread
      obtain ⟨tree, htree⟩ := Option.isSome_iff_exists.mp hsome
      obtain ⟨head, p, rfl, hmark⟩ := spliced?_eq_some.mp htree
      simp only [quasiItems, htree, pure_bind, bind_pure_comp, bind_ok_iff, map_ok_iff, hrest]
      constructor
      · rintro ⟨value, c', hvalue, nodes, hnodes, rfl⟩
        exact .spread hmark hvalue hnodes
      · intro h
        cases h with
        | spread _ hvalue hnodes => exact ⟨_, _, hvalue, _, hnodes, rfl⟩
        | cons hsplice _ => simp [quotes_pair_iff, hmark, innerDepth?] at hsplice
    · have hitems : quasiItems lower (depth + 1) (item :: rest) =
          do return (← quasi lower (depth + 1) item) :: (← quasiItems lower (depth + 1) rest) := by
        simp only [quasiItems]
        split
        · simp_all
        · rfl
      simp only [hitems, bind_pure_comp, bind_ok_iff, map_ok_iff, hitem, hrest]
      constructor
      · rintro ⟨node, c', hnode, nodes, hnodes, rfl⟩
        exact .cons hnode hnodes
      · intro h
        cases h with
        | spread hmark _ _ => exact absurd ⟨rfl, by simp [spliced?_eq_some.mpr ⟨_, _, rfl, hmark⟩]⟩ hspread
        | cons hnode hnodes => exact ⟨_, _, hnode, _, hnodes, rfl⟩

end

end Lowering

/-- What a quasiquotation is lowered to is what the rules tell of its template: exactly the unquotes and splices
at depth one are evaluated, and the rest is data. The argument of a splice below depth one is as deep as the
splice. Where such arguments are data, the splice may as well count like an unquote. -/
theorem quasiquote_by_depth (t : SExpr) (p q : Option Position) (c d : Context) (lowered : Option Node) :
    (Lowering.lower (.list [.symbol "quasiquote" q, t] p) c = .ok lowered d ↔
      ∃ node, Quotes false 1 t c node d ∧ lowered = some (node.orPlace p)) ∧
    (t.Settled 1 → (Lowering.lower (.list [.symbol "quasiquote" q, t] p) c = .ok lowered d ↔
      ∃ node, Quotes true 1 t c node d ∧ lowered = some (node.orPlace p))) := by
  have hlower : Lowering.lower (.list [.symbol "quasiquote" q, t] p) c = .ok lowered d ↔
      ∃ node, quasi Lowering.lower 1 t c = .ok node d ∧ lowered = some (node.orPlace p) := by
    constructor
    · intro h
      exact lower_special_ok rfl h
    · rintro ⟨node, hnode, rfl⟩
      exact lower_special rfl hnode
  have hrules (sinks : Bool) (h : sinks = true → t.Settled 1) :
      (∃ node, quasi Lowering.lower 1 t c = .ok node d ∧ lowered = some (node.orPlace p)) ↔
        ∃ node, Quotes sinks 1 t c node d ∧ lowered = some (node.orPlace p) :=
    exists_congr fun node => and_congr_left' (quasi_ok_iff 0 t h c d node)
  exact ⟨hlower.trans (hrules false (by simp)), fun h => hlower.trans (hrules true fun _ => h)⟩

/-- A splice at depth one and a splice at depth two. -/
theorem quasiquote_by_depth_splices :
    let xs : SExpr := .list [.symbol "unquote-splicing" none, .symbol "xs" none] none
    let t : SExpr := .list [xs, .list [.symbol "quasiquote" none, .list [xs] none] none] none
    t.Settled 1 ∧ Lowering.lower (.list [.symbol "quasiquote" none, t] none) (.start "" {}) =
      .ok (some (.array [⟨.spread (.ident "xs"), none⟩, .array [.string "quasiquote",
        .array [.array [.string "unquote-splicing", .string "xs"]]]])) (.start "" {}) := by
  intro xs t
  have hdata : SExpr.IsData (.symbol "xs" none) := by decide
  have h : t.Settled 1 := ⟨.inl rfl, ⟨.inr hdata, trivial⟩, trivial⟩
  have hinner : Quotes true 2 (.list [xs] none) (.start "" {})
      (.array [.array [.string "unquote-splicing", .string "xs"]]) (.start "" {}) :=
    .list (by simp) (.cons (.inner rfl (.symbol _ _ _ _)) (.nil _ _))
  have hquotes : Quotes true 1 t (.start "" {}) (.array [⟨.spread (.ident "xs"), none⟩,
      .array [.string "quasiquote", .array [.array [.string "unquote-splicing", .string "xs"]]]])
      (.start "" {}) :=
    .list (by rintro _ _ ⟨⟩; rfl) (.spread rfl rfl (.cons (.inner rfl hinner) (.nil _ _)))
  exact ⟨h, ((quasiquote_by_depth t none none _ _ _).2 h).mpr ⟨_, hquotes, rfl⟩⟩

/-- An unquote in the argument of a splice at depth two is not evaluated, as it would be if the splice counted like
an unquote. -/
theorem quasi_unquote_in_splice :
    let t : SExpr := .list [.symbol "quasiquote" none, .list [.list [.symbol "unquote-splicing" none,
      .list [.symbol "unquote" none, .symbol "x" none] none] none] none] none
    let template (tree : Node) : Node :=
      .array [.string "quasiquote", .array [.array [.string "unquote-splicing", tree]]]
    Quotes true 1 t (.start "" {}) (template (.ident "x")) (.start "" {}) ∧
      Lowering.lower (.list [.symbol "quasiquote" none, t] none) (.start "" {}) =
        .ok (some (template (.array [.string "unquote", .string "x"]))) (.start "" {}) := by
  intro t template
  constructor
  · exact .inner rfl (.list (by simp) (.cons (.inner rfl (.value rfl rfl)) (.nil _ _)))
  · rfl

end LispLowering
