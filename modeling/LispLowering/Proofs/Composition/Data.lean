import LispLowering.Proofs.Composition.Control

/-!
# What data and operators are made of
-/

namespace LispLowering

open Lowering Node SExpr List

variable {entries : List Node}

/-! ## Keys of maps -/

/-- The key of an entry, if it is a name, comes from the tree of the key. -/
def KeyFrom (key : SExpr) (entry : Node) : Prop :=
  ∀ keyNode value shorthand, entry.kind = .property keyNode value false shorthand →
    ∀ name, keyNode.identifier? = some name → directKey? key = some name

theorem KeysFrom.cons {args : List SExpr} {key : SExpr} {entry : Node}
    (hkey : key ∈ args) (h : KeyFrom key entry) (hentries : KeysFrom args entries) :
    KeysFrom args (entry :: entries) := by
  refine forall_mem_cons.mpr ⟨?_, hentries⟩
  exact fun _ _ _ hkind name hname => ⟨key, hkey, h _ _ _ hkind name hname⟩

theorem KeysFrom.mono {args args' : List SExpr} (hargs : args ⊆ args')
    (h : KeysFrom args entries) : KeysFrom args' entries := by
  intro entry hentry keyNode value shorthand hkind name hname
  obtain ⟨arg, harg, hdirect⟩ := h entry hentry keyNode value shorthand hkind name hname
  exact ⟨arg, hargs harg, hdirect⟩

theorem KeyFrom.spread {entry target : Node} (h : entry.kind = .spread target) (key : SExpr) :
    KeyFrom key entry := by
  intro keyNode value shorthand hkind
  rw [h] at hkind
  cases hkind

theorem KeyFrom.keyed {key : SExpr} {name : String} (h : directKey? key = some name) (value : Node)
    (p : Option Position) : KeyFrom key ((keyed name value).orPlace p) := by
  intro keyNode value' shorthand hkind name' hname
  cases hkind
  split at hname
  · cases hname
    exact h
  · cases hname

namespace Lowering

variable {P : Comparison} {stored : Node → Prop} {form : Form} {t : SExpr}
  {ts : List SExpr}

/-! ## Collections and templates -/

theorem lowerVector_performs : P.PerformsForm stored .vector := fun _ hargs =>
  .map (lowerArguments_performs hargs) fun _ _ _ helems => .hold rfl helems

theorem lowerSet_performs : P.PerformsForm stored .set := by
  refine fun _ hargs => .map (lowerArguments_performs hargs) fun elements leaves _ helems => ?_
  have harray : Built leaves .expression (array elements) := .hold rfl helems
  exact .hold rfl (.skip (.ident _) (.one harray))

theorem lowerEmpty_calm {node : Node} (hnode : Built [] .any node) :
    Calm (Gives .any [] {}) (lowerEmpty form node) := by
  unfold lowerEmpty
  split
  · exact .pure hnode
  · exact .fault rfl

theorem lowerSpread_performs : P.PerformsForm stored .spread := by
  rintro ⟨node, name, _ | ⟨arg, _ | _⟩⟩ hargs
  · exact .fault rfl
  · exact .map (.value hargs.1) fun _ _ _ hargument => .hold rfl (.one hargument)
  · exact .fault rfl

theorem lowerEntry_performs {key value : SExpr} (hkeyTree : P.trees key) (htree : P.trees value) :
    P.Performs stored (entryScript key value) (lowerEntry · key value) fun leaves _ entry => Built leaves .entry entry ∧ KeyFrom key entry := by
  refine .bind (.value htree) fun _ _ _ hvalue => ?_
  cases hkey : directKey? key with
  | none =>
    refine .map (.value hkeyTree) fun _ _ _ hkeyNode => ⟨?_, nofun⟩
    refine .regroup (fun _ => ?_) (.hold rfl (.cons hkeyNode (.one hvalue)))
    simp only [mem_append, or_comm]
  | some name =>
    refine .pure ⟨?_, .keyed hkey _ _⟩
    rw [append_nil]
    exact (hvalue.keyed name (.inl rfl)).orPlace _

theorem lowerEntries_performs (hts : Each P.trees ts) :
    P.Performs stored (entriesScript ts) (lowerEntries · form ts)
      fun leaves _ entries => BuiltAll leaves (Slot.entry.all entries) ∧ KeysFrom ts entries := by
  have hspread {t : SExpr} (htree : P.trees t) (ht : isSpread t = true) :
      P.Performs stored (argumentScript t) (lowerArgument · t)
        fun leaves _ entry => Built leaves .entry entry ∧ KeyFrom t entry := by
    refine (lowerArgument_performs htree).weaken fun _ _ _ hentry => ?_
    obtain ⟨target, hkind⟩ := hentry.2 ht
    exact ⟨.narrow (by simp [Slot.admits, hkind]) (.widen hentry.1), .spread hkind t⟩
  induction ts using List.twoStepInduction with
  | nil => exact .pure ⟨.nil, by simp [KeysFrom]⟩
  | singleton last =>
    unfold Comparison.Performs lowerEntries
    split
    · next hlast =>
      refine .map (hspread hts.1 hlast) fun _ _ _ hentry => ⟨.one hentry.1, ?_⟩
      exact .cons (by simp) hentry.2 (by simp [KeysFrom])
    · exact .fault rfl
  | cons_cons first second rest ih ihnext =>
    unfold Comparison.Performs lowerEntries entriesScript
    split
    · next hfirst =>
      refine .bind (hspread hts.1 hfirst) fun _ _ _ hentry => ?_
      refine .map (ihnext second hts.2) fun _ _ _ hentries => ⟨.cons hentry.1 hentries.1, ?_⟩
      exact .cons (by simp) hentry.2 (hentries.2.mono (by simp))
    · refine .bind (lowerEntry_performs hts.1 hts.2.1) fun _ _ _ hentry => ?_
      refine .map (ih hts.2.2) fun _ _ _ hentries => ⟨.cons hentry.1 hentries.1, ?_⟩
      exact .cons (by simp) hentry.2 (hentries.2.mono (by simp [subset_def]; tauto))

theorem lowerMap_performs : P.PerformsForm stored .map := by
  refine fun _ hargs => .bind (lowerEntries_performs hargs) fun entries leaves _ hentries => ?_
  have hobject : Built (leaves ++ (object entries).kind.marks.map .mark) .any (object entries) :=
    .make rfl rfl rfl rfl hentries.1
  refine .event (.object _ entries) {} rfl (.pure hobject) (fun c _ d hrun => ?_)
    fun _ => .unrecorded rfl rfl rfl rfl rfl
  obtain ⟨rfl, rfl⟩ := pure_ok hrun
  exact ⟨.object hentries.2, by simp⟩

theorem lowerGet_performs : P.PerformsForm stored .get := by
  rintro ⟨node, name, _ | ⟨object, _ | ⟨key, _ | ⟨fallback, _ | _⟩⟩⟩⟩ hargs
  iterate 2 exact .fault rfl
  · refine .bind (.value hargs.1) fun _ _ _ hobject => ?_
    exact .map (.value hargs.2.1) fun _ _ _ hkey => .widen (hobject.index hkey)
  · refine .bind (.value hargs.1) fun _ _ _ hobject => ?_
    refine .bind (.value hargs.2.1) fun _ _ _ hkey => ?_
    refine .map (.value hargs.2.2.1) fun _ _ _ hfallback => ?_
    rw [← append_assoc]
    exact .hold rfl (.cons ((hobject.index hkey).place _) (.one hfallback))
  · exact .fault rfl

theorem lowerConstruct_performs : P.PerformsForm stored .construct := by
  rintro ⟨node, name, _ | ⟨callee, args⟩⟩ hargs
  · exact .fault rfl
  · refine .bind (.value hargs.1) fun _ _ _ hcallee => ?_
    refine .map (lowerArguments_performs hargs.2) fun _ _ _ hgiven => ?_
    exact .hold rfl (.cons hcallee hgiven)

theorem lowerTemplateParts_performs (hts : Each P.trees ts) :
    P.Performs stored (templateScript ts) (lowerTemplateParts · ts)
      fun leaves _ template => BuiltAll leaves (Slot.expression.all (template.rest.map Prod.fst)) := by
  induction ts with
  | nil => exact .pure .nil
  | cons t rest ih =>
    by_cases htext : ∃ text p, t = .literal (.string text) p
    · obtain ⟨text, p, rfl⟩ := htext
      exact .map (ih hts.2) fun _ _ _ htemplate => htemplate
    · have htext : ∀ text p, t ≠ .literal (.string text) p := fun text p h => htext ⟨text, p, h⟩
      dsimp only [Comparison.Performs]
      rw [templateScript.eq_3 _ _ htext, lowerTemplateParts.eq_3 _ _ _ htext,
        lowerTemplateParts.eq_3 _ _ _ htext]
      refine .bind (.value hts.1) fun _ _ _ hexpr => ?_
      exact .map (ih hts.2) fun _ _ _ htemplate => .cons hexpr htemplate

theorem lowerTemplate_performs : P.PerformsForm stored .template := by
  refine fun _ hargs => .map (lowerTemplateParts_performs hargs) fun _ _ _ htemplate => ?_
  exact .hold (by simp [Slot.holds, Slot.admits, Template.node, of, NodeKind.isBalanced,
    NodeKind.definition?, NodeKind.marks, NodeKind.guarded?]) htemplate

/-! ## Access -/

theorem propertyKey_calm (arg : SExpr) : Calm (fun _ => True) (propertyKey form arg) := by
  unfold propertyKey
  split
  · exact .pure trivial
  · exact .pure trivial
  · exact .fault rfl

theorem propertyAccess_built {object : Node}
    (hobject : Built leaves .expression object) (name : String) (p : Option Position) :
    Built leaves .expression (propertyAccess object name p) := by
  unfold propertyAccess
  split
  · exact (hobject.member name).place p
  · simpa using (hobject.index ((Built.string name).place p)).place p

theorem lowerPropertyCall_performs : P.PerformsForm stored .methodCall := by
  rintro ⟨node, name, _ | ⟨receiver, _ | ⟨key, args⟩⟩⟩ hargs
  iterate 2 exact .fault rfl
  refine .bind (.value hargs.1) fun _ _ _ hrecv => ?_
  refine .after (propertyKey_calm key) fun name _ => ?_
  refine .map (lowerArguments_performs hargs.2.2) fun _ _ _ hgiven => ?_
  exact .widen ((propertyAccess_built hrecv name _).call hgiven)

theorem lowerPropertyGet_performs : P.PerformsForm stored .propertyGet := by
  rintro ⟨node, name, _ | ⟨object, _ | ⟨key, _ | _⟩⟩⟩ hargs
  iterate 2 exact .fault rfl
  · refine .settle (.value hargs.1) fun _ _ _ hobject => ?_
    exact .bind (propertyKey_calm key) fun name _ => .pure (.widen (propertyAccess_built hobject name _))
  · exact .fault rfl

theorem lowerPropertySet_performs : P.PerformsForm stored .propertySet := by
  rintro ⟨node, name, _ | ⟨object, _ | ⟨key, _ | ⟨value, _ | _⟩⟩⟩⟩ hargs
  iterate 3 exact .fault rfl
  · refine .bind (.value hargs.1) fun _ _ _ hobject => ?_
    refine .after (propertyKey_calm key) fun name _ => ?_
    refine .map (.value hargs.2.2.1) fun _ _ _ hvalue => ?_
    exact .hold rfl (.cons (propertyAccess_built hobject name _) (.one hvalue))
  · exact .fault rfl

theorem getInvokeStatements_built {object : Node}
    (hobject : Built leaves .expression object) (name receiverName memberName : String)
    (p : Option Position) : BuiltAll (leaves ++ [.mark .returns])
      (Slot.statement.all (getInvokeStatements object name receiverName memberName p)) := by
  have hident (name : String) : Built [] .expression ((ident name).place p) :=
    (Built.ident name).place p
  have hfixed {leaves : List Leaf} {init : Node} (name : String)
      (hinit : Built leaves .expression init) :
      Built leaves .statement ((declareFixed ((ident name).place p) init).place p) := by
    simpa [declareFixed] using (Built.declare rfl (hident name) (.one hinit)).place p
  have htest : Built [] .expression ((binary .strictEq
      ((unary .typeOf ((ident memberName).place p)).place p)
      ((string "function").place p)).place p) :=
    .hold rfl (.skip (.hold rfl (.one (hident memberName))) (.one ((Built.string _).place p)))
  have hcall : Built [] .expression ((call ((member ((ident memberName).place p)
      "call").place p) [(ident receiverName).place p]).place p) :=
    ((((hident memberName).member _).place p).call (.one (hident receiverName))).place p
  have hchoice : Built [] .expression ((conditional _ _ ((ident memberName).place p)).place p) :=
    .hold rfl (.skip htest (.skip hcall (.one (hident memberName))))
  refine .cons (hfixed receiverName hobject) (.skip ?_ (.one (hchoice.returned p)))
  exact hfixed memberName (propertyAccess_built (hident receiverName) name p)

theorem lowerGetInvoke_performs (hargs : Each P.trees form.args) :
    P.Performs stored (.values (form.args.take 1))
      (lowerGetInvoke · form) fun leaves δ node => ∃ body, node = wrapped body δ form.position ∧
        BuiltAll (leaves ++ [.mark .returns]) (Slot.statement.all body) := by
  rcases form with ⟨node, name, _ | ⟨object, _ | ⟨key, _ | _⟩⟩⟩
  iterate 2 exact .fault rfl
  · refine .settle (.tracking (.value hargs.1)) fun _ _ δ hobject => ?_
    obtain ⟨rfl, hobject⟩ := hobject
    refine .bind (propertyKey_calm key) fun _ _ => ?_
    refine .bind (.fresh _) fun _ _ => .bind (.fresh _) fun _ _ => .pure ?_
    exact ⟨_, rfl, getInvokeStatements_built hobject _ _ _ _⟩
  · exact .fault rfl

/-! ## Quotation -/

mutual

theorem quoted_built : ∀ t : SExpr, Built [] .expression (quoted t)
  | .symbol _ p => (Built.string _).place p
  | .literal _ _ => .hold rfl .nil
  | .list items _ => .hold rfl (quotedItems_built items)

theorem quotedItems_built : ∀ ts : List SExpr, BuiltAll [] (Slot.expression.all (quotedItems ts))
  | [] => .nil
  | t :: rest => .cons (quoted_built t) (quotedItems_built rest)

end

mutual

theorem quasi_performs (P : Comparison) : ∀ (depth : Nat) (t : SExpr), P.trees t →
    P.Performs stored (quasiScript depth t) (quasi · depth t)
      (Gives .expression)
  | _, .symbol name p, _ => .pure (quoted_built (.symbol name p))
  | _, .literal value p, _ => .pure (quoted_built (.literal value p))
  | depth, .list items p, ht => by
    have hts := P.shown.hereditary.each ht
    have hinner {depth : Nat} {head tree : SExpr}
        (h : P.Performs stored (quasiScript depth tree)
          (quasi · depth tree) (Gives .expression)) :
        P.Performs stored (quasiScript depth tree)
          (fun lower => do
            let inner ← quasi lower depth tree
            return (array [quoted head, inner]).place p) (Gives .expression) :=
      .map h fun _ _ _ hinner => .hold rfl (.skip (quoted_built head) (.one hinner))
    have hitems {depth : Nat} {items : List SExpr}
        (h : P.Performs stored (quasiItemsScript depth items)
          (quasiItems · depth items) (GivesAll .expression)) :
        P.Performs stored (quasiItemsScript depth items)
          (fun lower => do
            let elements ← quasiItems lower depth items
            return (array elements).place p) (Gives .expression) :=
      .map h fun _ _ _ helems => .hold rfl helems
    match items with
    | [head, tree] =>
      have htree := hts.2.1
      simp only [Comparison.Performs, quasi, quasiScript]
      cases QuoteMark.ofHead head with
      | unquote =>
        dsimp only
        split
        · exact .value htree
        · exact hinner (quasi_performs P (depth - 1) tree htree)
      | quasiquote => exact hinner (quasi_performs P (depth + 1) tree htree)
      | splice => exact .ite (.fault rfl) (hitems (quasiItems_performs P depth [head, tree] hts))
      | none => exact hitems (quasiItems_performs P depth [head, tree] hts)
    | [] => exact hitems (quasiItems_performs P depth [] hts)
    | [only] => exact hitems (quasiItems_performs P depth [only] hts)
    | first :: second :: third :: rest =>
      exact hitems (quasiItems_performs P depth (first :: second :: third :: rest) hts)

theorem quasiItems_performs (P : Comparison) : ∀ (depth : Nat) (ts : List SExpr), Each P.trees ts →
    P.Performs stored (quasiItemsScript depth ts)
      (quasiItems · depth ts) (GivesAll .expression)
  | _, [], _ => .pure .nil
  | depth, item :: rest, hts => by
    have hrest := quasiItems_performs P depth rest hts.2
    have hitem := quasi_performs P depth item hts.1
    have htree (tree : SExpr) (h : spliced? item = some tree) := spliced?_of P.shown.hereditary hts.1 h
    unfold Comparison.Performs quasiItems quasiItemsScript
    generalize spliced? item = spliced at htree ⊢
    match spliced, depth, hitem, hrest with
    | some tree, 1, _, hrest =>
      refine .bind (.value (htree tree rfl)) fun _ _ _ hvalue => ?_
      exact .map hrest fun _ _ _ helems => .cons (.hold rfl (.one hvalue)) helems
    | none, _, hitem, hrest | some _, 0, hitem, hrest | some _, _ + 2, hitem, hrest =>
      exact .bind hitem fun _ _ _ helement => .map hrest fun _ _ _ helems => .cons helement helems

end

theorem lowerQuasiquote_performs : P.PerformsForm stored .quasiquote := by
  rintro ⟨node, name, _ | ⟨tree, _ | _⟩⟩ hargs
  · exact .fault rfl
  · exact (quasi_performs P 1 tree hargs.1).weaken fun _ _ _ h => .widen h
  · exact .fault rfl

theorem lowerQuote_calm : Calm (Gives .any [] {}) (lowerQuote form) := by
  unfold lowerQuote
  split
  · exact .pure (.widen (quoted_built _))
  · exact .fault rfl

/-! ## Operators -/

section

variable {join : Node → Node → Node} {p : Option Position} {operands : List Node} {leaves : List Leaf}
  (hjoin : ∀ leaves leaves' left right, Built leaves .expression left →
    Built leaves' .expression right → Built (leaves ++ leaves') .expression (join left right))

include hjoin

theorem joinLeft_built (hops : BuiltAll leaves (Slot.expression.all operands)) :
    BuiltAll leaves (Slot.expression.all (joinLeft join p operands).toList) := by
  have hfold (rest : List Node) : ∀ (first : Node) (leaves leaves' : List Leaf),
      Built leaves .expression first → BuiltAll leaves' (Slot.expression.all rest) →
      Built (leaves ++ leaves') .expression
        (rest.foldl (fun left right => (join left right).place p) first) := by
    induction rest with
    | nil =>
      intro first leaves leaves' hfirst hrest
      rw [hrest.eq_nil rfl, append_nil]
      exact hfirst
    | cons next rest ih =>
      intro first leaves leaves' hfirst hrest
      obtain ⟨leaves₁, leaves₂, hmem, hnext, hrest⟩ := hrest.uncons rfl
      refine .regroup (fun _ => ?_) (ih _ _ _ ((hjoin _ _ _ _ hfirst hnext).place p) hrest)
      simp only [mem_append, hmem, or_assoc]
  cases operands with
  | nil => exact hops
  | cons first rest =>
    obtain ⟨leaves₁, leaves₂, hmem, hfirst, hrest⟩ := hops.uncons rfl
    exact .regroup hmem (.one (hfold rest first _ _ hfirst hrest))

theorem joinRight_built (hops : BuiltAll leaves (Slot.expression.all operands)) :
    BuiltAll leaves (Slot.expression.all (joinRight join p operands).toList) := by
  induction operands generalizing leaves with
  | nil => exact hops
  | cons first rest ih =>
    obtain ⟨leaves₁, leaves₂, hmem, hfirst, hrest⟩ := hops.uncons rfl
    have hright := ih hrest
    unfold joinRight
    generalize joinRight join p rest = right at hright ⊢
    cases right with
    | none =>
      rw [hright.eq_nil rfl, append_nil] at hmem
      exact .regroup hmem (.one hfirst)
    | some right => exact .regroup hmem (.one ((hjoin _ _ _ _ hfirst (hright.single rfl)).place p))

end

theorem binary_built (op : BinaryOp) (leaves leaves' : List Leaf) (left right : Node)
    (hleft : Built leaves .expression left) (hright : Built leaves' .expression right) :
    Built (leaves ++ leaves') .expression (binary op left right) :=
  .hold rfl (.cons hleft (.one hright))

theorem logical_built (op : LogicalOp) (leaves leaves' : List Leaf) (left right : Node)
    (hleft : Built leaves .expression left) (hright : Built leaves' .expression right) :
    Built (leaves ++ leaves') .expression (logical op left right) :=
  .hold rfl (.cons hleft (.one hright))

theorem lowerJoined_performs (op : BinaryOp) (hargs : Each P.trees form.args) :
    P.Performs stored (.values form.args) (lowerJoined · form op)
      (Gives .any) :=
  .map (lowerValues_performs hargs) fun _ _ _ hops =>
    .widen (.getD (joinLeft_built (binary_built op) hops) .undefined)

theorem lowerLogical_performs (op : LogicalOp) (identity : Bool) (hargs : Each P.trees form.args) :
    P.Performs stored (.values form.args)
      (lowerLogical · form op identity) (Gives .any) :=
  .map (lowerValues_performs hargs) fun _ _ _ hops =>
    .widen (.getD (joinLeft_built (logical_built op) hops) (.bool identity))

theorem built_of_isRepeatable {node : Node} (h : isRepeatable node = true) : Built [] .expression node := by
  obtain ⟨kind, p⟩ := node
  unfold isRepeatable at h
  split at h
  · next hkind =>
    cases hkind
    exact .hold rfl .nil
  · next hkind =>
    cases hkind
    exact .hold rfl .nil
  · next hkind =>
    cases hkind
    exact .hold rfl .nil
  · cases h

theorem compareFrom_calm (op : BinaryOp) (p : Option Position) (operands : List Node) :
    ∀ (left : Node) (leaves leaves' : List Leaf), operands ≠ [] → Built leaves .expression left →
      BuiltAll leaves' (Slot.expression.all operands) →
      Calm (fun chain => BuiltAll [] (Slot.statement.all chain.declarations) ∧
          BuiltAll (leaves ++ leaves') (Slot.expression.all chain.tests))
        (compareFrom op p left operands) := by
  induction operands with
  | nil => exact fun _ _ _ h => absurd rfl h
  | cons operand rest ih =>
    intro left leaves leaves' _ hleft hops
    obtain ⟨leaves₁, leaves₂, hmem, hoperand, hrest⟩ := hops.uncons rfl
    cases rest with
    | nil =>
      refine .pure ⟨.nil, .one ?_⟩
      exact (binary_built op _ _ _ _ hleft (hops.single rfl)).place p
    | cons next rest =>
      have hgroup (leaf : Leaf) : leaf ∈ leaves ++ leaves' ↔ leaf ∈ (leaves ++ leaves₁) ++ leaves₂ := by
        simp only [mem_append, hmem, or_assoc]
      unfold compareFrom
      split
      · next hrepeatable =>
        refine .bind (ih operand [] leaves₂ (by simp) (built_of_isRepeatable hrepeatable) hrest)
          fun _ hlater => .pure ⟨hlater.1, .regroup hgroup ?_⟩
        exact .cons ((binary_built op _ _ _ _ hleft hoperand).place p) hlater.2
      · refine .bind (.fresh "cmp") fun name _ => ?_
        have hkept : Built [] .expression ((ident name).place p) := (Built.ident name).place p
        have hnone : BuiltAll [] (Slot.expression.all (none : Option Node).toList) := .nil
        refine .bind (ih _ [] leaves₂ (by simp) hkept hrest) fun _ hlater => .pure ⟨?_, ?_⟩
        · exact .skip ((Built.declare rfl hkept hnone).place p) hlater.1
        · have hassign : Built leaves₁ .expression
              ((assign ((ident name).place p) operand).place p) :=
            .hold rfl (.skip hkept (.one hoperand))
          exact .regroup hgroup (.cons ((binary_built op _ _ _ _ hleft hassign).place p) hlater.2)

theorem each_length {α β : Type} {step : α → Lower β} {items : List α} {c d : Context} {results : List β}
    (h : Lower.each step items c = .ok results d) : results.length = items.length := by
  induction items generalizing results c with
  | nil =>
    obtain ⟨rfl, rfl⟩ := pure_ok h
    rfl
  | cons item rest ih =>
    obtain ⟨first, c', -, h⟩ := bind_ok h
    obtain ⟨others, hrest, rfl⟩ := map_ok h
    simp [ih hrest]

/-- The value of comparisons whose variables have been declared. -/
def Comparisons.value (p : Option Position) (chain : Comparisons) : Node :=
  (joinLeft (logical .and) p chain.tests).getD ((bool true).place p)

def Comparisons.statements (p : Option Position) (chain : Comparisons) : List Node :=
  chain.declarations ++ [⟨.returnStatement (some (chain.value p)), p⟩]

theorem Comparisons.built {chain : Comparisons}
    (hdeclarations : BuiltAll [] (Slot.statement.all chain.declarations))
    (htests : BuiltAll leaves (Slot.expression.all chain.tests)) (p : Option Position) :
    Built leaves .expression (chain.value p) ∧
      BuiltAll (leaves ++ [.mark .returns]) (Slot.statement.all (chain.statements p)) := by
  have hvalue : Built leaves .expression (chain.value p) :=
    .getD (joinLeft_built (logical_built .and) htests) ((Built.bool true).place p)
  rw [Comparisons.statements, Slot.all_append]
  exact ⟨hvalue, hdeclarations.append (.one (hvalue.returned _))⟩

theorem lowerComparison_performs (op : BinaryOp) (hargs : Each P.trees form.args)
    (hcount : 2 ≤ form.args.length) :
    P.Performs stored (.values form.args) (lowerComparison · form op)
      fun leaves δ node => ∃ chain : Comparisons, node = comparisonValue form.position δ chain ∧
        Built leaves .expression (chain.value form.position) ∧
        BuiltAll (leaves ++ [.mark .returns]) (Slot.statement.all (chain.statements form.position)) := by
  have hvalues : P.Performs stored (.values form.args)
      (lowerValues · form.args) fun leaves _ operands =>
        BuiltAll leaves (Slot.expression.all operands) ∧ 2 ≤ operands.length :=
    (lowerValues_performs hargs).also fun _ _ _ h => hcount.trans_eq (each_length h).symm
  refine .settle hvalues.tracking fun result leaves δ hops => ?_
  obtain ⟨operands, suspension⟩ := result
  obtain ⟨rfl, hops, hlength⟩ := hops
  cases operands with
  | nil => simp at hlength
  | cons first rest =>
    obtain ⟨leaves₁, leaves₂, hmem, hfirst, hrest⟩ := hops.uncons rfl
    have hne : rest ≠ [] := by
      rintro rfl
      simp at hlength
    refine .bind (compareFrom_calm op _ rest first _ _ hne hfirst hrest) fun chain hchain => .pure ?_
    exact ⟨chain, rfl, Comparisons.built hchain.1 (.regroup hmem hchain.2) _⟩

theorem lowerOperator_performs {guards : Node → Prop} (op : Operator) (hargs : Each P.trees form.args) :
    P.Performs stored (.values form.args) (lowerOperator · form op)
      (Composed guards) := by
  have hbuilt {m m' : Lower Node} (h : Performs P stored (.values form.args) m m' (Gives .any)) :
      Performs P stored (.values form.args) m m' (Composed guards) :=
    h.weaken fun _ _ _ hnode => .built hnode
  have hunary {arg : SExpr} (op : UnaryOp) (harg : P.trees arg) :
      P.Performs stored (.values [arg])
        (fun lower => do return unary op (← lowerValue lower arg)) (Composed guards) :=
    .map (.value harg) fun _ _ _ h => .built (.hold rfl (.one h))
  obtain ⟨node, name, args⟩ := form
  cases op with
  | add =>
    rcases args with _ | ⟨arg, _ | _⟩
    · exact .pure (.built (.widen (.number 0)))
    · exact hunary _ hargs.1
    · exact hbuilt (lowerJoined_performs .add hargs)
  | subtract =>
    rcases args with _ | ⟨arg, _ | _⟩
    · exact .fault rfl
    · exact hunary _ hargs.1
    · exact hbuilt (lowerJoined_performs .sub hargs)
  | multiply =>
    rcases args with _ | ⟨arg, _ | _⟩
    · exact .pure (.built (.widen (.number 1)))
    · exact (Performs.value hargs.1).weaken fun _ _ _ h => .built (.widen h)
    · exact hbuilt (lowerJoined_performs .mul hargs)
  | divide => exact .ite (.fault rfl) (hbuilt (lowerJoined_performs .div hargs))
  | remainder => exact .ite (.fault rfl) (hbuilt (lowerJoined_performs .mod hargs))
  | power =>
    refine .ite (.fault rfl) (hbuilt (.map (lowerValues_performs hargs) fun _ _ _ hops => ?_))
    exact .widen (.getD (joinRight_built (binary_built .pow) hops) .undefined)
  | relation op =>
    rcases args with _ | ⟨left, _ | ⟨right, _ | _⟩⟩
    iterate 2 exact .fault rfl
    · refine .bind (.value hargs.1) fun _ _ _ hleft => ?_
      exact .map (.value hargs.2.1) fun _ _ _ hright =>
        .built (.widen (binary_built op _ _ _ _ hleft hright))
    · exact .fault rfl
  | comparison op =>
    dsimp only [Comparison.Performs, lowerOperator, withAtLeast]
    split
    · exact .fault rfl
    · next hcount =>
      refine (lowerComparison_performs op hargs (Nat.le_of_not_lt hcount)).weaken fun _ _ _ hnode => ?_
      obtain ⟨chain, rfl, hvalue, hstmts⟩ := hnode
      unfold comparisonValue
      split
      · exact .built (.widen hvalue)
      · exact .wrapped hstmts
  | and => exact hbuilt (lowerLogical_performs .and true hargs)
  | or => exact hbuilt (lowerLogical_performs .or false hargs)
  | nullish => exact .ite (.fault rfl) (hbuilt (lowerLogical_performs .nullish false hargs))
  | unary op =>
    rcases args with _ | ⟨arg, _ | _⟩
    · exact .fault rfl
    · exact hunary op hargs.1
    · exact .fault rfl

end Lowering

end LispLowering
