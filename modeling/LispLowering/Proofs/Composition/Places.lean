import LispLowering.Proofs.Composition.Performs
import LispLowering.Proofs.Patterns.Lowering

/-!
# What values, statements, targets and calls are made of
-/

namespace LispLowering

open Lowering SExpr List Script

namespace Lowering

/-! ## References -/

theorem Referred.built {p q : Option Position} {node node' : Node} (h : Referred p q node node') :
    Built [] .expression node := by
  induction h with
  | literal | identifier | thisValue => exact .hold rfl .nil
  | member name _ ih | optionalMember name _ ih => exact .hold rfl (.before ih (.one (.ident name)))
  | index value _ ih => exact .hold rfl (.before ih (.one ((Built.number value).place p)))
  | spread _ ih => exact .hold rfl (.one ih)

/-! ## Values and statements -/

variable {lower : Lowerer} {P : Comparison} {stored : Node → Prop} {t : SExpr}
  {ts : List SExpr}

theorem lowerValues_performs (hts : Each P.trees ts) :
    P.Performs stored (.values ts) (lowerValues · ts) (GivesAll .expression) :=
  .each fun t ht => .value (each_iff.mp hts t ht)

theorem lowerOption_performs {tree : Option SExpr} (htree : ∀ t ∈ tree, P.trees t) :
    P.Performs stored (.values tree.toList) (fun lower => Lower.option (lowerValue lower) tree)
      fun leaves δ node => GivesAll .expression leaves δ node.toList := by
  cases tree with
  | none => exact .pure .nil
  | some t => exact .map (.value (htree t rfl)) fun _ _ _ hnode => .one hnode

theorem builtAll_statement (node : Option Node) {leaves : List Leaf} (h : leaves = node.toList.map .node) :
    BuiltAll leaves (Slot.statement.all (node.map Node.asStatement).toList) := by
  subst h
  cases node with
  | none => exact .nil
  | some node => exact .one (Built.node node).asStatement

theorem lowerBody_makes (hl : Transparent lower) (ts : List SExpr) :
    Makes lower stored (Place.statement.all ts) (lowerBody lower ts) (GivesAll .statement) := by
  induction ts with
  | nil => exact .pure .nil
  | cons t rest ih =>
    have hfirst : Makes lower stored _ (lowerStatement lower t)
        fun leaves δ node => GivesAll .statement leaves δ node.toList :=
      .map (.plain hl t) fun node _ _ => builtAll_statement node
    exact .bind hfirst fun _ _ _ hfirst => .map ih fun _ _ _ hothers => .appendAll hfirst hothers

theorem lowerStatement_performs (ht : P.trees t) :
    P.Performs stored (.visit .statement t .done) (lowerStatement · t)
      fun leaves δ node => GivesAll .statement leaves δ node.toList :=
  .map (.plain ht) fun node _ _ => builtAll_statement node

theorem lowerBody_performs (hts : Each P.trees ts) :
    P.Performs stored (.statements ts) (lowerBody · ts) (GivesAll .statement) := by
  induction ts with
  | nil => exact .pure .nil
  | cons t rest ih =>
    exact .bind (lowerStatement_performs hts.1) fun _ _ _ hfirst =>
      .map (ih hts.2) fun _ _ _ hothers => .appendAll hfirst hothers

/-! ## Targets -/

end Lowering

theorem Pattern.Refuses.blameless {pattern : Pattern} {e : Diagnostic} (h : pattern.Refuses e) :
    e.Blameless := by
  obtain ⟨kind, default, p⟩ := pattern
  cases kind with
  | object properties rest =>
    rcases h with ⟨_, -, -, rfl⟩ | ⟨_, -, -, rfl⟩ <;> exact Diagnostic.blameless_fault _ _ rfl
  | rest inner =>
    obtain ⟨-, rfl⟩ := h
    exact Diagnostic.blameless_fault _ _ rfl
  | _ => exact h.elim

namespace Lowering

variable {P : Comparison} {stored : Node → Prop} {t : SExpr} {ts : List SExpr}

theorem pattern_rules (P : Comparison) (stored : Node → Prop) :
    Pattern.Rules (lowerValue P.first) (lowerValue P.second) Diagnostic.Blameless fun trees R m m' =>
      (∀ t ∈ trees, P.trees t) →
        Performs P stored (.values trees) m m' fun leaves _ => R leaves where
  pure := fun h _ => Performs.pure h
  refuse := fun h _ => ⟨fun c c' hc _ => ⟨Agree.refuse h c c' hc, by rintro _ _ ⟨⟩⟩, fun _ => .refuse _,
    fun _ _ _ => .refuse _⟩
  call := fun t ht => .value (ht t (.head _))
  bind := fun hm hk htrees => by
    rw [forall_mem_append] at htrees
    rw [values_append]
    exact .bind (hm htrees.1) fun a leaves _ ha => hk a leaves ha htrees.2

theorem pattern_performs {pattern : Pattern} (hdefaults : ∀ t ∈ pattern.defaults, P.trees t) :
    P.Performs stored (.values pattern.defaults)
      (fun lower => pattern.lower (lowerValue lower)) fun leaves _ => Pattern.Targets pattern.kind leaves :=
  (pattern_rules P stored).lower pattern (fun _ _ _ h => h.blameless) hdefaults

theorem lowerTarget_performs (ht : P.trees t) :
    P.Performs stored (targetScript t) (lowerTarget · t) fun leaves _ target =>
      Built leaves .expression target ∧ target.boundNames = targetNames t := by
  refine .after (.ofSyntax _) fun _ hread => ?_
  simp only [targetScript, targetNames, hread]
  have hT := P.shown.hereditary
  refine .settle (pattern_performs (Pattern.defaults_of_read hT hread (hT.children ht)))
    fun target _ _ htarget => ?_
  cases target with
  | none => exact .fault rfl
  | some node => exact .pure ⟨htarget.built.single rfl, htarget.boundNames⟩

/-! ## Arguments -/

theorem lowerArgument_performs (ht : P.trees t) :
    P.Performs stored (argumentScript t) (lowerArgument · t) fun leaves _ node =>
        Built leaves .expression node ∧ (isSpread t = true → ∃ target, node.kind = .spread target) := by
  unfold Comparison.Performs lowerArgument argumentScript isSpread
  cases hspread : spreadTarget? t with
  | none => exact (Performs.value ht).weaken fun node _ _ hnode => ⟨hnode, nofun⟩
  | some target =>
    cases target with
    | symbol name =>
      refine .after (.ofExcept (reference_faultless _ _)) fun _ htarget => .pure ⟨?_, fun _ => ⟨_, rfl⟩⟩
      exact .hold rfl (.one (reference_referred htarget).built)
    | form node =>
      have hnode := spreadTarget?_of P.shown.hereditary ht hspread
      refine .map (.value hnode) fun _ _ _ htarget => ⟨?_, fun _ => ⟨_, rfl⟩⟩
      exact .hold rfl (.one htarget)

theorem lowerArguments_performs (hts : Each P.trees ts) :
    P.Performs stored (argumentsScript ts) (lowerArguments · ts) (GivesAll .expression) :=
  .each fun t ht => (lowerArgument_performs (each_iff.mp hts t ht)).weaken fun _ _ _ h => h.1

theorem argumentsScript_of_plain (h : ts.any isSpread = false) :
    argumentsScript ts = .values ts := by
  induction ts with
  | nil => rfl
  | cons t rest ih =>
    rw [any_cons, Bool.or_eq_false_iff] at h
    have hspread : spreadTarget? t = none := by simpa [isSpread] using h.1
    show argumentScript t ++ argumentsScript rest = value t ++ values rest
    rw [argumentScript, hspread, ih h.2]

end Lowering

theorem Performs.atom {α : Type} {P : Comparison} {stored : Node → Prop} {t : SExpr}
    {m m' : Lower α} {Q : List Leaf → Suspension → α → Prop} (ht : t.items? = none)
    (h : Performs P stored .done m m' Q) : Performs P stored (.value t) m m' Q := by
  refine .silent ?_ ?_ h
  · simp only [Script.value, notedNames, P.noted_leaf ht, append_nil]
  · cases t with
    | list items p => cases ht
    | _ => rfl

namespace Lowering.DeclaredCall

variable {P : Comparison} {stored : Node → Prop} {ts : List SExpr}

theorem checkPlaceholders_calm (call : DeclaredCall) (index : Nat) (ts : List SExpr) :
    Calm (fun _ => True) (call.checkPlaceholders index ts) := by
  induction ts generalizing index with
  | nil => exact .pure trivial
  | cons t rest ih =>
    have hrefused (fault : Fault) (hfault : fault.isUnderflow = false) : Calm (fun _ => True)
        (call.refuseArgument t fault >>= fun _ : Unit => call.checkPlaceholders (index + 1) rest) :=
      .bind (R := fun _ => True) (.fault hfault) fun _ _ => ih _
    refine .ite ?_ (ih _)
    cases call.entry.positional[index]? with
    | none | some => exact .ite (hrefused _ rfl) (ih _)

theorem checkCount_calm (call : DeclaredCall) (ts : List SExpr) :
    Calm (fun _ => True) (call.checkCount ts) := by
  unfold checkCount
  dsimp only
  split
  · exact .pure trivial
  · exact .ite (.fault rfl) (.pure trivial)

theorem mapArgument_performs (call : DeclaredCall) (hts : Each P.trees ts) :
    P.Performs stored (.values ts) (call.mapArgument · ts) (Gives .expression) := by
  rcases ts with _ | ⟨arg, _ | ⟨_, _⟩⟩
  · exact .pure (.hold rfl .nil)
  · exact .ite (.value hts.1) (.fault rfl)
  · exact .fault rfl

section

variable {call : DeclaredCall}
  (hstored : ∀ index value, call.entry.defaultFor index = some value → stored value)

include hstored

theorem default_performs (index : Nat) (p : Option Position) {fault : Fault}
    (hfault : fault.isUnderflow = false) :
    P.Performs stored .done (fun _ => match call.entry.defaultFor index with
      | some value => pure value
      | none => Lower.refuse (fault.place p)) (Gives .expression) := by
  cases hvalue : call.entry.defaultFor index with
  | none => exact .fault hfault
  | some value => exact .recall (hstored index value hvalue)

theorem argumentFor_performs (param : Pattern) (index : Nat) {arg : Option SExpr}
    (harg : ∀ t ∈ arg, P.trees t) :
    P.Performs stored (.values arg.toList) (call.argumentFor · param index arg)
      (Gives .expression) := by
  cases arg with
  | none => exact default_performs hstored index _ rfl
  | some t =>
    unfold argumentFor
    dsimp only
    split
    · next hhole =>
      cases t with
      | symbol name p => exact .atom rfl (default_performs hstored index _ rfl)
      | literal | list => cases hhole
    · exact .value (harg t rfl)

theorem positionalArguments_performs (index : Nat) (params : List Pattern) (hts : Each P.trees ts) :
    P.Performs stored (.values ts)
      (call.positionalArguments · index params ts) (GivesAll .expression) := by
  induction params generalizing index ts with
  | nil => exact lowerValues_performs hts
  | cons param params ih =>
    have hscript : values ts = .values ts.head?.toList ++ .values ts.tail := by
      cases ts <;> rfl
    rw [hscript]
    have hfirst : ∀ t ∈ ts.head?, P.trees t := fun t ht => each_iff.mp hts t (mem_of_mem_head? ht)
    refine .bind (argumentFor_performs hstored param index hfirst) fun _ _ _ hfirst => ?_
    exact .map (ih (index + 1) (hts.subset (tail_subset _))) fun _ _ _ hothers => .cons hfirst hothers

theorem arguments_performs (hts : Each P.trees ts) :
    P.Performs stored (argumentsScript ts) (call.arguments · ts) (GivesAll .expression) := by
  unfold Comparison.Performs arguments
  split
  · exact lowerArguments_performs hts
  · next hspread =>
    rw [argumentsScript_of_plain (Bool.eq_false_iff.mpr hspread)]
    refine .ite (.map (mapArgument_performs call hts) fun _ _ _ hnode => .one hnode) ?_
    exact .after (checkPlaceholders_calm call 0 ts) fun _ _ => .after (checkCount_calm call ts)
      fun _ _ => positionalArguments_performs hstored 0 _ hts

end

end Lowering.DeclaredCall

namespace Lowering

variable {P : Comparison} {stored : Node → Prop} {ts : List SExpr}

/-! ## Calls -/

theorem lowerCallOf_performs (node : SExpr) {callee : Node} {leaves : List Leaf}
    (hcallee : Built leaves .expression callee) (hts : Each P.trees ts) :
    P.Performs stored (argumentsScript ts) (lowerCallOf · node callee ts)
      fun leaves' _ result => Built (leaves ++ leaves') .expression result := by
  unfold Comparison.Performs lowerCallOf
  split
  · next n q =>
    refine .atom (t := .literal (.number n) q) rfl (.get (fun _ _ _ _ => rfl) fun c => .pure ?_)
    have hhelper : Built [] .expression ((Node.ident c.options.numericHelper).place node.position) :=
      (Built.ident _).place _
    exact (hhelper.call (.cons hcallee (.one ((Built.number _).place _)))).place _
  · exact .map (lowerArguments_performs hts) fun _ _ _ hgiven => (hcallee.call hgiven).place _

theorem lowerMethodCall_performs (node : SExpr) (method : String) (hts : Each P.trees ts) :
    P.Performs stored (calleeScript ts) (lowerMethodCall · node method ts) (Gives .expression) := by
  cases ts with
  | nil => exact .fault rfl
  | cons receiver rest =>
    refine .bind (.value hts.1) fun _ _ _ hrecv => ?_
    refine .map (lowerArguments_performs hts.2) fun _ _ _ hgiven => ?_
    exact (((hrecv.member _).place _).call hgiven).place _

theorem lowerApplied_performs (node : SExpr) {head : SExpr} (hts : Each P.trees (head :: ts)) :
    P.Performs stored (calleeScript (head :: ts))
      (lowerApplied · node head ts) (Gives .expression) :=
  .bind (.value hts.1) fun _ _ _ hcallee => lowerCallOf_performs node hcallee hts.2

end Lowering

end LispLowering
