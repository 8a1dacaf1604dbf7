import LispLowering.Proofs.Provenance.Functions

/-!
# Operators and data under watch
-/

namespace LispLowering.Lowering

open Node List

variable {w : Watch} {H : Prop} {lower : Lowerer} {Q : SExpr → Prop} {form : Form} {p : Option Position}

/-! ## Joining operands -/

theorem pending_undefined : undefined.Pending w := pending_ident (Watch.not_own (.inl rfl) (by decide))

section

variable {join : Node → Node → Node} {operands : List Node}
  (hjoin : ∀ left right, left.Allowed w → right.Allowed w → (join left right).Pending w) (hp : w.Known p)

include hjoin hp

theorem anchored_foldl_join : (rest : List Node) → (first : Node) → first.Anchored w →
    (∀ operand ∈ rest, operand.Anchored w) →
    (rest.foldl (fun left right => (join left right).place p) first).Anchored w
  | [], _, hfirst, _ => hfirst
  | operand :: rest, first, hfirst, hrest => by
    obtain ⟨hoperand, hrest⟩ := forall_mem_cons.mp hrest
    exact anchored_foldl_join rest _ ((hjoin _ _ hfirst.allowed hoperand.allowed).place hp) hrest

theorem anchored_joinLeft (h : ∀ operand ∈ operands, operand.Anchored w) :
    ∀ node ∈ joinLeft join p operands, node.Anchored w := by
  cases operands with
  | nil => nofun
  | cons first rest =>
    obtain ⟨hfirst, hrest⟩ := forall_mem_cons.mp h
    rintro _ ⟨⟩
    exact anchored_foldl_join hjoin hp rest first hfirst hrest

theorem anchored_joinRight (h : ∀ operand ∈ operands, operand.Anchored w) :
    ∀ node ∈ joinRight join p operands, node.Anchored w := by
  induction operands with
  | nil => nofun
  | cons first rest ih =>
    obtain ⟨hfirst, hrest⟩ := forall_mem_cons.mp h
    unfold joinRight
    split
    · rintro _ ⟨⟩
      exact hfirst
    · next right hright =>
      rintro _ ⟨⟩
      exact (hjoin _ _ hfirst.allowed (ih hrest right hright).allowed).place hp

end

theorem pending_getD {result : Option Node} {default : Node}
    (h : ∀ node ∈ result, node.Anchored w) (hdefault : default.Pending w) :
    (result.getD default).Pending w := by
  cases result with
  | none => exact hdefault
  | some node => exact (h node rfl).pending

theorem pending_binary (op : BinaryOp) (left right : Node) (hleft : left.Allowed w)
    (hright : right.Allowed w) : (binary op left right).Pending w :=
  pending rfl ⟨hleft, hright⟩

theorem pending_logical (op : LogicalOp) (left right : Node) (hleft : left.Allowed w)
    (hright : right.Allowed w) : (logical op left right).Pending w :=
  pending rfl ⟨hleft, hright⟩

theorem lowerJoined_traced (op : BinaryOp) : TracesForm w Q (lowerJoined · · op) := by
  intro lower form H h hp hargs
  refine .map (lowerValues_traced h hargs) (fun operands => ?_) fun _ _ hops =>
    pending_getD (anchored_joinLeft (pending_binary op) hp hops) pending_undefined
  rw [Form.position_erase, erase_joinLeft (binary op) (fun _ _ => rfl) form.position]
  cases joinLeft (binary op) form.position operands <;> rfl

theorem lowerLogical_traced (op : LogicalOp) (identity : Bool) :
    TracesForm w Q (lowerLogical · · op identity) := by
  intro lower form H h hp hargs
  refine .map (lowerValues_traced h hargs) (fun operands => ?_) fun _ _ hops =>
    pending_getD (anchored_joinLeft (pending_logical op) hp hops) (pending rfl trivial)
  rw [Form.position_erase, erase_joinLeft (logical op) (fun _ _ => rfl) form.position]
  cases joinLeft (logical op) form.position operands <;> rfl

/-! ## Comparisons -/

/-- The declarations and the tests of a chain are allowed, and the tests have positions. -/
structure Comparisons.Allowed (w : Watch) (chain : Comparisons) : Prop where
  declarations : AllowedIn w chain.declarations
  tests : ∀ test ∈ chain.tests, test.Anchored w

theorem compareFrom_traced (op : BinaryOp) (hp : w.Known p) {H : Prop} (left : Node)
    (operands : List Node) (hleft : H → left.Anchored w)
    (hops : H → ∀ operand ∈ operands, operand.Anchored w) :
    Traced w lower H Comparisons.erase (compareFrom op p left operands)
      (compareFrom op none left.erase (eraseAll operands)) (Comparisons.Allowed w) := by
  induction operands using List.twoStepInduction generalizing H left with
  | nil => exact .pure rfl fun _ => ⟨trivial, by simp⟩
  | singleton last =>
    refine .pure rfl fun hH => ⟨trivial, forall_mem_singleton.mpr ?_⟩
    exact (pending_binary op _ _ (hleft hH).allowed (hops hH last (by simp)).allowed).place hp
  | cons_cons operand next rest _ ih =>
    have hoperand (hH : H) : operand.Anchored w := hops hH operand (.head _)
    have hrest (hH : H) : ∀ one ∈ next :: rest, one.Anchored w := (forall_mem_cons.mp (hops hH)).2
    refine .ite (by rw [isRepeatable_erase]) ?_ ?_
    · refine .bind (ih next operand hoperand hrest) fun _ => .pure rfl ?_
      rintro ⟨hH, hlater⟩
      refine ⟨hlater.declarations, forall_mem_cons.mpr ⟨?_, hlater.tests⟩⟩
      exact (pending_binary op _ _ (hleft hH).allowed (hoperand hH).allowed).place hp
    · refine .bind (.fresh (by decide)) fun name => .bind (ih next ((ident name).place p)
        (fun hH => anchored_ident hH.2 hp) fun hH => hrest hH.1) fun _ => .pure rfl ?_
      rintro ⟨⟨hH, hname⟩, hlater⟩
      have hkept : ((ident name).place p).Allowed w := allowed_ident hname hp
      have hassign : ((assign ((ident name).place p) operand).place p).Allowed w :=
        allowed rfl hp ⟨hkept, (hoperand hH).allowed⟩
      refine ⟨⟨?_, hlater.declarations⟩, forall_mem_cons.mpr ⟨?_, hlater.tests⟩⟩
      · exact allowed rfl hp ⟨allowed rfl hp ⟨hkept, trivial⟩, trivial⟩
      · exact (pending_binary op _ _ (hleft hH).allowed hassign).place hp

theorem anchored_comparisonValue {chain : Comparisons} (hp : w.Known p) (suspension : Suspension)
    (h : chain.Allowed w) : (comparisonValue p suspension chain).Anchored w := by
  have hvalue : ((joinLeft (logical .and) p chain.tests).getD ((bool true).place p)).Anchored w := by
    have hjoined := anchored_joinLeft (pending_logical .and) hp h.tests
    cases hresult : joinLeft (logical .and) p chain.tests with
    | none => exact anchored rfl hp trivial
    | some node => exact hjoined node hresult
  have hreturn : Allowed w ⟨.returnStatement (some ((joinLeft (logical .and) p
      chain.tests).getD ((bool true).place p))), p⟩ :=
    allowed rfl hp hvalue.allowed
  unfold comparisonValue
  split
  · exact hvalue
  · exact anchored_wrapped (h.declarations.append (.single hreturn)) suspension hp

theorem lowerComparison_traced (op : BinaryOp) : TracesForm w Q (lowerComparison · · op) := by
  intro lower form H h hp hargs
  dsimp only [lowerComparison]
  rw [Form.position_erase]
  refine .bind (.tracking (lowerValues_traced h hargs)) fun ⟨operands, suspension⟩ => ?_
  cases operands with
  | nil => exact .pure rfl fun _ => pending_at rfl hp trivial
  | cons first rest =>
    exact .map (compareFrom_traced op hp first rest (fun hH => hH.2 first (.head _))
      fun hH => (forall_mem_cons.mp hH.2).2) (fun _ => erase_comparisonValue ..) fun _ _ hchain =>
        (anchored_comparisonValue hp suspension hchain).pending

/-! ## All operators -/

variable (h : LowersOn w Q lower) (hp : w.Known form.position)

include hp in
theorem withAtLeast_traced {α : Type} {f : α → α} {least : Nat} {m m' : Lower α} {R : α → Prop}
    (h : Traced w lower H f m m' R) :
    Traced w lower H f (withAtLeast form least m) (withAtLeast form.erase least m') R :=
  .ite (by simp [Form.erase]) (.refuseForm hp) h

include h in
theorem lowerUnary_traced (op : UnaryOp) {arg : SExpr} (harg : Q arg) :
    TracedNode w lower H (do return unary op (← lowerValue lower arg))
      (do return unary op (← lowerValue lower arg.erase)) :=
  .map (lowerValue_traced h harg) (fun _ => rfl) fun _ _ hvalue => pending rfl hvalue.allowed

theorem lowerOperator_traced (op : Operator) : TracesForm w Q (lowerOperator · · op) := by
  rintro lower ⟨node, name, args⟩ H h hp hargs
  have hjoined (op : BinaryOp) := lowerJoined_traced op (H := H) h hp hargs
  cases op with
  | add =>
    match args, hargs with
    | [], _ => exact .pure rfl fun _ => pending rfl trivial
    | [arg], hargs => exact lowerUnary_traced h .plus hargs.1
    | _ :: _ :: _, _ => exact hjoined .add
  | subtract =>
    match args, hargs with
    | [], _ => exact .refuseForm hp
    | [arg], hargs => exact lowerUnary_traced h .neg hargs.1
    | _ :: _ :: _, _ => exact hjoined .sub
  | multiply =>
    match args, hargs with
    | [], _ => exact .pure rfl fun _ => pending rfl trivial
    | [arg], hargs => exact Traced.pending (lowerValue_traced h hargs.1)
    | _ :: _ :: _, _ => exact hjoined .mul
  | divide => exact withAtLeast_traced hp (hjoined .div)
  | remainder => exact withAtLeast_traced hp (hjoined .mod)
  | power =>
    refine withAtLeast_traced hp (.map (lowerValues_traced h hargs) (fun operands => ?_) fun _ _ hops =>
        pending_getD (anchored_joinRight (pending_binary .pow) hp hops) pending_undefined)
    rw [Form.position_erase, erase_joinRight (binary .pow) (fun _ _ => rfl)
      (Form.position ⟨node, name, args⟩)]
    cases joinRight (binary .pow) (Form.position ⟨node, name, args⟩) operands <;> rfl
  | relation op =>
    match args, hargs with
    | [], _ | [_], _ | _ :: _ :: _ :: _, _ => exact .refuseForm hp
    | [left, right], hargs =>
      exact .bind (lowerValue_traced h hargs.1) fun _ => .bind (lowerValue_traced h hargs.2.1) fun _ =>
        .pure rfl fun ⟨⟨_, hleft⟩, hright⟩ => pending_binary op _ _ hleft.allowed hright.allowed
  | comparison op =>
    exact withAtLeast_traced hp (lowerComparison_traced op h hp hargs)
  | and => exact lowerLogical_traced .and true h hp hargs
  | or => exact lowerLogical_traced .or false h hp hargs
  | nullish =>
    exact withAtLeast_traced hp (lowerLogical_traced .nullish false h hp hargs)
  | unary op =>
    match args, hargs with
    | [], _ | _ :: _ :: _, _ => exact .refuseForm hp
    | [arg], hargs => exact lowerUnary_traced h op hargs.1

/-! ## Collections -/

theorem lowerVector_traced : TracesForm w Q lowerVector := fun _ _ _ h _ hargs =>
  .map (lowerArguments_traced h hargs) (fun _ => rfl) fun _ _ helems => pending rfl helems

theorem pending_newSet {arguments : List Node} (hgap : w.gaps .set) (h : AllowedIn w arguments) :
    (newSet arguments).Pending w := by
  have hclass : (ident "Set").Allowed w :=
    allowed_typedIdent (Watch.not_own (.inr (.inl rfl)) (by decide)) (.inr ⟨rfl, .inl ⟨.set, hgap, by decide⟩⟩)
  exact pending rfl ⟨hclass, h⟩

include h in
theorem lowerSet_traced (hgap : w.gaps .set) (hargs : SExpr.Each Q form.args) :
    TracedNode w lower H (lowerSet lower form) (lowerSet lower form.erase) :=
  .map (lowerArguments_traced h hargs) (fun _ => rfl) fun _ _ helems =>
    pending_newSet hgap (.single (allowed_gap rfl rfl hgap helems))

include hp in
theorem lowerEmpty_traced {node : Node} (herase : node.erase = node)
    (h : node.Pending w) : TracedNode w lower H (lowerEmpty form node) (lowerEmpty form.erase node) := by
  obtain ⟨_, name, args⟩ := form
  cases args with
  | nil => exact .pure herase fun _ => h
  | cons arg rest => exact .refuseForm hp

theorem lowerSpread_traced : TracesForm w Q lowerSpread := by
  rintro lower ⟨node, name, args⟩ H h hp hargs
  match args, hargs with
  | [], _ | _ :: _ :: _, _ => exact .refuseForm hp
  | [arg], hargs =>
    exact .map (lowerValue_traced h hargs.1) (fun _ => rfl) fun _ _ hvalue => pending rfl hvalue.allowed

include h in
theorem lowerEntry_traced {key value : SExpr} (hkey : Q key) (hvalue : Q value) :
    Traced w lower H erase (lowerEntry lower key value) (lowerEntry lower key.erase value.erase)
      (Anchored w) := by
  refine .bind (lowerValue_traced h hvalue) fun _ => ?_
  rw [directKey?_erase, SExpr.position_erase]
  cases directKey? key with
  | none =>
    exact .bind (lowerValue_traced h hkey) fun _ => .pure rfl fun ⟨⟨_, hvalue⟩, hkeyNode⟩ =>
      anchored rfl (h.known hkey) ⟨hvalue.allowed, hkeyNode.allowed⟩
  | some name =>
    refine .pure ?_ fun ⟨_, hvalue⟩ =>
      (hvalue.allowed.keyed hvalue.known name).pending.orPlace (h.known hkey)
    rw [erase_orPlace, erase_keyed, ← erase_keyed, orPlace_none_erase]

include h hp in
theorem lowerEntries_traced {H : Prop}
    (args : List SExpr) (hargs : SExpr.Each Q args) :
    Traced w lower H eraseAll (lowerEntries lower form args)
      (lowerEntries lower form.erase (args.map SExpr.erase))
      fun entries => ∀ entry ∈ entries, entry.Anchored w := by
  induction args using List.twoStepInduction generalizing H with
  | nil => exact .pure rfl fun _ => by simp
  | singleton last =>
    exact .ite (by rw [isSpread_erase]) (.map (lowerArgument_traced h hargs.1) (fun _ => rfl)
      fun _ _ hlast => forall_mem_singleton.mpr hlast) (.refusePart hp (h.known hargs.1))
  | cons_cons first second rest ihRest ihTail =>
    refine .ite (by rw [isSpread_erase]) ?_ ?_
    · exact .bind (lowerArgument_traced h hargs.1) fun _ => .bind (ihTail second hargs.2) fun _ =>
        .pure rfl fun hentry => forall_mem_cons.mpr ⟨hentry.1.2, hentry.2⟩
    · exact .bind (lowerEntry_traced h hargs.1 hargs.2.1) fun _ => .bind (ihRest hargs.2.2) fun _ =>
        .pure rfl fun hentry => forall_mem_cons.mpr ⟨hentry.1.2, hentry.2⟩

theorem lowerMap_traced : TracesForm w Q lowerMap := fun _ form _ h hp hargs =>
  .map (lowerEntries_traced h hp form.args hargs) (fun _ => rfl) fun _ _ hentries =>
    pending rfl (allowedIn_of_anchored hentries)

theorem lowerGet_traced : TracesForm w Q lowerGet := by
  rintro lower ⟨node, name, args⟩ H h hp hargs
  match args, hargs with
  | [], _ | [_], _ | _ :: _ :: _ :: _ :: _, _ => exact .refuseForm hp
  | [object, key], hargs =>
    exact .bind (lowerValue_traced h hargs.1) fun _ => .bind (lowerValue_traced h hargs.2.1) fun _ =>
      .pure rfl fun ⟨⟨_, hobject⟩, hkey⟩ => pending rfl ⟨hobject.allowed, hkey.allowed⟩
  | [object, key, fallback], hargs =>
    exact .bind (lowerValue_traced h hargs.1) fun _ => .bind (lowerValue_traced h hargs.2.1) fun _ =>
      .bind (lowerValue_traced h hargs.2.2.1) fun _ =>
        .pure (by rw [Form.position_erase]; rfl) fun ⟨⟨⟨_, hobject⟩, hkey⟩, hfallback⟩ =>
          pending rfl ⟨allowed rfl hp ⟨hobject.allowed, hkey.allowed⟩, hfallback.allowed⟩

theorem lowerConstruct_traced : TracesForm w Q lowerConstruct := by
  rintro lower ⟨node, name, args⟩ H h hp hargs
  match args, hargs with
  | [], _ => exact .refuseForm hp
  | callee :: args, hargs =>
    exact .bind (lowerValue_traced h hargs.1) fun _ => .bind (lowerArguments_traced h hargs.2) fun _ =>
      .pure rfl fun ⟨⟨_, hcallee⟩, hgiven⟩ => pending rfl ⟨hcallee.allowed, hgiven⟩

/-! ## Templates -/

theorem lowerTemplateParts_traced (h : LowersOn w Q lower) {H : Prop} : (parts : List SExpr) →
    SExpr.Each Q parts → Traced w lower H Template.erase (lowerTemplateParts lower parts)
      (lowerTemplateParts lower (parts.map SExpr.erase)) fun template =>
        AllowedIn w (template.rest.map Prod.fst)
  | [], _ => .pure rfl fun _ => trivial
  | part :: parts, hparts => by
    have hpart : Traced w lower H Template.erase
        (do
          let expression ← lowerValue lower part
          let template ← lowerTemplateParts lower parts
          return ⟨"", (expression, template.start) :: template.rest⟩)
        (do
          let expression ← lowerValue lower part.erase
          let template ← lowerTemplateParts lower (parts.map SExpr.erase)
          return ⟨"", (expression, template.start) :: template.rest⟩)
        fun template => AllowedIn w (template.rest.map Prod.fst) :=
      .bind (lowerValue_traced h hparts.1) fun _ =>
        .bind (lowerTemplateParts_traced h parts hparts.2) fun _ =>
          .pure rfl fun ⟨⟨_, hexpr⟩, htemplate⟩ => ⟨hexpr.allowed, htemplate⟩
    match part with
    | .literal (.string text) p =>
      exact .map (lowerTemplateParts_traced h parts hparts.2) (fun _ => rfl) fun _ _ htemplate => htemplate
    | .symbol _ _ | .list _ _ | .literal .null _ | .literal (.bool _) _ | .literal (.number _) _ =>
      exact hpart

theorem lowerTemplate_traced : TracesForm w Q lowerTemplate := fun _ form _ h _ hargs =>
  .map (lowerTemplateParts_traced h form.args hargs) (fun template => template.erase_node)
    fun _ _ htemplate => pending rfl htemplate

/-! ## Properties -/

include hp in
theorem propertyKey_traced {arg : SExpr} (harg : w.Known arg.position) :
    Traced w lower H id (propertyKey form arg) (propertyKey form.erase arg.erase) fun _ => True := by
  match arg with
  | .symbol _ _ | .literal (.string _) _ => exact .pure rfl fun _ => trivial
  | .list _ _ | .literal (.number _) _ | .literal (.bool _) _ | .literal .null _ =>
    exact .refusePart hp harg

theorem anchored_propertyAccess {object : Node} (h : object.Allowed w) (name : String)
    (hp : w.Known p) : (propertyAccess object name p).Anchored w := by
  unfold propertyAccess
  split
  · exact anchored rfl hp ⟨h, trivial⟩
  · exact anchored rfl hp ⟨h, allowed_literal hp⟩

theorem lowerPropertyCall_traced : TracesForm w Q lowerPropertyCall := by
  rintro lower ⟨node, name, args⟩ H h hp hargs
  match args, hargs with
  | [], _ | [_], _ => exact .refuseForm hp
  | receiver :: key :: args, hargs =>
    refine .bind (lowerValue_traced h hargs.1) fun receiver =>
      .bind (propertyKey_traced hp (h.known hargs.2.1)) fun key =>
        .bind (lowerArguments_traced h hargs.2.2) fun _ =>
          .pure ?_ fun ⟨⟨⟨_, hrecv⟩, _⟩, hgiven⟩ => pending rfl
            ⟨(anchored_propertyAccess hrecv.allowed _ hp).allowed, hgiven⟩
    rw [Form.position_erase, id, ← erase_propertyAccess receiver key (Form.position ⟨node, name, _⟩)]
    rfl

theorem lowerPropertyGet_traced : TracesForm w Q lowerPropertyGet := by
  rintro lower ⟨node, name, args⟩ H h hp hargs
  match args, hargs with
  | [], _ | [_], _ | _ :: _ :: _ :: _, _ => exact .refuseForm hp
  | [object, key], hargs =>
    refine .bind (lowerValue_traced h hargs.1) fun _ =>
      .bind (propertyKey_traced hp (h.known hargs.2.1)) fun _ =>
        .pure ?_ fun ⟨⟨_, hobject⟩, _⟩ => (anchored_propertyAccess hobject.allowed _ hp).pending
    rw [Form.position_erase]
    exact erase_propertyAccess ..

theorem lowerPropertySet_traced : TracesForm w Q lowerPropertySet := by
  rintro lower ⟨node, name, args⟩ H h hp hargs
  match args, hargs with
  | [], _ | [_], _ | [_, _], _ | _ :: _ :: _ :: _ :: _, _ => exact .refuseForm hp
  | [object, key, value], hargs =>
    refine .bind (lowerValue_traced h hargs.1) fun object =>
      .bind (propertyKey_traced hp (h.known hargs.2.1)) fun key =>
        .bind (lowerValue_traced h hargs.2.2.1) fun _ =>
          .pure ?_ fun ⟨⟨⟨_, hobject⟩, _⟩, hvalue⟩ => pending rfl
            ⟨(anchored_propertyAccess hobject.allowed _ hp).allowed, hvalue.allowed⟩
    rw [Form.position_erase, id, ← erase_propertyAccess object key (Form.position ⟨node, name, _⟩)]
    rfl

theorem allowedIn_getInvokeStatements {object : Node} {name receiverName memberName : String}
    (hobject : object.Allowed w) (hrecv : receiverName ∉ w.names)
    (hmember : memberName ∉ w.names) (hp : w.Known p) :
    AllowedIn w (getInvokeStatements object name receiverName memberName p) := by
  have hrecv : ((ident receiverName).place p).Allowed w := allowed_ident hrecv hp
  have hmember : ((ident memberName).place p).Allowed w := allowed_ident hmember hp
  have haccess := (anchored_propertyAccess hrecv name hp).allowed
  have htest : ((binary .strictEq ((unary .typeOf
      ((ident memberName).place p)).place p) ((string "function").place p)).place p).Allowed w :=
    allowed rfl hp ⟨allowed rfl hp hmember, allowed_literal hp⟩
  have hcalled : ((call ((member ((ident memberName).place p) "call").place p)
      [(ident receiverName).place p]).place p).Allowed w :=
    allowed rfl hp ⟨allowed rfl hp ⟨hmember, trivial⟩, hrecv, trivial⟩
  have hresult : Allowed w ⟨.returnStatement (some ((conditional
      ((binary .strictEq ((unary .typeOf ((ident memberName).place p)).place p)
        ((string "function").place p)).place p)
      ((call ((member ((ident memberName).place p) "call").place p)
        [(ident receiverName).place p]).place p)
      ((ident memberName).place p)).place p)), p⟩ :=
    allowed rfl hp (allowed rfl hp ⟨htest, hcalled, hmember⟩)
  exact ⟨allowed rfl hp ⟨allowed rfl hp ⟨hrecv, hobject⟩, trivial⟩,
    allowed rfl hp ⟨allowed rfl hp ⟨hmember, haccess⟩, trivial⟩, hresult, trivial⟩

theorem lowerGetInvoke_traced : TracesForm w Q lowerGetInvoke := by
  rintro lower ⟨node, name, args⟩ H h hp hargs
  match args, hargs with
  | [], _ | [_], _ | _ :: _ :: _ :: _, _ => exact .refuseForm hp
  | [object, key], hargs =>
    refine .bind (.tracking (lowerValue_traced h hargs.1)) fun ⟨object, suspension⟩ =>
      .bind (propertyKey_traced hp (h.known hargs.2.1)) fun _ =>
        .bind (.fresh (by decide)) fun _ => .bind (.fresh (by decide)) fun _ =>
          .pure ?_ fun ⟨⟨⟨⟨_, hobject⟩, _⟩, hrecv⟩, hmember⟩ => (anchored_wrapped
            (allowedIn_getInvokeStatements hobject.allowed hrecv hmember hp) _ hp).pending
    rw [erase_wrapped, erase_getInvokeStatements, Form.position_erase]
    rfl

/-! ## Quotations -/

mutual

theorem anchored_quoted : (t : SExpr) → t.Suits w → (quoted t).Anchored w
  | .symbol _ _, h => anchored rfl h.position trivial
  | .literal _ _, h => anchored rfl h.position trivial
  | .list items _, h => anchored rfl h.position (allowedIn_quotedItems items h.items)

theorem allowedIn_quotedItems : (items : List SExpr) → (∀ item ∈ items, item.Suits w) →
    AllowedIn w (quotedItems items)
  | [], _ => trivial
  | item :: rest, h =>
    have hitems := forall_mem_cons.mp h
    ⟨(anchored_quoted item hitems.1).allowed, allowedIn_quotedItems rest hitems.2⟩

end

include hp in
theorem lowerQuote_traced (hargs : SExpr.SuitIn w form.args) :
    TracedNode w lower H (lowerQuote form) (lowerQuote form.erase) := by
  obtain ⟨node, name, args⟩ := form
  match args, hargs with
  | [], _ | _ :: _ :: _, _ => exact .refuseForm hp
  | [tree], hargs => exact .pure (erase_quoted tree) fun _ => (anchored_quoted tree hargs.1).pending

mutual

theorem quasi_traced (h : LowersSourced w lower) {H : Prop} : (depth : Nat) → (t : SExpr) →
    t.Suits w → Traced w lower H erase (quasi lower depth t) (quasi lower depth t.erase)
      (Anchored w)
  | _, .symbol name p, ht => .pure rfl fun _ => anchored_quoted (.symbol name p) ht
  | _, .literal value p, ht => .pure rfl fun _ => anchored_quoted (.literal value p) ht
  | depth, .list items p, ht => by
    have hlist : Traced w lower H erase
        (do return (array (← quasiItems lower depth items)).place p)
        (do return (array (← quasiItems lower depth (items.map SExpr.erase))).place none)
        (Anchored w) :=
      .map (quasiItems_traced h depth items ht.items) (fun _ => rfl) fun _ _ helems =>
        anchored rfl ht.position helems
    have hitems := ht.items
    rw [SExpr.erase_list]
    match items with
    | [] | [_] | _ :: _ :: _ :: _ => exact hlist
    | [head, tree] =>
      have htree : tree.Suits w := hitems tree (by simp)
      have hhead : (quoted head).Allowed w := (anchored_quoted head (hitems head (by simp))).allowed
      have hinner (depth : Nat) (hquasi : Traced w lower H erase (quasi lower depth tree)
          (quasi lower depth tree.erase) (Anchored w)) : Traced w lower H erase
            (do return (array [quoted head, ← quasi lower depth tree]).place p)
            (do return (array [quoted head.erase, ← quasi lower depth tree.erase]).place none)
            (Anchored w) :=
        .map hquasi (fun _ => by rw [← erase_quoted]; rfl) fun _ _ hinner =>
          anchored rfl ht.position ⟨hhead, hinner.allowed, trivial⟩
      simp only [map_cons, map_nil, quasi, QuoteMark.ofHead_erase]
      cases QuoteMark.ofHead head with
      | unquote =>
        exact .ite Iff.rfl (lowerValue_traced h htree) (hinner (depth - 1) (quasi_traced h _ tree htree))
      | quasiquote => exact hinner (depth + 1) (quasi_traced h _ tree htree)
      | splice => exact .ite Iff.rfl (.fault ht.position.1) hlist
      | none => exact hlist

theorem quasiItems_traced (h : LowersSourced w lower) {H : Prop} : (depth : Nat) →
    (items : List SExpr) → (∀ item ∈ items, item.Suits w) →
    Traced w lower H eraseAll (quasiItems lower depth items)
      (quasiItems lower depth (items.map SExpr.erase)) (AllowedIn w)
  | _, [], _ => .pure rfl fun _ => trivial
  | depth, item :: rest, hitems => by
    obtain ⟨hitem, hrest⟩ := forall_mem_cons.mp hitems
    have hthen {K : Prop} (element : Node) (hK : K → element.Anchored w) : Traced w lower K eraseAll
          (do return element :: (← quasiItems lower depth rest))
          (do return element.erase :: (← quasiItems lower depth (rest.map SExpr.erase)))
          (AllowedIn w) :=
      .map (quasiItems_traced h depth rest hrest) (fun _ => rfl) fun hH _ helems =>
        ⟨(hK hH).allowed, helems⟩
    have hplain : Traced w lower H eraseAll
        (quasi lower depth item >>= fun element => do
          return element :: (← quasiItems lower depth rest))
        (quasi lower depth item.erase >>= fun element => do
          return element :: (← quasiItems lower depth (rest.map SExpr.erase))) (AllowedIn w) :=
      .bind (quasi_traced h depth item hitem) fun element => hthen element fun hH => hH.2
    simp only [map_cons, quasiItems, spliced?_erase, SExpr.position_erase]
    cases hspliced : spliced? item with
    | none => exact hplain
    | some tree =>
      match depth with
      | 1 =>
        refine .bind (lowerValue_traced h (spliced?_of SExpr.hereditary_suits hitem hspliced)) fun _ =>
          .bindPure ?_
        exact hthen _ fun hH => anchored rfl hitem.position hH.2.allowed
      | 0 | _ + 2 => exact hplain

end

theorem lowerQuasiquote_traced : TracesForm w (SExpr.Suits w) lowerQuasiquote := by
  rintro lower ⟨node, name, args⟩ H h hp hargs
  match args, hargs with
  | [], _ | _ :: _ :: _, _ => exact .refuseForm hp
  | [tree], hargs => exact Traced.pending (quasi_traced h 1 tree hargs.1)

end LispLowering.Lowering
