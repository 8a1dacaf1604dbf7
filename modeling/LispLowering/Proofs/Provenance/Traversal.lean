import LispLowering.Proofs.Provenance.Declarations

/-!
# Trees under watch
-/

namespace LispLowering.Lowering

open SExpr Node

variable {w : Watch} {H : Prop} {lower : Lowerer} {Q : SExpr → Prop} {form : Form} {special : SpecialForm}
  {args : List SExpr}

/-! ## Forms -/

theorem lowerSpecial_traced (h : LowersSourced w lower) (hQ : LowersOn w Q lower)
    (hp : w.Known form.position)
    (hargs : bif special.takesValues then Each Q form.args else SuitIn w form.args)
    (hparts : special.hasParams = true → SuitParts w form.args)
    (hgaps : ∀ gap ∈ specialGaps special form.args, w.gaps gap)
    (hjump : special = .recur → ¬w.Jumpless) :
    TracedNode w lower H (lowerSpecial lower form special) (lowerSpecial lower form.erase special) := by
  cases special with
  | binding kind =>
    refine lowerBinding_traced h hp h kind fun target rest heq => ?_
    have hall : SuitIn w (target :: rest) := heq ▸ hargs
    exact .of_suits hall.1 hall.2
  | assignment => exact lowerAssignment_traced h hp hargs
  | function => exact lowerFunction_traced h hp false false (hparts rfl)
  | generator => exact lowerFunction_traced h hp false true (hparts rfl)
  | async => exact lowerAsync_traced h hp (hparts rfl) hgaps
  | arrow => exact lowerArrow_traced h hp false hargs hgaps
  | returning => exact lowerReturn_traced hQ hp hargs
  | yielding delegate => exact lowerYield_traced delegate hQ hp hargs
  | awaiting => exact lowerAwait_traced hQ hp hargs
  | branch =>
    exact lowerIf_traced hQ hp hargs fun hlength => hgaps _ (by simp [specialGaps, hlength])
  | cond => exact lowerCond_traced h hp (hargs.imp fun _ => .of_suits) hgaps
  | sequence => exact lowerDo_traced hQ hp hargs
  | throwing => exact lowerThrow_traced hQ hp hargs
  | trying =>
    have hall : SuitIn w form.args := hargs
    exact lowerTry_traced h hp h (hall.subset (List.takeWhile_subset _))
      ((hall.subset (List.dropWhile_subset _)).imp fun _ ht => ⟨ht.position, fun _ => .of_suits ht⟩)
      (hgaps _ (.head _))
  | switching => exact lowerSwitch_traced h hp hargs (hgaps _ (.head _))
  | label => exact lowerLabel_traced h hp hargs (hgaps _ (.head _))
  | loop => exact lowerLoop_traced h hp hargs
  | recur => exact lowerRecur_traced (hjump rfl) hQ hp hargs
  | whileLoop => exact lowerWhile_traced hQ hp hargs
  | forLoop => exact lowerFor_traced h hp hargs
  | forOf awaits => exact lowerForOf_traced awaits h hp hargs
  | forIn => exact lowerForIn_traced h hp hargs
  | breaking => exact lowerJump_traced (fun _ => rfl) (fun label _ => pending_break label) hp hargs
  | continuing => exact lowerJump_traced (fun _ => rfl) (fun _ hlabel => pending_continue hlabel) hp hargs
  | vector => exact lowerVector_traced hQ hp hargs
  | emptyArray => exact lowerEmpty_traced hp rfl (pending rfl trivial)
  | map => exact lowerMap_traced hQ hp hargs
  | emptyMap => exact lowerEmpty_traced hp rfl (pending rfl trivial)
  | set => exact lowerSet_traced hQ (hgaps _ (.head _)) hargs
  | emptySet => exact lowerEmpty_traced hp rfl (pending_newSet (hgaps _ (.head _)) trivial)
  | get => exact lowerGet_traced hQ hp hargs
  | construct => exact lowerConstruct_traced hQ hp hargs
  | template => exact lowerTemplate_traced hQ hp hargs
  | spread => exact lowerSpread_traced hQ hp hargs
  | methodCall => exact lowerPropertyCall_traced hQ hp hargs
  | propertyGet => exact lowerPropertyGet_traced hQ hp hargs
  | propertySet => exact lowerPropertySet_traced hQ hp hargs
  | getInvoke => exact lowerGetInvoke_traced hQ hp hargs
  | quote => exact lowerQuote_traced hp hargs
  | quasiquote => exact lowerQuasiquote_traced h hp hargs
  | unquote => exact .refuseForm hp
  | classForm => exact lowerClass_traced h hp hargs
  | enumForm => exact lowerEnum_traced h hp hargs
  | typeAlias => exact lowerTypeAlias_traced hp hargs
  | interface => exact lowerInterface_traced hp hargs
  | typeAssertion => exact lowerTypeAssertion_traced h hp hargs
  | importing => exact lowerImport_traced hp hargs hgaps
  | exporting => exact lowerExport_traced h hp hargs hgaps
  | dynamicImport => exact lowerDynamicImport_traced hQ hp hargs
  | operator op => exact lowerOperator_traced op hQ hp hargs

theorem lowerSpecial_suited (h : LowersSourced w lower) {name : String} {p q : Option Position}
    (ht : (SExpr.list (.symbol name q :: args) p).Suits w)
    (hspecial : HeadMeaning.ofName name = .special special) :
    TracedNode w lower H (lowerSpecial lower ⟨.list (.symbol name q :: args) p, name, args⟩ special)
      (lowerSpecial lower (Form.erase ⟨.list (.symbol name q :: args) p, name, args⟩) special) := by
  have hgaps : ∀ gap ∈ specialGaps special args, w.gaps gap := fun gap hgap =>
    ht.formGaps gap (List.mem_append_left _ (by simpa only [hspecial] using hgap))
  have htree := ht.trees _ (mem_subtrees_self _)
  refine lowerSpecial_traced h h ht.position (by cases special.takesValues <;> exact ht.itemsIn.2)
    (fun hparams => ht.parts (mem_functionHeads hspecial hparams)) hgaps ?_
  rintro rfl hw
  exact hw name q args p htree hspecial

theorem Traced.placed {m m' : Lower Node} (hp : w.Known p) (h : TracedNode w lower H m m') :
    Traced w lower H eraseOption (do return some ((← m).orPlace p))
      (do return some ((← m').orPlace none)) fun result => ∀ node ∈ result, node.Anchored w := by
  refine .map h (fun _ => by simp) fun _ _ hnode => ?_
  rintro _ ⟨⟩
  exact hnode.orPlace hp

theorem lowerNamed_traced (h : LowersSourced w lower) {name : String} {q : Option Position}
    (ht : (SExpr.list (.symbol name q :: args) p).Suits w) :
    Traced w lower H eraseOption (lowerNamed lower (.list (.symbol name q :: args) p) name q args)
      (lowerNamed lower (SExpr.list (.symbol name q :: args) p).erase name none (args.map erase))
      fun result => ∀ node ∈ result, node.Anchored w := by
  have hitems := ht.itemsIn
  unfold lowerNamed
  cases hspecial : HeadMeaning.ofName name with
  | special special => exact Traced.placed ht.position (lowerSpecial_suited h ht hspecial)
  | dropped => exact .pure rfl fun _ => nofun
  | called =>
    exact Traced.placed ht.position (Traced.pending
      (lowerNamedCall_traced h hitems.1.symbol hitems.1.position ht.position hitems.2))

theorem lowerList_traced (h : LowersSourced w lower) {items : List SExpr}
    (ht : (SExpr.list items p).Suits w) : Traced w lower H eraseOption (lowerList lower items p)
      (lowerList lower (items.map erase) none) fun result => ∀ node ∈ result, node.Anchored w := by
  match items, ht with
  | [], ht =>
    refine .pure rfl fun _ => ?_
    rintro _ ⟨⟩
    exact anchored rfl ht.position trivial
  | .symbol name q :: args, ht =>
    have hnamed {K : Prop} := lowerNamed_traced (H := K) h ht
    rw [erase_list] at hnamed
    exact ⟨.inForm name ht.position hnamed.sourced, fun he =>
      .inForm name p none ((hnamed (K := True)).erases he)⟩
  | .literal value q :: args, ht => exact .fault (ht.position.or ht.itemsIn.1.position.1).1
  | .list inner q :: args, ht =>
    have happlied := lowerApplied_traced (H := H) h ht.itemsIn.1 ht.position ht.itemsIn.2
    refine .map happlied (fun _ => rfl) fun _ _ hnode => ?_
    rintro _ ⟨⟩
    exact hnode

/-! ## Trees -/

theorem LowersOn.of_suits (h : ∀ (H : Prop) (t : SExpr), t.Suits w → Sourced w H (lower t)
    fun result => ∀ node ∈ result, node.Anchored w) : LowersSourced w lower :=
  ⟨fun ht => ht.position, fun ht => ht.symbol,
    fun ht hspread => spreadTarget?_of hereditary_suits ht hspread, h⟩

theorem lowerWithin_sourced (fuel : Nat) : LowersSourced w (lowerWithin fuel) := by
  have hliteral (H : Prop) {value : Literal} {p : Option Position}
      (ht : (SExpr.literal value p).Suits w) : Sourced w H
        (pure (some ((Node.literal value).place p))) fun result => ∀ node ∈ result, node.Anchored w := by
    refine .pure fun _ => ?_
    rintro _ ⟨⟩
    exact anchored rfl ht.position trivial
  have hsymbol (H : Prop) {name : String} {p : Option Position}
      (ht : (SExpr.symbol name p).Suits w) : Sourced w H
        (do return some (← Lower.ofExcept (reference name p)))
        fun result => ∀ node ∈ result, node.Anchored w := by
    refine .map (.ofExcept (reference_sourced ht.symbol (.inl rfl) ht.position)) fun _ _ hnode => ?_
    rintro _ ⟨⟩
    exact hnode
  induction fuel with
  | zero =>
    refine LowersOn.of_suits fun H t ht => ?_
    cases t with
    | symbol name p => exact hsymbol H ht
    | literal value p => exact hliteral H ht
    | list items p => exact .pure fun _ => nofun
  | succ fuel ih =>
    refine LowersOn.of_suits fun H t ht => ?_
    cases t with
    | symbol name p => exact hsymbol H ht
    | literal value p => exact hliteral H ht
    | list items p => exact (lowerList_traced ih ht).sourced

theorem lower_sourced : LowersSourced w Lowering.lower :=
  LowersOn.of_suits fun H t ht => (lowerWithin_sourced t.depth).lowers H t ht

theorem lower_allowed {t : SExpr} {c d : Context} {node : Node} (ht : t.Suits w) (hc : c.Unwatched w)
    (hhidden : w.Hidden c.nextFresh d.nextFresh) (hrun : Lowering.lower t c = .ok (some node) d) :
    d.Unwatched w ∧ node.Anchored w := by
  obtain ⟨hd, hnode⟩ := (lower_sourced.lowers True t ht).run hrun hc hhidden
  exact ⟨hd, hnode node rfl⟩

end LispLowering.Lowering
