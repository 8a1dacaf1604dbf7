import LispLowering.Proofs.Composition.Control

/-!
# What classes, enumerations, imports and exports are made of
-/

namespace LispLowering.Lowering

open List TypeExpr

open SExpr (Each)

variable {P : Comparison} {stored : Node → Prop} {form : Form} {t : SExpr}
  {ts : List SExpr}

/-! ## Types -/

theorem lowerTypeAlias_calm : Calm (Gives .any [] {}) (lowerTypeAlias form) := by
  unfold lowerTypeAlias
  split
  · exact .bind (.symbolIn form _ _) fun _ _ =>
      .bind (.ofExcept (read_faultless _)) fun _ _ => .pure (.hold rfl .nil)
  · exact .fault rfl

theorem readMember_calm (readonly : Bool) (key typeNode : SExpr) :
    Calm (fun _ => True) (readMember form readonly key typeNode) := by
  cases key with
  | symbol _ _ => exact .bind (.ofExcept (read_faultless _)) fun _ _ => .pure trivial
  | literal | list => exact .fault rfl

theorem readInterfaceMember_calm (entry : SExpr) :
    Calm (fun _ => True) (readInterfaceMember form entry) := by
  unfold readInterfaceMember
  split
  · exact .ite (readMember_calm true _ _) (.fault rfl)
  · exact readMember_calm false _ _
  · exact .fault rfl

theorem readInterfaceParts_calm (ts : List SExpr) : Calm (fun _ => True) (readInterfaceParts form ts) := by
  induction ts with
  | nil => exact .pure trivial
  | cons entry rest ih =>
    refine .ite (.bind (.ofExcept (readAll_faultless _)) fun _ _ =>
      .bind ih fun _ _ => .pure trivial) ?_
    exact .bind (readInterfaceMember_calm entry) fun _ _ => .bind ih fun _ _ => .pure trivial

theorem lowerInterface_calm : Calm (Gives .any [] {}) (lowerInterface form) :=
  .bind (.symbolIn form _ _) fun _ _ =>
    .bind (readInterfaceParts_calm _) fun _ _ => .pure (.hold rfl .nil)

/-! ## Imports -/

theorem readNames_calm (linkage : Linkage) (names : List SExpr) :
    Calm (fun _ => True) (readNames form linkage names) := by
  fun_induction readNames form linkage names with
  | case1 | case2 => exact .pure trivial
  | case3 _ _ _ _ _ _ _ ih => exact .bind ih fun _ _ => .pure trivial
  | case4 => exact .fault rfl
  | case5 _ _ _ _ _ ih => exact .bind ih fun _ _ => .pure trivial
  | case6 => exact .fault rfl

theorem builtAll_of_nil {slot : Slot} {nodes : List Node} (h : ∀ node ∈ nodes, Built [] slot node) :
    BuiltAll [] (slot.all nodes) := by
  induction nodes with
  | nil => exact .nil
  | cons node rest ih =>
    rw [forall_mem_cons] at h
    exact .skip h.1 (ih h.2)

theorem importSpecifiers_calm (binding : SExpr) :
    Calm (fun specifiers => BuiltAll [] (Slot.specifier.all specifiers))
      (importSpecifiers form binding) := by
  unfold importSpecifiers
  split
  · exact .pure (.one (.hold rfl .nil))
  · refine .bind (readNames_calm _ _) fun _ _ => .pure ?_
    refine builtAll_of_nil fun _ hnode => ?_
    obtain ⟨linked, -, rfl⟩ := mem_map.mp hnode
    exact .hold rfl .nil

theorem importFrom_calm {specifiers : List Node} (source : SExpr)
    (hspecs : BuiltAll [] (Slot.specifier.all specifiers)) :
    Calm (Gives .any [] {}) (importFrom form specifiers source) := by
  unfold importFrom
  split
  · exact .get (fun _ _ _ _ => rfl) fun _ => .pure (.hold rfl hspecs)
  · exact .fault rfl

theorem lowerImport_calm : Calm (Gives .any [] {}) (lowerImport form) := by
  unfold lowerImport
  split
  · exact importFrom_calm _ .nil
  · exact .ite (.bind (importSpecifiers_calm _) fun _ hspecs => importFrom_calm _ hspecs)
      (.fault rfl)
  · exact .fault rfl

theorem lowerDynamicImport_performs : P.PerformsForm stored .dynamicImport := by
  rintro ⟨node, name, args⟩ hargs
  dsimp only [Comparison.Performs, lowerSpecial, lowerDynamicImport]
  split
  · exact .get (fun _ _ _ _ => rfl) fun _ => .pure (.hold rfl (.one ((Built.string _).place _)))
  · next arg hpath =>
    rw [specialScript, templateScript.eq_3 _ _ hpath]
    exact .map (.value hargs.1) fun _ _ _ hsource => .hold rfl (.one hsource)
  · exact .fault rfl

theorem lowerTypeAssertion_performs : P.PerformsForm stored .typeAssertion := by
  rintro ⟨node, name, _ | ⟨expression, _ | ⟨typeNode, _ | _⟩⟩⟩ hargs
  iterate 2 exact .fault rfl
  · refine .settle (.value hargs.1) fun _ _ _ hexpr => ?_
    exact .bind (.ofExcept (read_faultless _)) fun _ _ => .pure (.hold rfl (.one hexpr))
  · exact .fault rfl

/-! ## Exports -/

theorem isStatement_of_isDeclaration {node : Node} (h : isDeclaration node = true) :
    node.isStatement = true := by
  obtain ⟨kind, p⟩ := node
  cases kind <;> first | rfl | cases h

theorem exportDeclaration_performs (ht : P.trees t) :
    P.Performs stored (.visit .statement t .done) (exportDeclaration · form t) (Gives .any) := by
  refine .settle (.plain ht) fun node _ _ hleaves => ?_
  cases node with
  | none => exact .fault rfl
  | some node =>
    subst hleaves
    dsimp only
    split
    · next hdecl =>
      have hnode : Built [.node node] .statement node :=
        .narrow (isStatement_of_isDeclaration hdecl) (.node node)
      exact .pure (.hold rfl (.one hnode))
    · exact .fault rfl

theorem lowerExport_performs : P.PerformsForm stored .exporting := by
  rintro ⟨node, name, _ | ⟨first, _ | ⟨value, _ | _⟩⟩⟩ hargs
  · exact .fault rfl
  · dsimp only [Comparison.Performs, lowerSpecial, lowerExport, specialScript, exportScript]
    split
    · refine .after (readNames_calm _ _) fun _ _ => .pure (.hold rfl ?_)
      refine builtAll_of_nil fun _ hnode => ?_
      obtain ⟨linked, -, rfl⟩ := mem_map.mp hnode
      exact .hold rfl .nil
    · exact exportDeclaration_performs hargs.1
  · exact .ite (.map (.value hargs.2.1) fun _ _ _ h => .hold rfl (.one h)) (.fault rfl)
  · exact .fault rfl

/-! ## Classes -/

theorem lowerMethod_performs {shape : MethodShape} (hshape : shape.All P.trees) (static : Bool)
    (p : Option Position) : P.Performs stored (paramsScript none shape.params shape.body)
      (lowerMethod · shape static p) (Gives .classMember) := by
  refine .after (.ofSyntax _) fun _ hread => ?_
  simp only [paramsScript, hread]
  refine .ite (.fault rfl) (.map (.function _ rfl rfl rfl (defaults_trees hread hshape.params)
    hshape.body (by simp) Bool.noConfusion) ?_)
  intro f leaves _ hleaves
  subst hleaves
  exact .define rfl rfl

theorem lowerMember_performs (ht : P.trees t) (static : Bool) :
    P.Performs stored (memberScript t) (lowerMember · form t static) (Gives .classMember) := by
  unfold Comparison.Performs lowerMember
  split
  · next head q parts p =>
    have hparts := (P.shown.hereditary.each ht).2
    dsimp only [memberScript]
    split
    · cases hfield : fieldShape? head parts with
      | none => exact .fault rfl
      | some field =>
        exact .map (lowerOption_performs (fieldShape?_of hparts hfield)) fun _ _ _ hvalue => .hold rfl hvalue
    · cases hshape : methodShape? head parts with
      | none => exact .fault rfl
      | some shape => exact lowerMethod_performs (methodShape?_of hparts hshape) static p
  · exact .fault rfl

def ClassParts.slots (parts : ClassParts) : List (Slot × Node) :=
  Slot.expression.all parts.parent.toList ++ Slot.classMember.all parts.members

theorem addMember_performs (name : String) {parts : ClassParts} {leaves : List Leaf}
    (hparts : BuiltAll leaves parts.slots) (ht : P.trees t) (static : Bool) :
    P.Performs stored (memberScript t) (addMember · form name parts t static)
      fun leaves' _ result => BuiltAll (leaves ++ leaves') result.slots := by
  refine .settle (lowerMember_performs ht static) fun _ _ _ hlowered => ?_
  refine .ite (.fault rfl) (.pure ?_)
  unfold ClassParts.slots
  rw [Slot.all_append, ← append_assoc]
  exact hparts.append (.one hlowered)

theorem lowerClassParts_performs (name : String) (parts : ClassParts) (leaves : List Leaf)
    (hparts : BuiltAll leaves parts.slots) (hts : Each P.trees ts) :
    P.Performs stored (.each classClauseScript ts)
      (lowerClassParts · form name parts ts)
      fun leaves' _ result => BuiltAll (leaves ++ leaves') result.slots := by
  induction ts generalizing parts leaves with
  | nil => exact .pure (by simpa using hparts)
  | cons clause rest ih =>
    have hrest {parts : ClassParts} {leaves' : List Leaf} (h : BuiltAll (leaves ++ leaves') parts.slots) :
        P.Performs stored (.each classClauseScript rest)
          (lowerClassParts · form name parts rest)
          fun leaves'' _ result => BuiltAll (leaves ++ (leaves' ++ leaves'')) result.slots := by
      simp only [← append_assoc]
      exact ih parts _ h hts.2
    unfold Comparison.Performs lowerClassParts Script.each classClauseScript
    split
    · dsimp only
      split
      · exact .fault rfl
      · next hparent =>
        split
        · next head base p _ =>
          refine .bind (.value (P.shown.hereditary.each hts.1).2.1) fun _ _ _ hbase => hrest ?_
          obtain ⟨parent', hasConstructor, members⟩ := parts
          obtain rfl : parent' = none := by simpa using hparent
          refine .regroup (fun _ => ?_) (BuiltAll.cons hbase hparts)
          simp only [mem_append, or_comm]
        · exact .fault rfl
    · dsimp only
      cases hstatic : staticMember? clause with
      | some inner =>
        have hinner := staticMember?_of P.shown.hereditary hts.1 hstatic
        exact .bind (addMember_performs name hparts hinner true) fun _ _ _ h => hrest h
      | none => exact .bind (addMember_performs name hparts hts.1 false) fun _ _ _ h => hrest h

theorem lowerClass_performs : P.PerformsForm stored .classForm := fun form hargs =>
  .after (.symbolIn form _ _) fun name _ =>
    .map (lowerClassParts_performs name {} [] .nil (hargs.subset (tail_subset _))) fun _ _ _ hparts => .hold rfl hparts

/-! ## Enumerations -/

def caseSlots (one : EnumCase) : List (Slot × Node) :=
  Slot.expression.all one.rawValue.toList ++ Slot.expression.all one.associated

theorem lowerCaseValues_performs (clause : SExpr) (name : String) (hts : Each P.trees ts) :
    P.Performs stored (caseValuesScript ts) (lowerCaseValues · form clause name ts)
      fun leaves _ carried => BuiltAll leaves
        (Slot.expression.all carried.raw.toList ++ Slot.expression.all carried.associated) := by
  unfold Comparison.Performs lowerCaseValues
  split
  · exact .map (.value hts.1) fun _ _ _ hraw => .one hraw
  · next hvalues =>
    rw [caseValuesScript.eq_2 _ hvalues]
    split
    · next hsymbols =>
      have hdone : Script.each (fun _ => .done) ts = .done := by
        clear hvalues hsymbols hts
        induction ts with
        | nil => rfl
        | cons value rest ih => exact ih
      have heach : P.Performs stored (.each (fun _ => .done) ts)
          (fun lower => Lower.each (lowerTarget lower) ts) (GivesAll .expression) := by
        refine .each fun value hvalue => ?_
        have hsymbol := all_eq_true.mp hsymbols value hvalue
        cases value with
        | symbol name p =>
          rw [← targetScript_symbol name p]
          exact (lowerTarget_performs (SExpr.each_iff.mp hts _ hvalue)).weaken fun _ _ _ h => h.1
        | literal | list => cases hsymbol
      rw [hdone] at heach
      exact .map heach fun _ _ _ hassoc => hassoc
    · exact .fault rfl

theorem lowerCase_performs (ht : P.trees t) :
    P.Performs stored (caseScript t) (lowerCase · form t)
      fun leaves _ one => BuiltAll leaves (caseSlots one) := by
  unfold Comparison.Performs lowerCase
  split
  · next nameNode values p =>
    cases nameNode with
    | literal | list => exact .fault rfl
    | symbol name q =>
      exact .map (lowerCaseValues_performs _ name (P.shown.hereditary.each ht).2.2) fun _ _ _ hcarried => hcarried
  · exact .fault rfl

theorem lowerCases_performs (enumName : String) (seen : List String) (hts : Each P.trees ts) :
    P.Performs stored (.each caseScript ts) (lowerCases · form enumName seen ts)
      fun leaves _ cases => BuiltAll leaves (cases.flatMap caseSlots) := by
  induction ts generalizing seen with
  | nil => exact .pure .nil
  | cons clause rest ih =>
    refine .bind (lowerCase_performs hts.1) fun _ _ _ hone => .ite (.fault rfl) ?_
    refine .map (ih _ hts.2) fun _ _ _ hothers => ?_
    exact hone.append hothers

theorem lowerEnum_performs : P.PerformsForm stored .enumForm := fun form hargs =>
  .after (.symbolIn form _ _) fun _ _ =>
    .settle (lowerCases_performs _ [] (hargs.subset (tail_subset _))) fun _ _ _ hcases => .ite (.fault rfl) (.pure (.hold rfl hcases))

end LispLowering.Lowering
