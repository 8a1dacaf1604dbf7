import LispLowering.Proofs.Provenance.Data

/-!
# Declarations under watch
-/

namespace LispLowering.Lowering

open Node SExpr List TypeExpr

variable {w : Watch} {H : Prop} {lower : Lowerer} {Q : SExpr → Prop} {form : Form} {p : Option Position}
  {shape : MethodShape}
  {clauses parts : List SExpr}

/-! ## Methods -/

/-- The parameters and the body of a method are fit for being lowered under the watch. -/
abbrev MethodShape.Suits (w : Watch) (shape : MethodShape) : Prop :=
  SuitParts w (shape.params :: shape.body)

theorem namedMethod?_suits {kind : MethodKind} {isAsync isGenerator : Bool} (hparts : SuitParts w parts)
    (hshape : namedMethod? kind isAsync isGenerator parts = some shape) : shape.Suits w := by
  unfold namedMethod? at hshape
  split at hshape
  · cases hshape
    exact hparts.behind_symbol
  · cases hshape

theorem methodShape?_suits {head : String} {p q : Option Position}
    (h : (SExpr.list (.symbol head q :: parts) p).Suits w)
    (hshape : methodShape? head parts = some shape) : shape.Suits w := by
  unfold methodShape? at hshape
  split at hshape
  · split at hshape
    · cases hshape
      exact h.parts (by decide)
    · cases hshape
  · exact namedMethod?_suits (h.parts (by decide)) hshape
  · exact namedMethod?_suits (h.parts (by decide)) hshape
  · split at hshape
    · exact namedMethod?_suits (h.parts (by decide)).behind_symbol hshape
    · exact namedMethod?_suits (h.parts (by decide)).behind_symbol hshape
    · cases hshape
  · exact namedMethod?_suits (h.parts (by decide)) hshape
  · exact namedMethod?_suits (h.parts (by decide)) hshape
  · cases hshape

variable (h : LowersSourced w lower) (hp : w.Known form.position) (hargs : SuitIn w form.args)

include h in
theorem lowerMethod_traced (hshape : shape.Suits w)
    (static : Bool) (hp : w.Known p) : Traced w lower H Node.erase (lowerMethod lower shape static p)
      (lowerMethod lower shape.erase static none) (Allowed w) := by
  have hbody : SuitIn w shape.body := hshape.items.2
  refine .bindSyntax (ParamList.read_suits_of_parts hshape) (ParamList.read_erases shape.params)
    fun _ _ hlist => .ite (by simp [MethodShape.erase, ParamList.erase]) (.fault hp.1) ?_
  exact .map (buildFunction_traced h hp (lowerParams_traced h ⟨hlist, hbody, hp⟩) hbody)
    (fun _ => rfl) fun _ _ hf => allowed rfl hp (every_function hf.2.1 hf.2.2)

/-! ## Classes -/

include h hp in
theorem lowerMember_traced {member : SExpr}
    (hmember : member.Suits w) (static : Bool) :
    Traced w lower H Node.erase (lowerMember lower form member static)
      (lowerMember lower form.erase member.erase static) (Allowed w) := by
  have hknown := hmember.position
  match member with
  | .symbol _ _ | .literal _ _ | .list [] _ | .list (.literal _ _ :: _) _
  | .list (.list _ _ :: _) _ => exact .refusePart hp hknown
  | .list (.symbol head q :: parts) p =>
    simp only [erase_list, map_cons, erase_symbol, lowerMember, fieldShape?_erase, methodShape?_erase]
    refine .ite Iff.rfl ?_ ?_
    · cases hfield : fieldShape? head parts with
      | none => exact .refusePart hp hknown
      | some field =>
        exact .map (lowerOption_traced h (fieldShape?_of hmember.itemsIn.2 hfield))
          (fun _ => rfl) fun _ _ hvalue => allowed rfl hknown (allowedOption_of_anchored hvalue)
    · cases hshape : methodShape? head parts with
      | none => exact .refusePart hp hknown
      | some shape => exact lowerMethod_traced h (methodShape?_suits hmember hshape) static hknown

/-- The parent and the members that a class has so far are allowed. -/
structure ClassParts.Allowed (w : Watch) (parts : ClassParts) : Prop where
  parent : AllowedOption w parts.parent
  members : AllowedIn w parts.members

include h hp in
theorem addMember_traced (name : String)
    {parts : ClassParts} (hparts : H → parts.Allowed w) {member : SExpr} (hmember : member.Suits w)
    (static : Bool) : Traced w lower H ClassParts.erase (addMember lower form name parts member static)
      (addMember lower form.erase name parts.erase member.erase static) (ClassParts.Allowed w) :=
  .bind (lowerMember_traced h hp hmember static) fun _ =>
    .ite (by rw [isConstructor_erase]; rfl) (.refusePart hp hmember.position) <|
      .pure (by simp [ClassParts.erase]) fun ⟨hH, hlowered⟩ =>
        ⟨(hparts hH).parent, (hparts hH).members.append (.single hlowered)⟩

include h hp in
theorem lowerClassParts_traced (name : String) (hclauses : SuitIn w clauses) {parts : ClassParts}
    (hparts : H → parts.Allowed w) :
    Traced w lower H ClassParts.erase (lowerClassParts lower form name parts clauses)
      (lowerClassParts lower form.erase name parts.erase (clauses.map SExpr.erase))
      (ClassParts.Allowed w) := by
  induction clauses generalizing parts H with
  | nil => exact .pure rfl hparts
  | cons clause rest ih =>
    have hparent : parts.erase.parent.isSome = parts.parent.isSome := by simp [ClassParts.erase]
    have hclause := hclauses.1
    have hknown := hclause.position
    simp only [map_cons, lowerClassParts, isForm_erase, hparent, staticMember?_erase]
    refine .ite Iff.rfl (.ite Iff.rfl (.refusePart hp hknown) ?_) ?_
    · rcases clause with _ | _ | ⟨_ | ⟨_, _ | ⟨base, _ | _⟩⟩, _⟩
      case list.cons.cons.nil =>
        exact .bind (lowerValue_traced h hclause.itemsIn.2.1) fun _ =>
          ih hclauses.2 fun hH => ⟨hH.2.allowed, (hparts hH.1).members⟩
      all_goals exact .refusePart hp hknown
    · cases hinner : staticMember? clause with
      | none =>
        exact .bind (addMember_traced h hp name hparts hclause false) fun _ =>
          ih hclauses.2 fun hH => hH.2
      | some inner =>
        have hmember := staticMember?_of hereditary_suits hclause hinner
        exact .bind (addMember_traced h hp name hparts hmember true) fun _ => ih hclauses.2 fun hH => hH.2

include hargs in
theorem head?_suits : ∀ t ∈ form.args.head?, t.Suits w :=
  fun t ht => suitIn_iff.mp hargs t (mem_of_mem_head? ht)

include hargs in
theorem tail_suits : SuitIn w form.args.tail := hargs.subset (tail_subset _)

theorem head?_erase (form : Form) : form.erase.args.head? = form.args.head?.map SExpr.erase := head?_map

theorem tail_erase (form : Form) : form.erase.args.tail = form.args.tail.map SExpr.erase := map_tail.symm

theorem lowerClass_traced : TracesForm w (Suits w) lowerClass := by
  intro lower form H h hp hargs
  unfold lowerClass
  rw [head?_erase, tail_erase]
  refine symbolIn_traced hp (head?_suits hargs) fun name hname =>
    .map (lowerClassParts_traced h hp name (tail_suits hargs) fun _ => ⟨trivial, trivial⟩)
      (fun _ => rfl) fun _ _ hparts => ⟨fun watched hwatched heq => ?_,
        ⟨hparts.parent, hparts.members⟩, nofun, Watch.sited_none, forall_mem_nil _⟩
  exact hname watched hwatched (heq ▸ .identifier)

/-! ## Enumerations -/

section

variable (h : LowersSourced w lower) (hp : w.Known form.position)

include h hp

theorem lowerCaseValues_traced {clause : SExpr}
    (hclause : clause.Suits w) (name : String) {values : List SExpr} (hvalues : SuitIn w values) :
    Traced w lower H CaseValues.erase (lowerCaseValues lower form clause name values)
      (lowerCaseValues lower form.erase clause.erase name (values.map SExpr.erase)) fun carried =>
        AllowedOption w carried.raw ∧ AllowedIn w carried.associated := by
  have hgeneral : Traced w lower H CaseValues.erase
      (if values.all fun value => value.symbol?.isSome then do
        let associated ← Lower.each (lowerTarget lower) values
        return { associated }
      else form.refusePart clause (.enumCaseValues name))
      (if (values.map SExpr.erase).all fun value => value.symbol?.isSome then do
        let associated ← Lower.each (lowerTarget lower) (values.map SExpr.erase)
        return { associated }
      else form.erase.refusePart clause.erase (.enumCaseValues name))
      fun carried => AllowedOption w carried.raw ∧ AllowedIn w carried.associated := by
    refine .ite (by simp [all_map, Function.comp_def]) ?_ (.refusePart hp hclause.position)
    exact .map (.eachTree fun t ht _ => lowerTarget_traced h (suitIn_iff.mp hvalues t ht))
      (fun _ => rfl) fun _ _ hassoc => ⟨trivial, allowedIn_of_anchored hassoc⟩
  match values, hvalues with
  | [.literal value p], hvalues =>
    exact .map (lowerValue_traced h hvalues.1) (fun _ => rfl) fun _ _ hraw => ⟨hraw.allowed, trivial⟩
  | [], _ | [.symbol _ _], _ | [.list _ _], _ | .symbol _ _ :: _ :: _, _
  | .literal _ _ :: _ :: _, _ | .list _ _ :: _ :: _, _ => exact hgeneral

theorem lowerCase_traced {clause : SExpr} (hclause : clause.Suits w) :
    Traced w lower H EnumCase.erase (lowerCase lower form clause)
      (lowerCase lower form.erase clause.erase) fun one =>
        one.fold w.shut True And w.Allows ∧ w.Sited one.position := by
  have hknown := hclause.position
  match clause with
  | .symbol _ _ | .literal _ _ | .list [] _ | .list (.literal _ _ :: _) _
  | .list (.list _ _ :: _) _ => exact .refusePart hp hknown
  | .list (.symbol head q :: parts) p =>
    by_cases hcase : head = "case"
    · subst hcase
      match parts with
      | [] | .literal _ _ :: _ | .list _ _ :: _ => exact .refusePart hp hknown
      | .symbol name r :: values =>
        have hvalues := lowerCaseValues_traced (H := H) h hp hclause name hclause.itemsIn.2.2
        rw [erase_list, map_cons, map_cons] at hvalues ⊢
        exact .map hvalues (fun _ => rfl) fun _ _ hcarried => ⟨hcarried, hknown.1⟩
    · obtain ⟨fault, heq⟩ := lowerCase_other form hcase q p parts
      obtain ⟨fault', heq'⟩ := lowerCase_other form.erase hcase none none (parts.map SExpr.erase)
      rw [erase_list, map_cons, erase_symbol, heq, heq']
      exact .refusePart hp hknown

theorem lowerCases_traced (enumName : String) (hclauses : SuitIn w clauses) (seen : List String) :
    Traced w lower H eraseCases (lowerCases lower form enumName seen clauses)
      (lowerCases lower form.erase enumName seen (clauses.map SExpr.erase)) fun cases =>
        foldCases w.shut True And w.Allows cases ∧ ∀ one ∈ cases, w.Sited one.position := by
  induction clauses generalizing seen H with
  | nil => exact .pure rfl fun _ => ⟨trivial, by simp⟩
  | cons clause rest ih =>
    refine .bind (lowerCase_traced h hp hclauses.1) fun one => ?_
    have hname : one.erase.name = one.name := by
      cases one
      rfl
    rw [hname]
    exact .ite Iff.rfl (.refusePart hp hclauses.1.position) <|
      .bind (ih hclauses.2 _) fun _ => .pure rfl fun ⟨⟨_, hone⟩, hothers⟩ =>
        ⟨⟨hone.1, hothers.1⟩, forall_mem_cons.mpr ⟨hone.2, hothers.2⟩⟩

end

theorem lowerEnum_traced : TracesForm w (Suits w) lowerEnum := by
  intro lower form H h hp hargs
  unfold lowerEnum
  rw [head?_erase, tail_erase]
  refine symbolIn_traced hp (head?_suits hargs) fun _ hdeclared =>
    .bind (lowerCases_traced h hp _ (tail_suits hargs) []) fun _ =>
      .ite (by rw [isMixed_erase]) (.refuseForm hp) <| .pure rfl fun ⟨_, hcases⟩ =>
        ⟨fun watched hwatched heq => ?_, hcases.1, nofun, Watch.sited_none,
          forall_mem_filterMap.mpr hcases.2⟩
  exact hdeclared watched hwatched (heq ▸ .enumeration)

/-! ## Types -/

theorem readType_traced {t : SExpr} (ht : t.Suits w) :
    Traced w lower H id (Lower.ofExcept (TypeExpr.read t)) (Lower.ofExcept (TypeExpr.read t.erase))
      fun _ => True :=
  .ofExcept (read_alike hereditary_suits t ht).pinned (read_erases t)

include hp hargs in
theorem lowerTypeAlias_traced :
    TracedNode w lower H (lowerTypeAlias form) (lowerTypeAlias form.erase) := by
  obtain ⟨node, name, args⟩ := form
  match args, hargs with
  | [], _ | [_], _ | _ :: _ :: _ :: _, _ => exact .refuseForm hp
  | [nameNode, typeNode], hargs =>
    exact symbolIn_traced hp (forall_some hargs.1) fun _ _ =>
      .map (readType_traced hargs.2.1) (fun _ => rfl) fun _ _ _ => pending rfl trivial

theorem lowerTypeAssertion_traced : TracesForm w (Suits w) lowerTypeAssertion := by
  rintro lower ⟨node, name, args⟩ H h hp hargs
  match args, hargs with
  | [], _ | [_], _ | _ :: _ :: _ :: _, _ => exact .refuseForm hp
  | [expression, typeNode], hargs =>
    exact .bind (lowerValue_traced h hargs.1) fun _ => .bind (readType_traced hargs.2.1) fun _ =>
      .pure rfl fun ⟨⟨_, hexpr⟩, _⟩ => pending rfl hexpr.allowed

section

variable (hp : w.Known form.position)

include hp

theorem readMember_traced (readonly : Bool) {key typeNode : SExpr}
    (hkey : key.Suits w) (htype : typeNode.Suits w) :
    Traced w lower H id (readMember form readonly key typeNode)
      (readMember form.erase readonly key.erase typeNode.erase) fun _ => True := by
  cases key with
  | symbol name p => exact .map (readType_traced htype) (fun _ => rfl) fun _ _ _ => trivial
  | literal value p | list items p => exact .refusePart hp hkey.position

theorem readInterfaceMember_traced {entry : SExpr} (hentry : entry.Suits w) :
    Traced w lower H id (readInterfaceMember form entry) (readInterfaceMember form.erase entry.erase)
      fun _ => True := by
  have hknown := hentry.position
  match entry with
  | .symbol _ _ | .literal _ _ | .list [] _ | .list [_] _ | .list (_ :: _ :: _ :: _ :: _) _ =>
    exact .refusePart hp hknown
  | .list [key, typeNode] p =>
    exact readMember_traced hp false hentry.itemsIn.1 hentry.itemsIn.2.1
  | .list [mark, key, typeNode] p =>
    exact .ite (by rw [isSymbol_erase])
      (readMember_traced hp true hentry.itemsIn.2.1 hentry.itemsIn.2.2.1) (.refusePart hp hknown)

theorem readInterfaceParts_traced {entries : List SExpr} (hentries : SuitIn w entries) :
    Traced w lower H id (readInterfaceParts form entries)
      (readInterfaceParts form.erase (entries.map SExpr.erase)) fun _ => True := by
  induction entries generalizing H with
  | nil => exact .pure rfl fun _ => trivial
  | cons entry rest ih =>
    have hbases : ∀ t ∈ (entry.items?.getD []).tail, t.Suits w := by
      intro t ht
      have hitem := mem_of_mem_tail ht
      cases entry with
      | symbol | literal => cases hitem
      | list items p => exact hentries.1.items t hitem
    have herase : (entry.erase.items?.getD []).tail = (entry.items?.getD []).tail.map SExpr.erase := by
      rw [items?_erase]
      cases entry.items? with
      | none => rfl
      | some items => exact map_tail.symm
    simp only [map_cons, readInterfaceParts, isForm_erase, herase]
    refine .ite Iff.rfl ?_ ?_
    · exact .bind (.ofExcept (readAll_alike hereditary_suits _ hbases).pinned
        (readAll_erases _)) fun _ => .map (ih hentries.2) (fun _ => rfl) fun _ _ _ => trivial
    · exact .bind (readInterfaceMember_traced hp hentries.1) fun _ =>
        .map (ih hentries.2) (fun _ => rfl) fun _ _ _ => trivial

theorem lowerInterface_traced (hargs : SuitIn w form.args) :
    TracedNode w lower H (lowerInterface form) (lowerInterface form.erase) := by
  unfold lowerInterface
  rw [head?_erase, tail_erase]
  exact symbolIn_traced hp (head?_suits hargs) fun _ _ =>
    .map (readInterfaceParts_traced hp (tail_suits hargs)) (fun _ => rfl) fun _ _ _ =>
      pending rfl trivial

/-! ## Imports and exports -/

theorem readNames_traced (linkage : Linkage) {H : Prop} {items : List SExpr} (hitems : SuitIn w items) :
    Traced w lower H id (readNames form linkage items)
      (readNames form.erase linkage (items.map SExpr.erase)) fun _ => True := by
  induction items using readNames.induct with
  | case1 | case2 => exact .pure rfl fun _ => trivial
  | case3 _ _ mark hmark _ _ _ ih =>
    simp only [map_cons, erase_symbol, readNames, isSymbol_erase, hmark, if_true]
    exact .map (ih hitems.2.2.2) (fun _ => rfl) fun _ _ _ => trivial
  | case4 _ _ mark more hmark hmore =>
    unfold readNames
    simp only [map_cons, erase_symbol, isSymbol_erase, hmark, if_true]
    rcases more with _ | ⟨_ | _ | _, _⟩
    case cons.symbol => exact (hmore _ _ _ rfl).elim
    all_goals exact .refusePart hp hitems.2.1.position
  | case5 _ _ mark _ hmark ih =>
    unfold readNames
    simp only [map_cons, erase_symbol, isSymbol_erase, hmark]
    exact .map (ih hitems.2) (fun _ => rfl) fun _ _ _ => trivial
  | case6 node _ hnode =>
    cases node with
    | symbol _ _ => exact (hnode _ _ rfl).elim
    | _ => exact .refusePart hp hitems.1.position

end

theorem allowedIn_specifiers (hgap : w.gaps .specifier) (names : List LinkedName)
    {kind : LinkedName → NodeKind} (hname : ∀ linked, (kind linked).isPlain = true)
    (hcovers : ∀ linked, Gap.specifier.covers (kind linked) = true)
    (hinner : ∀ linked, (kind linked).fold w.shut True And w.Allows) :
    AllowedIn w (names.map fun linked => of (kind linked)) := by
  apply everyIn_iff.mpr
  intro node hnode
  obtain ⟨linked, -, rfl⟩ := mem_map.mp hnode
  exact allowed_gap (hname linked) (hcovers linked) hgap (hinner linked)

section

variable (hp : w.Known form.position)

include hp

theorem importSpecifiers_traced {binding : SExpr}
    (hbinding : binding.Suits w) (hgap : binding.symbol? = none → w.gaps .specifier) :
    Traced w lower H eraseAll (importSpecifiers form binding)
      (importSpecifiers form.erase binding.erase) (AllowedIn w) := by
  have hnames (hgap : w.gaps .specifier) : Traced w lower H eraseAll
      (do
        let names ← readNames form .inward binding.bindingItems
        return names.map fun linked => of (.importSpecifier linked.name
          (Symbol.identifier (linked.otherName.getD linked.name))))
      (do
        let names ← readNames form.erase .inward binding.erase.bindingItems
        return names.map fun linked => of (.importSpecifier linked.name
          (Symbol.identifier (linked.otherName.getD linked.name)))) (AllowedIn w) := by
    rw [bindingItems_erase]
    exact .map (readNames_traced hp _ hbinding.bindingItems)
      (fun _ => by simp [of, NodeKind.erase]) fun _ names _ =>
        allowedIn_specifiers hgap names (fun _ => rfl) (fun _ => rfl) fun _ => trivial
  cases binding with
  | symbol name p => exact .pure rfl fun _ => .single (allowed rfl hbinding.position trivial)
  | literal | list => exact hnames (hgap rfl)

theorem importFrom_traced {specifiers : List Node} {source : SExpr}
    (hsource : source.Suits w) (hspecs : H → AllowedIn w specifiers) :
    TracedNode w lower H (importFrom form specifiers source)
      (importFrom form.erase (eraseAll specifiers) source.erase) := by
  match source with
  | .literal (.string path) p =>
    exact .get fun _ => .pure rfl fun hH => pending rfl (hspecs hH.1)
  | .symbol _ _ | .list _ _ | .literal (.number _) _ | .literal (.bool _) _ | .literal .null _ =>
    exact .refusePart hp hsource.position

theorem refuseLinkage_traced {α : Type} {f : α → α} {R : α → Prop}
    (linkage : Linkage) : Traced w lower H f (refuseLinkage form linkage form.node)
      (refuseLinkage form.erase linkage form.erase.node) R :=
  .fault (hp.or hp.1).1

theorem lowerImport_traced (hargs : SuitIn w form.args) (hgaps : ∀ gap ∈ importGaps form.args, w.gaps gap) :
    TracedNode w lower H (lowerImport form) (lowerImport form.erase) := by
  obtain ⟨node, name, args⟩ := form
  match args, hargs with
  | [], _ | [_, _], _ | _ :: _ :: _ :: _ :: _, _ =>
    exact refuseLinkage_traced hp _
  | [source], hargs =>
    exact importFrom_traced hp hargs.1 fun _ => trivial
  | [binding, mark, source], hargs =>
    have hgap (hbinding : binding.symbol? = none) : w.gaps .specifier :=
      hgaps _ (by simp [importGaps, hbinding])
    refine .ite (by rw [isSymbol_erase]) ?_ (refuseLinkage_traced hp _)
    exact .bind (importSpecifiers_traced hp hargs.1 hgap) fun _ =>
      importFrom_traced hp hargs.2.2.1 fun hH => hH.2

end

theorem lowerDynamicImport_traced : TracesForm w Q lowerDynamicImport := by
  rintro lower ⟨node, name, args⟩ H h hp hargs
  match args, hargs with
  | [.literal (.string path) p], hargs =>
    exact .get fun _ => .pure rfl fun _ => pending rfl (allowed_literal (h.known hargs.1))
  | [.symbol _ _], hargs | [.list _ _], hargs | [.literal (.number _) _], hargs
  | [.literal (.bool _) _], hargs | [.literal .null _], hargs =>
    exact .map (lowerValue_traced h hargs.1) (fun _ => rfl) fun _ _ hsource =>
      pending rfl hsource.allowed
  | [], _ | .symbol _ _ :: _ :: _, _ | .list _ _ :: _ :: _, _ | .literal (.string _) _ :: _ :: _, _
  | .literal (.number _) _ :: _ :: _, _ | .literal (.bool _) _ :: _ :: _, _
  | .literal .null _ :: _ :: _, _ => exact .refuseForm hp

include hp in
theorem exportNames_traced (hgap : w.gaps .specifier) {list : SExpr}
    (hlist : list.Suits w) :
    TracedNode w lower H (exportNames form list) (exportNames form.erase list.erase) := by
  unfold exportNames
  rw [bindingItems_erase]
  exact .map (readNames_traced hp _ hlist.bindingItems) (fun _ => by simp [of, NodeKind.erase])
    fun _ names _ => pending rfl ⟨trivial,
      allowedIn_specifiers hgap names (fun _ => rfl) (fun _ => rfl) fun _ => trivial⟩

theorem exportDeclaration_traced (h : LowersOn w Q lower) (hp : w.Known form.position)
    {declaration : SExpr} (hdecl : Q declaration) :
    TracedNode w lower H (exportDeclaration lower form declaration)
      (exportDeclaration lower form.erase declaration.erase) := by
  refine .bind (h.traced hdecl) fun result => ?_
  cases result with
  | none => exact .refusePart hp (h.known hdecl)
  | some node =>
    exact .ite (by rw [isDeclaration_erase])
      (.pure rfl fun hH => pending rfl ⟨(hH.2 node rfl).allowed, trivial⟩)
      (.refusePart hp (h.known hdecl))

include h hp hargs in
theorem lowerExport_traced (hgaps : ∀ gap ∈ exportGaps form.args, w.gaps gap) :
    TracedNode w lower H (lowerExport lower form) (lowerExport lower form.erase) := by
  obtain ⟨node, name, args⟩ := form
  match args, hargs with
  | [], _ | _ :: _ :: _ :: _, _ => exact refuseLinkage_traced hp _
  | [only], hargs =>
    have hgap (hlist : isNameList only = true) : w.gaps .specifier :=
      hgaps _ (by simp [exportGaps, hlist])
    exact .ite_of (by rw [isNameList_erase])
      (fun hlist => exportNames_traced hp (hgap hlist) hargs.1)
      fun _ => exportDeclaration_traced h hp hargs.1
  | [mark, value], hargs =>
    exact .ite (by rw [isSymbol_erase]) (.map (lowerValue_traced h hargs.2.1) (fun _ => rfl)
      fun _ _ hvalue => pending rfl hvalue.allowed)
      (refuseLinkage_traced hp _)

end LispLowering.Lowering
