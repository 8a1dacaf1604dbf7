import LispLowering.Proofs.Composition.Traversal

/-!
# Names across modules
-/

namespace LispLowering

open Lowering Node HeadMeaning List

variable {name : String} {r : Option Position}
  {ascribed : Option String} {kind : VariableKind} {result : Option Node}

/-! ## Plain names -/

namespace Symbol

/-- The name can stand unchanged as an identifier. -/
structure IsPlain (name : String) : Prop where
  chars : ∀ c ∈ name.toList, isNameChar c = true
  digit : startsWithDigit name = false
  word : isReserved name = false

theorem spell_of_isNameChar {c : Char} (h : isNameChar c = true) : spell c = [c] := by
  unfold spell
  split
  case h_13 => exact if_pos h
  all_goals exact absurd h (by decide +kernel)

theorem spell_of_not_isNameChar {c : Char} (h : isNameChar c = false) : ∃ rest, spell c = '_' :: rest := by
  unfold spell
  split
  case h_13 =>
    rw [h]
    exact ⟨_, rfl⟩
  all_goals exact ⟨_, rfl⟩

theorem flatMap_spell_eq_self_iff {cs : List Char} :
    cs.flatMap spell = cs ↔ ∀ c ∈ cs, isNameChar c = true := by
  induction cs with
  | nil => simp
  | cons c rest ih =>
    rw [flatMap_cons, forall_mem_cons]
    cases hc : isNameChar c with
    | true => rw [spell_of_isNameChar hc, singleton_append, cons_inj_right, ih]; simp
    | false =>
      obtain ⟨spelled, hspelled⟩ := spell_of_not_isNameChar hc
      rw [hspelled, cons_append]
      -- what is spelled starts with `_`, which is a character of names, and `c` is none
      refine iff_of_false (fun heq => ?_) (fun h => Bool.false_ne_true h.1)
      rw [← (List.cons.inj heq).1] at hc
      exact absurd hc (by decide)

theorem length_le_flatMap_spell (cs : List Char) : cs.length ≤ (cs.flatMap spell).length := by
  induction cs with
  | nil => rfl
  | cons c rest ih =>
    have hpos : 0 < (spell c).length := by
      cases hc : isNameChar c with
      | true => simp [spell_of_isNameChar hc]
      | false =>
        obtain ⟨spelled, hspelled⟩ := spell_of_not_isNameChar hc
        simp [hspelled]
    rw [flatMap_cons, length_append, length_cons]
    omega

theorem property_eq_self_iff : property name = name ↔ ∀ c ∈ name.toList, isNameChar c = true := by
  rw [← flatMap_spell_eq_self_iff, property, ← String.toList_inj, String.toList_ofList]

theorem identifier_eq_self_iff : identifier name = name ↔ IsPlain name := by
  constructor
  · intro h
    rw [identifier] at h
    split at h
    · -- a mark in front makes the identifier longer than the name
      have hlength := congrArg (fun text => text.toList.length) h
      have hle := length_le_flatMap_spell name.toList
      simp only [property, String.toList_append, String.toList_ofList, length_append] at hlength
      have hmark : "_".toList.length = 1 := rfl
      omega
    -- without a mark the identifier is the property name
    · next hfree =>
      rw [h, Bool.or_eq_true, not_or, Bool.not_eq_true, Bool.not_eq_true] at hfree
      exact ⟨property_eq_self_iff.mp h, hfree.1, hfree.2⟩
  · rintro ⟨hchars, hdigit, hword⟩
    rw [identifier, property_eq_self_iff.mpr hchars]
    simp only [hdigit, hword]
    rfl

end Symbol

/-! ## Names of modules -/

namespace Node

def declaratorNames (node : Node) : List String :=
  match node.kind with
  | .variableDeclarator id _ => id.boundNames
  | _ => []

def declaredNames (node : Node) : List String :=
  match node.kind with
  | .variableDeclaration _ declarators => declarators.flatMap declaratorNames
  | _ => node.declaredName?.toList

def exportedName? (node : Node) : Option String :=
  match node.kind with
  | .exportSpecifier _ exported => some exported
  | _ => none

/-- The names that an export offers to other modules. -/
def exportedNames (node : Node) : List String :=
  match node.kind with
  | .exportNamed declaration specifiers =>
    declaration.toList.flatMap declaredNames ++ specifiers.filterMap exportedName?
  | _ => []

def importedName? (node : Node) : Option String :=
  match node.kind with
  | .importSpecifier imported _ => some imported
  | _ => none

/-- The names that an import asks another module for. -/
def importedNames (node : Node) : List String :=
  match node.kind with
  | .importDeclaration specifiers _ _ => specifiers.filterMap importedName?
  | _ => []

end Node

/-- The tree declares a function, a class or a variable of the name. A function may have type parameters,
and a variable may have a type. -/
inductive DeclarationOf (name : String) : SExpr → Prop where
  | function {head symbol : String} {special : SpecialForm}
      (hhead : ofName head = .special special)
      (hspecial : special = .function ∨ special = .generator)
      (hname : (GenericName.ofSymbol symbol).name = name) (p q r : Option Position) (parts : List SExpr) :
      DeclarationOf name (.list (.symbol head q :: .symbol symbol r :: parts) p)
  | classForm (p q r : Option Position) (clauses : List SExpr) :
      DeclarationOf name (.list (.symbol "class" q :: .symbol name r :: clauses) p)
  | binding {head symbol : String} {kind : VariableKind} {ascribed : Option String} {r : Option Position}
      (hhead : ofName head = .special (.binding kind))
      (hname : Pattern.readSymbol symbol r = .ok ⟨.identifier name ascribed, none, r⟩)
      (p q : Option Position) (values : List SExpr) :
      DeclarationOf name (.list (.symbol head q :: .symbol symbol r :: values) p)

/-- The tree imports the name from another module. -/
inductive ImportOf (name : String) : SExpr → Prop where
  | mk (path : String) (p q r s t u : Option Position) :
      ImportOf name (.list [.symbol "import" q, .list [.symbol name s] r, .symbol "from" t,
        .literal (.string path) u] p)

/-! ## What declarations declare -/

namespace Lowering

variable {lower : Lowerer} {form : Form} {c d : Context} {node : Node}

theorem buildFunction_id {spec : FunctionSpec} {function : Function}
    (h : buildFunction lower spec c = .ok function d) : function.id = spec.name.map Symbol.identifier := by
  rw [buildFunction_eq] at h
  obtain ⟨params, c₁, -, h⟩ := bind_ok h
  obtain ⟨⟨body, leftEarly⟩, c₂, -, h⟩ := bind_ok h
  obtain ⟨context, -, rfl⟩ := map_ok h
  rfl

theorem lowerFunctionParts_kind {isAsync isGenerator : Bool} {name : GenericName} {parts : List SExpr}
    (h : lowerFunctionParts lower form isAsync isGenerator (some name) parts c = .ok node d) :
    ∃ function, node.kind = .functionDeclaration function ∧
      function.id = some (Symbol.identifier name.name) := by
  cases parts with
  | nil => cases h
  | cons params body =>
    obtain ⟨list, c₁, -, h⟩ := bind_ok h
    obtain ⟨function, hfun, rfl⟩ := map_ok h
    exact ⟨function, rfl, buildFunction_id hfun⟩

theorem lowerClass_kind {clauses : List SExpr}
    (hargs : form.args = .symbol name r :: clauses) (h : lowerClass lower form c = .ok node d) :
    ∃ parent members, node.kind = .classDeclaration (Symbol.identifier name) parent members := by
  rw [lowerClass, hargs] at h
  obtain ⟨text, c₁, hname, h⟩ := bind_ok h
  obtain ⟨rfl, -⟩ := pure_ok hname
  obtain ⟨parts, -, rfl⟩ := map_ok h
  exact ⟨parts.parent, parts.members, rfl⟩

theorem lowerDeclaration_kind {symbol : String} {value : Option SExpr}
    (hname : Pattern.readSymbol symbol r = .ok ⟨.identifier name ascribed, none, r⟩)
    (h : lowerDeclaration lower kind (.symbol symbol r) value c = .ok node d) :
    ∃ type init, node = declare kind ⟨.identifier (Symbol.identifier name) type, r⟩ init := by
  obtain ⟨id, c₁, hid, h⟩ := bind_ok h
  obtain ⟨init, c₂, -, h⟩ := bind_ok h
  obtain ⟨-, -, rfl⟩ := map_ok h
  obtain ⟨pattern, c₄, hpattern, htarget⟩ := bind_ok hid
  rw [Pattern.read, hname] at hpattern
  obtain ⟨rfl, -⟩ := pure_ok hpattern
  cases htarget
  exact ⟨_, init, rfl⟩

theorem lowerBinding_kind {symbol : String} {values : List SExpr}
    (hargs : form.args = .symbol symbol r :: values)
    (hname : Pattern.readSymbol symbol r = .ok ⟨.identifier name ascribed, none, r⟩)
    (h : lowerBinding lower form kind c = .ok node d) :
    ∃ type init, node = declare kind ⟨.identifier (Symbol.identifier name) type, r⟩ init := by
  rw [lowerBinding, hargs] at h
  cases values with
  | nil =>
    simp only at h
    split at h
    · exact lowerDeclaration_kind hname h
    · cases h
  | cons value rest =>
    cases rest with
    | nil => exact lowerDeclaration_kind hname h
    | cons second rest => cases h

end Lowering

theorem isNameList_eq_false {head : String} {special : SpecialForm} {p q : Option Position}
    {rest : List SExpr} (hhead : ofName head = .special special) (hvector : special ≠ .vector)
    (hempty : special ≠ .emptyArray) : isNameList (.list (.symbol head q :: rest) p) = false := by
  -- lists of names are headed by a mark, or by a name that heads no form
  have hne : head ≠ "vector" := by
    rintro rfl
    exact hvector (HeadMeaning.special.inj hhead).symm
  have hne' : head ≠ "empty-array" := by
    rintro rfl
    exact hempty (HeadMeaning.special.inj hhead).symm
  simp [isNameList, SExpr.isForm, SExpr.head?, hne, hne', hhead]

namespace DeclarationOf

variable {name : String} {tree : SExpr}

theorem isNameList_eq (h : DeclarationOf name tree) : isNameList tree = false := by
  cases h with
  | function hhead hspecial =>
    rcases hspecial with rfl | rfl <;> exact isNameList_eq_false hhead (by simp) (by simp)
  | classForm => exact isNameList_eq_false rfl (by simp) (by simp)
  | binding hhead => exact isNameList_eq_false hhead (by simp) (by simp)

theorem declaredNames (h : DeclarationOf name tree) {c d : Context}
    (hrun : lower tree c = .ok result d) : ∃ node, result = some node ∧ isDeclaration node = true ∧
      node.declaredNames = [Symbol.identifier name] := by
  cases h with
  | function hhead hspecial hname p q r parts =>
    obtain ⟨node, hnode, rfl⟩ := lower_special_ok hhead hrun
    obtain ⟨function, hkind, hid⟩ : ∃ function, node.kind = .functionDeclaration function ∧
        function.id = some (Symbol.identifier name) := by
      rw [← hname]
      -- functions and generators are lowered by the same function
      rcases hspecial with rfl | rfl <;> exact lowerFunctionParts_kind hnode
    refine ⟨_, rfl, ?_, ?_⟩
    · simp [isDeclaration, orPlace, hkind]
    · simp [Node.declaredNames, declaredName?, orPlace, hkind, hid]
  | classForm p q r clauses =>
    have hhead : ofName "class" = .special .classForm := rfl
    obtain ⟨node, hnode, rfl⟩ := lower_special_ok hhead hrun
    obtain ⟨parent, members, hkind⟩ := lowerClass_kind rfl hnode
    refine ⟨_, rfl, ?_, ?_⟩
    · simp [isDeclaration, orPlace, hkind]
    · simp [Node.declaredNames, declaredName?, orPlace, hkind]
  | binding hhead hname p q values =>
    obtain ⟨node, hnode, rfl⟩ := lower_special_ok hhead hrun
    rw [lowerSpecial] at hnode
    obtain ⟨type, init, rfl⟩ := lowerBinding_kind rfl hname hnode
    exact ⟨_, rfl, rfl, rfl⟩

end DeclarationOf

/-! ## Exports and imports -/

section Linkage

variable {name : String} {c d : Context} (hvector : name ≠ "vector") (hempty : name ≠ "empty-array")

include hvector hempty

theorem bindingItems_name (p q : Option Position) :
    (SExpr.list [.symbol name q] p).bindingItems = [.symbol name q] := by
  simp [SExpr.bindingItems, SExpr.isSymbol, SExpr.symbol?, hvector, hempty]

theorem lower_import (h : ImportOf name tree) :
    ∃ node, lower tree c = .ok (some node) c ∧ node.importedNames = [name] := by
  cases h with
  | mk path p q r s t u =>
    have hhead : ofName "import" = .special .importing := rfl
    have hspecs (form : Form) : importSpecifiers form (.list [.symbol name s] r) =
        pure [of (.importSpecifier name (Symbol.identifier name))] := by
      simp only [importSpecifiers, bindingItems_name hvector hempty]
      rfl
    have hnode (node : SExpr) : ∃ source resolved,
        lowerSpecial lower ⟨node, "import", [.list [.symbol name s] r, .symbol "from" t,
          .literal (.string path) u]⟩ .importing c = .ok (of (.importDeclaration
            [of (.importSpecifier name (Symbol.identifier name))] source resolved)) c := by
      simp only [lowerSpecial, lowerImport, hspecs]
      exact ⟨_, _, rfl⟩
    obtain ⟨source, resolved, hnode⟩ := hnode _
    exact ⟨_, lower_special hhead hnode, rfl⟩

theorem lower_exportList (hname : ofName name = .called) (p q r s : Option Position) :
    ∃ node, lower (.list [.symbol "export" q, .list [.symbol name s] r] p) c = .ok (some node) c ∧
      node.exportedNames = [name] := by
  have hhead : ofName "export" = .special .exporting := rfl
  have hlist : isNameList (.list [.symbol name s] r) = true := by simp [isNameList, hname]
  have hnode (node : SExpr) :
      lowerSpecial lower ⟨node, "export", [.list [.symbol name s] r]⟩ .exporting c =
        .ok (of (.exportNamed none [of (.exportSpecifier (Symbol.identifier name) name)])) c := by
    simp only [lowerSpecial, lowerExport, hlist, if_true, exportNames,
      bindingItems_name hvector hempty]
    rfl
  exact ⟨_, lower_special hhead (hnode _), rfl⟩

omit hvector hempty in
theorem lower_exportDeclaration (h : DeclarationOf name tree)
    (hrun : lower tree c = .ok result d) (p q : Option Position) :
    ∃ node, lower (.list [.symbol "export" q, tree] p) c = .ok (some node) d ∧
      node.exportedNames = [Symbol.identifier name] := by
  obtain ⟨declared, rfl, hdecl, hnames⟩ := h.declaredNames hrun
  have hhead : ofName "export" = .special .exporting := rfl
  have hnode (node : SExpr) : lowerSpecial lower ⟨node, "export", [tree]⟩ .exporting c =
      .ok (of (.exportNamed (some declared) [])) d := by
    simp only [lowerSpecial, lowerExport, h.isNameList_eq, Bool.false_eq_true, if_false,
      exportDeclaration, bind, EStateM.bind, hrun, hdecl, if_true]
    rfl
  refine ⟨_, lower_special hhead (hnode _), ?_⟩
  simp [Node.exportedNames, orPlace, of, hnames]

end Linkage

/-- **The names that imports ask for and that exports offer.** An import asks for a name as it is
written. An export of a list of names offers a name as it is written, so the two meet; but a list
with the name of a special form is read as that form. An export of a declaration offers the
identifier for its name, so it meets the import exactly if the name is plain. -/
theorem linked_names {name : String} (hvector : name ≠ "vector") (hempty : name ≠ "empty-array")
    {importing : SExpr} (himport : ImportOf name importing) (c c' : Context) :
    ∃ imported, lower importing c = .ok (some imported) c ∧ imported.importedNames = [name] ∧
      (HeadMeaning.ofName name = .called → ∀ p q r s, ∃ exported,
        lower (.list [.symbol "export" q, .list [.symbol name s] r] p) c' = .ok (some exported) c' ∧
        exported.exportedNames = imported.importedNames) ∧
      ∀ declaration, DeclarationOf name declaration →
        ∀ result d, lower declaration c' = .ok result d → ∀ p q, ∃ exported,
          lower (.list [.symbol "export" q, declaration] p) c' = .ok (some exported) d ∧
          exported.exportedNames = [Symbol.identifier name] ∧
          (exported.exportedNames = imported.importedNames ↔ Symbol.IsPlain name) := by
  obtain ⟨imported, himported, hasked⟩ := lower_import hvector hempty himport
  refine ⟨imported, himported, hasked, fun hname p q r s => ?_, ?_⟩
  · rw [hasked]
    exact lower_exportList hvector hempty hname p q r s
  · intro declaration hdecl result d hrun p q
    obtain ⟨exported, hexported, hoffered⟩ := lower_exportDeclaration hdecl hrun p q
    refine ⟨exported, hexported, hoffered, ?_⟩
    -- the names are one each, so they meet if the identifier is the name
    rw [hoffered, hasked, List.cons.injEq, and_iff_left rfl, Symbol.identifier_eq_self_iff]

/-! ## A plain name and a name with a hyphen -/

/-- `(import (name) from "./lib")`. -/
def importTree (name : String) : SExpr :=
  .list [.symbol "import" none, .list [.symbol name none] none, .symbol "from" none,
    .literal (.string "./lib") none] none

/-- `(fn name (vector) x)`. -/
def functionTree (name : String) : SExpr :=
  .list [.symbol "fn" none, .symbol name none, .list [.symbol "vector" none] none, .symbol "x" none] none

/-- `(export (fn name (vector) x))`. -/
def exportTree (name : String) : SExpr := .list [.symbol "export" none, functionTree name] none

/-- A function with a plain name can be imported. -/
theorem linked_names_plain : HeadMeaning.ofName "area2" = .called ∧
    ImportOf "area2" (importTree "area2") ∧ DeclarationOf "area2" (functionTree "area2") ∧
    Symbol.IsPlain "area2" ∧
    ∃ imported exported d, lower (importTree "area2") (Context.start "." {}) =
        .ok (some imported) (Context.start "." {}) ∧
      lower (exportTree "area2") (Context.start "." {}) = .ok (some exported) d ∧
      exported.exportedNames = imported.importedNames := by
  have hname : HeadMeaning.ofName "area2" = .called := by decide
  have himport : ImportOf "area2" (importTree "area2") := .mk "./lib" none none none none none none
  have hdecl : DeclarationOf "area2" (functionTree "area2") :=
    .function rfl (.inl rfl) (by decide) none none none _
  have hplain : Symbol.IsPlain "area2" := Symbol.identifier_eq_self_iff.mp rfl
  have hrun : lower (functionTree "area2") (Context.start "." {}) = .ok _ _ := rfl
  obtain ⟨imported, himported, -, -, declarations⟩ :=
    linked_names (by decide) (by decide) himport (Context.start "." {}) (Context.start "." {})
  obtain ⟨exported, hexported, -, hmeet⟩ := declarations _ hdecl _ _ hrun none none
  exact ⟨hname, himport, hdecl, hplain, imported, exported, _, himported, hexported, hmeet.mpr hplain⟩

/-- A function with a hyphen in its name is exported under another name than an import asks for. -/
theorem hyphenated_names_apart : ∃ imported exported d,
      lower (importTree "my-fn") (Context.start "." {}) = .ok (some imported) (Context.start "." {}) ∧
      lower (exportTree "my-fn") (Context.start "." {}) = .ok (some exported) d ∧
      imported.importedNames = ["my-fn"] ∧ exported.exportedNames = ["my_fn"] :=
  ⟨_, _, _, rfl, rfl, rfl, rfl⟩

end LispLowering
