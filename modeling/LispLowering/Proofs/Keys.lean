import LispLowering.Proofs.Identifiers

/-!
# Keys of objects and object patterns
-/

namespace LispLowering

open Lowering List Node

/-! ## Identifiers as keys -/

namespace Symbol

theorem isPropertyName_of_forall {name : String} (hchars : ∀ c ∈ name.toList, isNameChar c = true)
    (hdigit : startsWithDigit name = false) : isPropertyName name = true := by
  rw [isPropertyName, property_eq_self_iff.mpr hchars, hdigit]
  simp

theorem isPropertyName_identifier (name : String) : isPropertyName (identifier name) = true :=
  isPropertyName_of_forall (isPlain_identifier name).chars (isPlain_identifier name).digit

theorem isPropertyName_unused (index : Nat) :
    isPropertyName ("__unused_" ++ Text.decimal index) = true := by
  have hdecimal : ∀ c ∈ (Text.decimal index).toList, isNameChar c = true := by
    intro c hc
    rw [Text.decimal, String.toList_ofList] at hc
    have hdigit := Nat.isDigit_of_mem_toDigits (by decide) (by decide) hc
    simp [isNameChar, Text.isAlphanumeric, Text.isAsciiAlphanumeric, hdigit]
  refine isPropertyName_of_forall ?_ (by simp [startsWithDigit])
  rw [String.toList_append]
  exact forall_mem_append.mpr ⟨all_eq_true.mp (by decide), hdecimal⟩

end Symbol

/-! ## Entries -/

namespace Node

/-- The entry is written as its key allows: with a name if the key can be written so where a property is accessed,
with a string otherwise, and as a shorthand only if its key is written as the name that the value binds or refers
to. -/
def Lawful (key : String) (entry : Node) : Prop :=
  ∃ keyNode value shorthand, entry.kind = .property keyNode value false shorthand ∧ keyNode.kind =
      (if key ≠ "" ∧ isPropertyName key then .identifier key none else .literal (.string key)) ∧
    (shorthand = true → keyNode.kind = .identifier key none ∧ value.boundName? = some key)

theorem lawful_keyed_iff (key : String) (value : Node) : Lawful key (keyed key value) ↔
      key ≠ "" ∧ (value.boundName? = some key → isPropertyName key = true) := by
  have hempty : isPropertyName "" = true := by decide
  have hkeyNode : ((if isPropertyName key then ident key else string key).place value.position).kind =
      if isPropertyName key then .identifier key none else .literal (.string key) := by
    split <;> rfl
  constructor
  · rintro ⟨keyNode, value, shorthand, hkind, hkey, hshorthand⟩
    cases hkind
    rw [hkeyNode] at hkey hshorthand
    refine ⟨?_, fun hbound => ?_⟩
    · rintro rfl
      simp [hempty] at hkey
    · by_contra hname
      simp [hname, hbound] at hshorthand
  · rintro ⟨hne, hname⟩
    refine ⟨_, _, _, rfl, ?_, fun hbound => ?_⟩
    · simp [hkeyNode, hne]
    · rw [hkeyNode, if_pos (hname (of_decide_eq_true hbound))]
      exact ⟨rfl, of_decide_eq_true hbound⟩

/-- Every entry under a key in the pattern, at any depth, has the property. -/
inductive KeysSatisfy (Q : String → Node → Prop) : Node → Prop where
  | identifier (name : String) (ascribed : Option TypeExpr) (p : Option Position) :
      KeysSatisfy Q ⟨.identifier name ascribed, p⟩
  | array {slots : List (Option Node)} (p : Option Position) :
      (∀ slot ∈ slots, ∀ node ∈ slot, KeysSatisfy Q node) → KeysSatisfy Q ⟨.arrayPattern slots, p⟩
  | object {entries : List (String × Node)} {rest : List Node} (p : Option Position) :
      (∀ entry ∈ entries, KeysSatisfy Q entry.2) →
      (∀ entry ∈ entries, Q entry.1 (keyed entry.1 entry.2)) → (∀ node ∈ rest, KeysSatisfy Q node) →
      KeysSatisfy Q ⟨.objectPattern (entries.map (fun entry => keyed entry.1 entry.2) ++ rest), p⟩
  | restElement {inner : Node} (p : Option Position) :
      KeysSatisfy Q inner → KeysSatisfy Q ⟨.restElement inner, p⟩
  | assignment {target : Node} (default : Node) (p : Option Position) :
      KeysSatisfy Q target → KeysSatisfy Q ⟨.assignmentPattern target default, p⟩

/-- In a pattern only an entry under the empty key is not written as its key allows. -/
def LawfulPattern : Node → Prop := KeysSatisfy fun key entry => Lawful key entry ↔ key ≠ ""

/-- A lawful pattern; if it binds one name as a whole, this can be written as the name of a property. -/
structure Bindable (node : Node) : Prop where
  lawful : node.LawfulPattern
  name : ∀ name, node.boundName? = some name → isPropertyName name = true

namespace Bindable

theorem identifier {name : String} (h : isPropertyName name = true) (ascribed : Option TypeExpr)
    (p : Option Position) : Bindable ⟨.identifier name ascribed, p⟩ :=
  ⟨.identifier .., fun _ hname => Option.some.inj hname ▸ h⟩

theorem of_boundName?_eq_none {node : Node} (h : node.LawfulPattern) (hname : node.boundName? = none) :
    Bindable node :=
  ⟨h, by simp [hname]⟩

theorem assignment {target : Node} (h : Bindable target) (default : Node) (p : Option Position) :
    Bindable ⟨.assignmentPattern target default, p⟩ :=
  ⟨.assignment default p h.lawful, h.name⟩

theorem lawful_keyed {value : Node} (h : Bindable value) (key : String) :
    Lawful key (keyed key value) ↔ key ≠ "" := by
  rw [lawful_keyed_iff, and_iff_left_iff_imp]
  exact fun _ => h.name key

theorem object {entries : List (String × Node)} {rest : List Node} (p : Option Position)
    (hentries : ∀ entry ∈ entries, Bindable entry.2) (hrest : ∀ node ∈ rest, node.LawfulPattern) :
    Bindable ⟨.objectPattern (entries.map (fun entry => keyed entry.1 entry.2) ++ rest), p⟩ :=
  of_boundName?_eq_none (.object p (fun entry hentry => (hentries entry hentry).lawful)
    (fun entry hentry => (hentries entry hentry).lawful_keyed entry.1) hrest) rfl

end Bindable

end Node

/-! ## Patterns -/

namespace Pattern

variable (transform : SExpr → Lower Node)

theorem bound_bindable (part : String) (p : Option Position) {target : Option Node}
    (h : ∀ node ∈ target, node.Bindable) : Ensures (bound part p target : Lower Node) Bindable := by
  cases target with
  | none => exact .refuse _
  | some node => exact .pure (h node rfl)

mutual

theorem lower_bindable : (pattern : Pattern) →
    Ensures (pattern.lower transform) fun target => ∀ node ∈ target, node.Bindable
  | ⟨kind, default, p⟩ => by
    refine .bind (lowerKind_bindable p kind) fun target htarget => ?_
    cases target with
    | none => exact .pure htarget
    | some node =>
      cases default with
      | none => exact .pure htarget
      | some value => exact .after fun value => .pure (by simpa using (htarget node rfl).assignment value p)

theorem lowerKind_bindable (p : Option Position) : (kind : PatternKind) →
    Ensures (lowerKind transform p kind) fun target => ∀ node ∈ target, node.Bindable
  | .skip => .pure (by simp)
  | .identifier name ascribed => .pure <| by
    simpa using Bindable.identifier (Symbol.isPropertyName_identifier name) _ p
  | .array elements => .bind (lowerElements_bindable elements) fun slots hslots => .pure <| by
    have hlawful : LawfulPattern ⟨.arrayPattern slots, p⟩ :=
      .array p fun slot hslot node hnode => (hslots slot hslot node hnode).lawful
    simpa using Bindable.of_boundName?_eq_none hlawful rfl
  | .object properties rest => .bind (lowerProperties_bindable p properties) fun _ hnodes =>
    .bind (lowerObjectRest_lawful rest) fun _ hremaining => .pure <| by
      obtain ⟨entries, rfl, hentries⟩ := hnodes
      simpa using Bindable.object p hentries hremaining
  | .rest inner => .bind (lower_bindable inner) fun _ htarget =>
    .bind (bound_bindable _ _ htarget) fun _ hnode => .pure <| by
      simpa using Bindable.of_boundName?_eq_none (.restElement p hnode.lawful) rfl

theorem lowerElements_bindable : (elements : List Pattern) →
    Ensures (lowerElements transform elements) fun slots => ∀ slot ∈ slots, ∀ node ∈ slot, node.Bindable
  | [] => .pure (by simp)
  | element :: rest => .bind (lower_bindable element) fun _ hslot =>
    .bind (lowerElements_bindable rest) fun _ hslots => .pure (forall_mem_cons.mpr ⟨hslot, hslots⟩)

theorem lowerProperties_bindable (p : Option Position) : (properties : List PropertyPattern) →
    Ensures (lowerProperties transform p properties) fun nodes => ∃ entries : List (String × Node),
      nodes = entries.map (fun entry => keyed entry.1 entry.2) ∧ ∀ entry ∈ entries, entry.2.Bindable
  | [] => .pure ⟨[], rfl, by simp⟩
  | ⟨key, value⟩ :: rest => by
    refine .bind (lower_bindable value) fun target htarget => ?_
    cases target with
    | none => exact .refuse _
    | some node =>
      refine .bind (lowerProperties_bindable p rest) fun _ hnodes => .pure ?_
      obtain ⟨entries, rfl, hentries⟩ := hnodes
      exact ⟨(key, node) :: entries, rfl, forall_mem_cons.mpr ⟨htarget node rfl, hentries⟩⟩

theorem lowerObjectRest_lawful : (rest : Option Pattern) →
    Ensures (lowerObjectRest transform rest) fun nodes => ∀ node ∈ nodes, node.LawfulPattern
  | none => .pure (by simp)
  | some rest => .bind (lower_bindable rest) fun _ htarget =>
    .bind (bound_bindable _ _ htarget) fun _ hnode =>
      .pure (forall_mem_singleton.mpr (.restElement _ hnode.lawful))

end

end Pattern

/-! ## Parameters and maps -/

namespace Lowering

variable (lower : Lowerer)

theorem lowerParamTargets_bindable (index : Nat) (params : List Pattern) :
    Ensures (lowerParamTargets lower index params) fun targets => ∀ target ∈ targets, target.Bindable := by
  induction params generalizing index with
  | nil => exact .pure (by simp)
  | cons param rest ih =>
    refine .bind (param.lower_bindable (lowerValue lower)) fun target htarget =>
      .bind (ih (index + 1)) fun _ htargets => .pure (forall_mem_cons.mpr ⟨?_, htargets⟩)
    cases target with
    | none => exact .identifier (Symbol.isPropertyName_unused index) none _
    | some node => exact htarget node rfl

theorem paramEntries_bindable (p : Option Position) (params : List (Pattern × Node))
    (h : ∀ param ∈ params, param.2.Bindable) :
    Ensures (Lower.each (paramEntry p) params) fun nodes => ∃ entries : List (String × Node),
      nodes = entries.map (fun entry => keyed entry.1 entry.2) ∧
      ∀ entry ∈ entries, entry.2.Bindable := by
  induction params with
  | nil => exact .pure ⟨[], rfl, by simp⟩
  | cons param rest ih =>
    obtain ⟨param, target⟩ := param
    obtain ⟨htarget, hrest⟩ := forall_mem_cons.mp h
    have hentry : Ensures (paramEntry p (param, target)) fun node => ∃ key, node = keyed key target := by
      rw [paramEntry]
      cases param.name? with
      | none => exact .refuse _
      | some name => exact .pure ⟨_, rfl⟩
    refine .bind hentry fun _ hnode => .bind (ih hrest) fun _ hnodes => .pure ?_
    obtain ⟨key, rfl⟩ := hnode
    obtain ⟨entries, rfl, hentries⟩ := hnodes
    exact ⟨(key, target) :: entries, rfl, forall_mem_cons.mpr ⟨htarget, hentries⟩⟩

theorem shapeParams_lawful (list : ParamList) (p : Option Position) {targets : List Node}
    (h : ∀ target ∈ targets, target.Bindable) :
    Ensures (shapeParams list p targets) fun params => ∀ param ∈ params, param.LawfulPattern := by
  refine .ite ?_ (.pure fun target htarget => (h target htarget).lawful)
  refine .bind (paramEntries_bindable p (list.params.zip targets) fun param hparam =>
    h param.2 (of_mem_zip hparam).2) fun _ hnodes => .pure ?_
  obtain ⟨entries, rfl, hentries⟩ := hnodes
  have hobject := Bindable.object p hentries (forall_mem_nil _)
  rw [append_nil] at hobject
  exact forall_mem_singleton.mpr (hobject.assignment _ p).lawful

/-- An entry of a map under a key that one of the trees gives. It is written as the key allows exactly if the key is
not empty and its value is not called like a key that is written as a string. -/
def KeyedByOne (args : List SExpr) (entry : Node) : Prop :=
  ∀ keyNode value shorthand, entry.kind = .property keyNode value false shorthand →
    ∃ arg ∈ args, ∃ key, directKey? arg = some key ∧ entry.kind = (keyed key value).kind ∧
      (Lawful key entry ↔ key ≠ "" ∧ (value.boundName? = some key → isPropertyName key = true))

theorem lowerEntry_keyedByOne {args : List SExpr} {key : SExpr} (hkey : key ∈ args) (value : SExpr) :
    Ensures (lowerEntry lower key value) (KeyedByOne args) := by
  refine .after fun value => ?_
  cases hdirect : directKey? key with
  | none =>
    refine .after fun _ => .pure fun _ value _ hkind => ?_
    cases hkind
  | some name =>
    refine .pure fun _ _ _ hkind => ⟨key, hkey, name, hdirect, ?_⟩
    cases hkind
    exact ⟨rfl, lawful_keyed_iff name value⟩

theorem lowerArgument_keyedByOne (args : List SExpr) {arg : SExpr} (harg : isSpread arg = true) :
    Ensures (lowerArgument lower arg) (KeyedByOne args) := by
  have hspread (target : Node) (p : Option Position) : KeyedByOne args ⟨.spread target, p⟩ := by
    intro keyNode value shorthand hkind
    cases hkind
  unfold lowerArgument
  split
  · exact .after fun target => .pure (hspread target _)
  · exact .after fun target => .pure (hspread target _)
  · next hnone => simp [isSpread, hnone] at harg

theorem lowerEntries_keyedByOne (form : Form) {args items : List SExpr} (hitems : ∀ t ∈ items, t ∈ args) :
    Ensures (lowerEntries lower form items) fun entries => ∀ entry ∈ entries, KeyedByOne args entry := by
  induction items using List.twoStepInduction with
  | nil => exact .pure (by simp)
  | singleton last =>
    unfold lowerEntries
    split
    · next hlast =>
      exact .bind (lowerArgument_keyedByOne lower args hlast) fun _ hentry =>
        .pure (forall_mem_singleton.mpr hentry)
    · exact .refuse _
  | cons_cons first second rest ih ihnext =>
    obtain ⟨hfirst, hothers⟩ := forall_mem_cons.mp hitems
    unfold lowerEntries
    split
    · next hspread =>
      exact .bind (lowerArgument_keyedByOne lower args hspread) fun _ hentry =>
        .bind (ihnext second hothers) fun _ hentries => .pure (forall_mem_cons.mpr ⟨hentry, hentries⟩)
    · exact .bind (lowerEntry_keyedByOne lower hfirst second) fun _ hentry =>
        .bind (ih (forall_mem_cons.mp hothers).2) fun _ hentries =>
          .pure (forall_mem_cons.mpr ⟨hentry, hentries⟩)

end Lowering

/-- The entries of maps, of object patterns and of parameter maps that are lowered successfully, with the exact
condition under which they are written as their keys allow: in maps the key is not empty, and a value that is called
like the key does not make a shorthand of a key that is written as a string; in patterns and parameter maps the key
is not empty. -/
theorem keys_lawful_iff (lower : Lowerer) :
    (∀ form, Ensures (lowerMap lower form) fun node => ∃ entries, node = object entries ∧
      ∀ entry ∈ entries, KeyedByOne form.args entry) ∧
    (∀ pattern : Pattern, Ensures (pattern.lower (lowerValue lower)) fun target =>
      ∀ node ∈ target, node.LawfulPattern) ∧ (∀ (list : ParamList) (p : Option Position),
      Ensures (lowerParamTargets lower 0 list.params >>= shapeParams list p) fun params =>
        ∀ param ∈ params, param.LawfulPattern) := by
  refine ⟨fun form => ?_, fun pattern => ?_, fun list p => ?_⟩
  · exact .bind (lowerEntries_keyedByOne lower form fun _ => id)
      fun entries hentries => .pure ⟨entries, rfl, hentries⟩
  · exact (pattern.lower_bindable _).imp fun _ htarget node hnode => (htarget node hnode).lawful
  · exact .bind (lowerParamTargets_bindable lower 0 list.params) fun _ htargets =>
      shapeParams_lawful list p htargets

/-- A map with one entry, whose key is a string. -/
def oneEntryMap (key value : String) : SExpr :=
  .list [.symbol "hash-map" none, .literal (.string key) none, .symbol value none] none

/-- The empty key is written as a name, and a foreign name makes a shorthand of a key that is a string. -/
theorem keys_unlawful : ∃ d e, lower (oneEntryMap "" "x") (Context.start "" {}) =
      .ok (some (object [keyed "" (ident "x")])) d ∧
    ¬Lawful "" (keyed "" (ident "x")) ∧
    lower (oneEntryMap "a-b" "js/a-b") (Context.start "" {}) =
      .ok (some (object [keyed "a-b" (ident "a-b")])) e ∧
    ¬Lawful "a-b" (keyed "a-b" (ident "a-b")) := by
  have hname : isPropertyName "a-b" = false := by decide
  refine ⟨_, _, rfl, ?_, rfl, ?_⟩
  · simp [lawful_keyed_iff]
  · simp [lawful_keyed_iff, hname, boundName?, ident, typedIdent, of]

end LispLowering
