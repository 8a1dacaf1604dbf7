import LispLowering.Proofs.Composition.Traversal
import LispLowering.Proofs.Jumps

/-!
# Leaving functions
-/

namespace LispLowering

open Lowering Scan List

variable {key : String} {deep : Bool} {t u : SExpr}

/-! ## Leaving in the source -/

/-- What is lowered in the place may be put into a wrapper. -/
def Place.isWrapped : Place → Bool
  | .value | .looped | .default => true
  | .statement | .inner => false

/-- A `return` in the tree is lowered inside of a wrapper, where `deep` tells whether the tree as a
whole is. The bodies of functions in the tree do not count. -/
inductive SExpr.LeavesEarly : Bool → SExpr → Prop where
  | leave {t : SExpr} : .act .leave ∈ t.parts → LeavesEarly true t
  | wrapped {deep : Bool} {t u : SExpr} {place : Place} : .tree place u ∈ t.parts →
      place.isWrapped = true → LeavesEarly true u → LeavesEarly deep t
  | statement {deep : Bool} {t u : SExpr} : .tree .statement u ∈ t.parts → LeavesEarly deep u →
      LeavesEarly deep t

def Part.LeavesEarly (deep : Bool) : Part → Prop
  | .tree place u => (place.isWrapped = true ∧ u.LeavesEarly true) ∨
      (place = .statement ∧ u.LeavesEarly deep)
  | .act .leave => deep = true
  | .act _ => False

theorem SExpr.leavesEarly_iff : t.LeavesEarly deep ↔ ∃ part ∈ t.parts, part.LeavesEarly deep := by
  constructor
  · intro h
    cases h with
    | leave hact => exact ⟨_, hact, rfl⟩
    | wrapped hpart hplace hu => exact ⟨_, hpart, .inl ⟨hplace, hu⟩⟩
    | statement hpart hu => exact ⟨_, hpart, .inr ⟨rfl, hu⟩⟩
  · rintro ⟨part, hpart, hleaves⟩
    match part with
    | .tree place u =>
      rcases hleaves with ⟨hplace, hu⟩ | ⟨rfl, hu⟩
      · exact .wrapped hpart hplace hu
      · exact .statement hpart hu
    | .act .leave =>
      cases hleaves
      exact .leave hpart

theorem SExpr.LeavesEarly.deepen (h : t.LeavesEarly deep) : t.LeavesEarly true := by
  induction h with
  | leave hact => exact .leave hact
  | wrapped hpart hplace hu _ => exact .wrapped hpart hplace hu
  | statement hpart _ ih => exact .statement hpart ih

theorem Part.LeavesEarly.deepen {part : Part} (h : part.LeavesEarly deep) : part.LeavesEarly true := by
  match part with
  | .tree place u => exact h.imp_right fun h => ⟨h.1, h.2.deepen⟩
  | .act .leave => rfl

theorem SExpr.not_leavesEarly_atom (h : t.items? = none) : ¬t.LeavesEarly deep := by
  rw [leavesEarly_iff, parts_atom h]
  simp

theorem exists_mem_partAt {place : Place} : (∃ part ∈ t.partAt place, part.LeavesEarly deep) ↔
      (place.isWrapped = true ∧ t.LeavesEarly true) ∨ (place = .statement ∧ t.LeavesEarly deep) := by
  have hatom (h : t.items? = none) (deep : Bool) : ¬t.LeavesEarly deep := SExpr.not_leavesEarly_atom h
  cases t with
  | list items p => simp [SExpr.partAt, Part.LeavesEarly]
  | symbol | literal => simp [SExpr.partAt, hatom rfl]

/-- The part is no default of a parameter with a `return` in it, and no map with the key that marks the
objects that are thrown. -/
def Part.IsOrderly (key : String) : Part → Prop
  | .tree .default u => ¬u.LeavesEarly true
  | .act (.object args) => ∀ arg ∈ args, directKey? arg ≠ some key
  | _ => True

/-- No default of a parameter has a `return`, at any depth, and no map has the key that marks the
objects that are thrown. -/
abbrev SExpr.Orderly (key : String) (t : SExpr) : Prop := t.Everywhere (Part.IsOrderly key)

abbrev Part.Orderly (key : String) (part : Part) : Prop := part.Everywhere (Part.IsOrderly key)

theorem not_leavesEarly_of_all {ts : List SExpr} (h : ∀ part ∈ Place.default.all ts, part.Orderly key) :
    ∀ t ∈ ts, ¬t.LeavesEarly true :=
  forall_of_all h (fun _ => SExpr.not_leavesEarly_atom) fun _ => id

theorem not_exists_mem_all {place : Place} {ts : List SExpr} (h : ∀ t ∈ ts, ¬t.LeavesEarly true)
    (deep : Bool) : ¬∃ part ∈ place.all ts, part.LeavesEarly deep := by
  rintro ⟨part, hpart, hleaves⟩
  obtain ⟨t, ht, rfl⟩ := Place.mem_all hpart
  exact h t ht (hleaves.elim And.right fun ⟨_, h⟩ => h.deepen)

/-- What is asked of the parts of a function, where its body is lowered like statements. -/
structure OrderlyFunction (key : String) (spec : FunctionSpec) : Prop where
  defaults : ∀ part ∈ Place.value.all spec.params.defaults, part.Orderly key
  values : ∀ deep, ¬∃ part ∈ Place.value.all spec.params.defaults, part.LeavesEarly deep
  functions : ∀ deep, ¬∃ part ∈ spec.parts, part.LeavesEarly deep
  body : ∀ part ∈ Place.statement.all spec.body, part.Orderly key

theorem OrderlyFunction.of_parts {spec : FunctionSpec}
    (h : ∀ part ∈ functionParts spec.params spec.body, part.Orderly key) : OrderlyFunction key spec := by
  rw [functionParts, forall_mem_append] at h
  obtain ⟨hdefaults, hbody⟩ := h
  have hleave := not_leavesEarly_of_all hdefaults
  refine ⟨everywhere_all (fun _ => trivial) (everywhere_of_all hdefaults), not_exists_mem_all hleave, ?_,
    everywhere_all (fun _ => trivial) (everywhere_of_all hbody)⟩
  rintro deep ⟨part, hpart, hleaves⟩
  rcases FunctionSpec.mem_parts hpart with hpart | ⟨signature, rfl⟩
  · rcases mem_append.mp hpart with hpart | hpart
    · exact not_exists_mem_all hleave deep ⟨part, hpart, hleaves⟩
    · obtain ⟨t, -, rfl⟩ := Place.mem_all hpart
      simp [Part.LeavesEarly, Place.isWrapped] at hleaves
  · exact hleaves

/-! ## Leaving in the target -/

abbrev Scan.returns : Scan := outside .returns

theorem Scan.returns_not_awaits : ¬returns.marks .awaits := not_outside_marks Mark.noConfusion

theorem Scan.returns_not_yields : ¬returns.marks .yields := not_outside_marks Mark.noConfusion

/-- One of the entries marks an object that is thrown to leave a function. -/
def IsMarker (key : String) (entries : List Node) : Prop :=
  ∃ entry ∈ entries, ∃ name value shorthand, entry.kind = .property name value false shorthand ∧
    name.identifier? = some key

/-- The handler for marked objects: it returns the value of one, and throws anything else again. -/
def escapeHandler (key : String) (p : Option Position) : Node :=
  let caught : Node := ⟨.identifier "__sprig_escape" none, p⟩
  let mark : Node := ⟨.member caught ⟨.literal (.string key), p⟩ true, p⟩
  let value : Node := ⟨.member caught ⟨.identifier "value" none, none⟩ false, p⟩
  ⟨.catchClause (some caught) ⟨.block
    [⟨.ifStatement ⟨.logical .and caught mark, p⟩ ⟨.returnStatement (some value), p⟩ none, p⟩,
      ⟨.throwStatement caught, p⟩], p⟩, p⟩

/-- The `try` statement whose block holds the statements, and whose handler is the one for marked
objects. -/
def escapeTry (key : String) (p : Option Position) (statements : List Node) : Node :=
  ⟨.tryStatement ⟨.block statements, p⟩ (some (escapeHandler key p)) none, p⟩

/-- The body of the function is a single `try` statement that catches marked objects. -/
def Function.Catches (key : String) (f : Function) : Prop :=
  ∃ p statements, f.body = [escapeTry key p statements]

theorem catchEarlyReturn_eq (key : String) (p : Option Position) (statements : List Node) :
    catchEarlyReturn key p statements = [escapeTry key p statements] := rfl

/-- Looks for marked objects, everywhere but in the bodies of functions that catch them. -/
def Scan.uncaught (key : String) : Scan where
  marks := fun mark => ∃ entries, mark = .object entries ∧ IsMarker key entries
  params := True
  body := fun f => ¬f.Catches key

theorem Scan.not_uncaught_marks {mark : Mark} (h : ∀ entries, mark ≠ .object entries) :
    ¬(uncaught key).marks mark :=
  fun ⟨entries, hmark, _⟩ => h entries hmark

theorem Scan.uncaught_not_awaits : ¬(uncaught key).marks .awaits :=
  not_uncaught_marks fun _ => Mark.noConfusion

theorem Scan.uncaught_not_yields : ¬(uncaught key).marks .yields :=
  not_uncaught_marks fun _ => Mark.noConfusion

theorem Scan.uncaught_ignores : (uncaught key).search.Ignores :=
  ignores (not_uncaught_marks fun _ => Mark.noConfusion)

section

variable {F : Node → Prop} {S : Search F} {guards : Node → Prop} {leaves : List Leaf} {δ : Suspension}
  {node : Node}

theorem Composed.exists_found (hawaits : ¬S.marks .awaits) (hyields : ¬S.marks .yields)
    (hwithin : ∀ body δ, S.within (wrapping body δ) → S.Ignores ∧ ∃ s ∈ body, F s)
    (h : Composed guards leaves δ node) (hfinds : F node) :
    (∃ block, guards block ∧ S.guards block) ∨ ∃ leaf ∈ leaves, S.At leaf := by
  induction h with
  | built hnode => exact .inr ((hnode.found_iff S).mp hfinds)
  | @guarded leaves leaves' _ block handler finalizer _ hguards hblock hheld =>
    rcases (S.iff _).mp hfinds with ⟨mark, hmark, -⟩ | ⟨_, hblock, hfinds⟩ | hslots | ⟨f, hf, -⟩
    · cases hmark
    · cases hblock
      exact .inl ⟨_, hguards, hfinds⟩
    · exact .inr (((BuiltAll.cons hblock hheld).found_iff S).mp hslots)
    · cases hf
  | wrapped hbody =>
    obtain ⟨hS, hfinds⟩ := hwithin _ _ (within_of_wrapped hawaits hyields hfinds)
    obtain ⟨leaf, hleaf, hfinds⟩ := (hbody.found_iff S).mp (Slot.exists_mem_all.mpr hfinds)
    rcases mem_append.mp hleaf with hleaf | hleaf
    · exact .inr ⟨leaf, hleaf, hfinds⟩
    · cases mem_singleton.mp hleaf
      exact absurd hfinds hS.returns
  | loop hdeclared hbody =>
    obtain ⟨hS, hfinds⟩ := hwithin _ _ (within_of_wrapped hawaits hyields hfinds)
    have hstmts := (exists_mem_loop hS.returns hdeclared).mp (.inl hfinds)
    refine .inr ((hbody.found_iff S).mp (Slot.exists_mem_all.mpr ?_))
    simp only [mem_append, or_and_right, exists_or, exists_mem_returningAll hS] at hstmts ⊢
    exact hstmts
  | move hkind _ ih => exact ih ((S.move hkind).mp hfinds)

theorem Composed.exists_leaf {scan : Scan} (hawaits : ¬scan.marks .awaits)
    (hyields : ¬scan.marks .yields) (hreturns : scan.marks .returns → ∀ f, ¬scan.body f)
    (h : Composed guards leaves δ node) (hfinds : scan.Finds node) :
    ∃ leaf ∈ leaves, scan.FindsAt leaf := by
  have hwithin (body : List Node) (δ : Suspension) (h : scan.search.within (wrapping body δ)) :
      scan.search.Ignores ∧ ∃ s ∈ body, scan.Finds s := by
    obtain ⟨hbody, hfinds⟩ := findsIn_wrapping.mp h
    exact ⟨ignores fun hmarks => hreturns hmarks _ hbody, hfinds⟩
  rcases h.exists_found (S := scan.search) hawaits hyields hwithin hfinds with ⟨_, -, h⟩ | h
  · exact h.elim
  · simpa only [scan.search_at] using h

end

/-- The defaults of declared functions hold neither `return` statements nor marked objects. -/
abbrev Registry.Harmless (key : String) (registry : Registry) : Prop :=
  registry.StoresOnly fun default => ¬returns.Finds default ∧ ¬(uncaught key).Finds default

end LispLowering
