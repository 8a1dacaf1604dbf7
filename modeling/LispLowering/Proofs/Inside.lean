import LispLowering.Proofs.Patterns.Reading

/-!
# Trees inside forms
-/

namespace LispLowering

variable {shape : MethodShape} {tree : SExpr}

def SExpr.Each (T : SExpr → Prop) : List SExpr → Prop
  | [] => True
  | t :: rest => T t ∧ SExpr.Each T rest

variable {T : SExpr → Prop} {t : SExpr} {ts : List SExpr}

namespace SExpr

theorem each_iff : Each T ts ↔ ∀ t ∈ ts, T t := by
  induction ts with
  | nil => simp [Each]
  | cons t rest ih => rw [Each, ih, List.forall_mem_cons]

theorem Each.imp {T' : SExpr → Prop} (h : Each T ts) (himp : ∀ t, T t → T' t) : Each T' ts :=
  each_iff.mpr fun t ht => himp t (each_iff.mp h t ht)

theorem Each.subset {parts : List SExpr} (h : Each T ts) (hsub : parts ⊆ ts) : Each T parts :=
  each_iff.mpr fun part hpart => each_iff.mp h part (hsub hpart)

end SExpr

theorem Hereditary.each {p : Option Position} (hT : Hereditary T) (h : T (.list ts p)) : SExpr.Each T ts :=
  SExpr.each_iff.mpr (hT _ _ h)

namespace Lowering

open SExpr (Each)

theorem bindingItems_of (hT : Hereditary T) (ht : T t) : Each T t.bindingItems := by
  unfold SExpr.bindingItems
  split
  · split
    · exact (hT.each ht).2
    · exact hT.each ht
  · trivial

theorem forall_some (ht : T t) : ∀ one ∈ some t, T one := by
  rintro _ ⟨⟩
  exact ht

/-- The trees of a range have the property. -/
structure ForRange.All (T : SExpr → Prop) (range : ForRange) : Prop where
  counter : T range.counter
  start : ∀ t ∈ range.start, T t
  stop : T range.stop
  step : ∀ t ∈ range.step, T t

theorem ForRange.all_of_items {range : ForRange} (hts : Each T ts)
    (hrange : ForRange.ofItems? ts = some range) : range.All T := by
  unfold ForRange.ofItems? at hrange
  split at hrange
  · cases hrange
    exact ⟨hts.1, by simp, hts.2.1, by simp⟩
  · cases hrange
    exact ⟨hts.1, forall_some hts.2.1, hts.2.2.1, by simp⟩
  · cases hrange
    exact ⟨hts.1, forall_some hts.2.1, hts.2.2.1, forall_some hts.2.2.2.1⟩
  · cases hrange

theorem spreadTarget?_form (h : spreadTarget? t = some (.form tree)) :
    ∃ mark p, t = .list [mark, tree] p ∧ mark.symbol? = some "..." := by
  unfold spreadTarget? at h
  split at h
  · simp at h
  · next mark _ p =>
    split at h
    · next hmark =>
      cases h
      exact ⟨mark, p, rfl, of_decide_eq_true hmark⟩
    · cases h
  · cases h

theorem spreadTarget?_of (hT : Hereditary T) (ht : T t)
    (h : spreadTarget? t = some (.form tree)) : T tree := by
  obtain ⟨_, _, rfl, -⟩ := spreadTarget?_form h
  exact (hT.each ht).2.1

theorem spliced?_of (hT : Hereditary T) (ht : T t) (h : spliced? t = some tree) : T tree := by
  unfold spliced? at h
  split at h
  · split at h
    · cases h
      exact (hT.each ht).2.1
    · cases h
  · cases h

/-! ## Functions and classes -/

theorem splitReturnType_of (hts : Each T ts) : Each T (splitReturnType ts).2 := by
  unfold splitReturnType
  split
  · split
    · exact hts.2
    · exact hts
  · exact hts

theorem implicitParams_defaults (count : Nat) : (implicitParams count).flatMap Pattern.defaults = [] := by
  simp [implicitParams, List.flatMap_map, Pattern.defaults, Pattern.kindDefaults]

/-- The parameters and the body of a method have the property. -/
structure MethodShape.All (T : SExpr → Prop) (shape : MethodShape) : Prop where
  params : T shape.params
  body : Each T shape.body

theorem namedMethod?_of {kind : MethodKind} {isAsync isGenerator : Bool}
    (hts : Each T ts) (hshape : namedMethod? kind isAsync isGenerator ts = some shape) : shape.All T := by
  unfold namedMethod? at hshape
  split at hshape
  · cases hshape
    exact ⟨hts.2.1, hts.2.2⟩
  · cases hshape

theorem methodShape?_of {head : String} (hts : Each T ts)
    (hshape : methodShape? head ts = some shape) : shape.All T := by
  unfold methodShape? at hshape
  split at hshape
  · split at hshape
    · cases hshape
      exact ⟨hts.1, hts.2⟩
    · cases hshape
  · exact namedMethod?_of hts hshape
  · exact namedMethod?_of hts hshape
  · split at hshape
    · exact namedMethod?_of hts.2 hshape
    · exact namedMethod?_of hts.2 hshape
    · cases hshape
  · exact namedMethod?_of hts hshape
  · exact namedMethod?_of hts hshape
  · cases hshape

theorem fieldShape?_of {head : String} {field : FieldShape} (hts : Each T ts)
    (hfield : fieldShape? head ts = some field) : ∀ t ∈ field.value, T t := by
  unfold fieldShape? at hfield
  dsimp only at hfield
  split at hfield
  · split at hfield
    · cases hfield
    · cases hfield
      simp
  · cases hfield
    exact forall_some hts.2.1
  · cases hfield

theorem staticMember?_of (hT : Hereditary T) (ht : T t) {inner : SExpr}
    (h : staticMember? t = some inner) : T inner := by
  unfold staticMember? at h
  split at h
  · split at h
    · cases h
      exact (hT.each ht).2.1
    · cases h
  · cases h

end Lowering

end LispLowering
