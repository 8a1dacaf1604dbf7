import Mathlib
import LispLowering.Target.Decode
import LispLowering.Target.Encode

/-!
# Types through their JSON form
-/

namespace LispLowering

open Json List

/-! ## Depth -/

namespace Json

theorem depthItems_le {items : List Json} {n : Nat} :
    depthItems items ≤ n ↔ ∀ item ∈ items, item.depth ≤ n := by
  induction items with
  | nil => simp [depthItems]
  | cons item rest ih => simp [depthItems, ih]

end Json

/-! ## Steps of reading -/

namespace Decode

variable {α β : Type}

theorem reads_then {step : Option α} {next : α → Option β} {a : α} {b : β} (hstep : step = some a)
    (hnext : next a = some b) : (step >>= next) = some b := by
  subst hstep
  exact hnext

theorem each_map {read : Json → Option α} {write : α → Json} {items : List α}
    (h : ∀ item ∈ items, read (write item) = some item) : each read (items.map write) = some items := by
  induction items with
  | nil => rfl
  | cons item rest ih =>
    obtain ⟨hitem, hrest⟩ := forall_mem_cons.mp h
    exact reads_then hitem (reads_then (ih hrest) rfl)

theorem listOf_map {read : Json → Option α} {write : α → Json} {items : List α}
    (h : ∀ item ∈ items, read (write item) = some item) :
    listOf read (.arr (items.map write)) = some items :=
  each_map h

theorem nullable_eq {read : Json → Option α} {value : Json} {a : α} (hvalue : value ≠ .null)
    (h : read value = some a) : nullable read value = some (some a) := by
  cases value with
  | null => exact absurd rfl hvalue
  | _ => simp [nullable, h]

theorem nullable_text (text : Option String) : nullable text? (.ofText? text) = some text := by
  cases text <;> rfl

theorem texts_ofTexts (items : List String) : texts (.ofTexts items) = some items :=
  listOf_map fun _ _ => rfl

theorem number_ofNumber {x : Binary64} (hx : x.isFinite = true) : (ofNumber x).number? = some x := by
  simp [ofNumber, hx, Json.number?]

end Decode

/-! ## Types -/

namespace TypeExpr

def inside : TypeExpr → List TypeExpr
  | .literal _ | .infer _ | .typeof _ | .raw _ => []
  | .reference _ types | .union types | .intersection types | .tuple types => types
  | .keyof type | .array type | .readonly type | .spread type => [type]
  | .indexedAccess a b | .mapped _ a b => [a, b]
  | .conditional a b c d => [a, b, c, d]
  | .function params returnType => params.map TypeParam.type ++ [returnType]

def number? : TypeExpr → Option Binary64
  | .literal (.number x) => some x
  | _ => none

/-- Every number in the type is finite, at every depth. -/
inductive FiniteNumbers : TypeExpr → Prop where
  | intro {type : TypeExpr} (own : ∀ x ∈ type.number?, x.isFinite = true)
      (inside : ∀ part ∈ type.inside, FiniteNumbers part) : FiniteNumbers type

theorem itemsJson_eq_map (types : List TypeExpr) : itemsJson types = types.map toJson := by
  induction types with
  | nil => rfl
  | cons type rest ih => simp [itemsJson, ih]

theorem paramsJson_eq_map (params : List TypeParam) : paramsJson params = params.map paramJson := by
  induction params with
  | nil => rfl
  | cons param rest ih => simp [paramsJson, ih]

variable {n : Nat}

theorem depthItems_itemsJson_le {types : List TypeExpr} :
    Json.depthItems (itemsJson types) ≤ n ↔ ∀ type ∈ types, type.toJson.depth ≤ n := by
  rw [itemsJson_eq_map, Json.depthItems_le, forall_mem_map]

theorem toJson_eq_obj (type : TypeExpr) : ∃ members, type.toJson = .obj members := by
  cases type <;> exact ⟨_, rfl⟩

theorem depth_type_of_depthItems {params : List TypeParam} (h : Json.depthItems (paramsJson params) ≤ n) :
    ∀ param ∈ params, param.type.toJson.depth ≤ n := by
  rw [paramsJson_eq_map, Json.depthItems_le, forall_mem_map] at h
  intro param hparam
  have hdepth := h param hparam
  obtain ⟨name, type⟩ := param
  simp only [paramJson, depth, depthMembers] at hdepth
  show type.toJson.depth ≤ n
  omega

theorem depth_inside {type : TypeExpr} (h : type.toJson.depth ≤ n + 1) :
    ∀ part ∈ type.inside, part.toJson.depth ≤ n := by
  cases type with
  | literal | infer | typeof | raw => exact forall_mem_nil _
  | reference _ types | union types | intersection types | tuple types =>
    simp only [toJson, tag, depth, depthMembers] at h
    rw [inside, ← depthItems_itemsJson_le]
    omega
  | function params returnType =>
    simp only [toJson, tag, depth, depthMembers] at h
    rw [inside, forall_mem_append, forall_mem_map, forall_mem_singleton]
    -- a parameter is an object of its own around its type, so the type lies deeper than the other parts
    exact ⟨depth_type_of_depthItems (by omega), by omega⟩
  | _ =>
    simp only [toJson, tag, depth, depthMembers] at h
    simp only [inside, forall_mem_cons, not_mem_nil, false_implies, implies_true, and_true]
    omega

end TypeExpr

namespace Decode

variable {read : Json → Option TypeExpr} {type : TypeExpr}

theorem listOf_types {types : List TypeExpr} (h : ∀ type ∈ types, read type.toJson = some type) :
    listOf read (.arr (TypeExpr.itemsJson types)) = some types := by
  rw [TypeExpr.itemsJson_eq_map]
  exact listOf_map h

theorem listOf_params {params : List TypeParam}
    (h : ∀ param ∈ params, read param.type.toJson = some param.type) :
    listOf (typeParamWith read) (.arr (TypeExpr.paramsJson params)) = some params := by
  rw [TypeExpr.paramsJson_eq_map]
  refine listOf_map fun param hparam => ?_
  have htype := h param hparam
  obtain ⟨name, type⟩ := param
  exact reads_then rfl (reads_then rfl (reads_then htype rfl))

theorem typeLiteral_toJson {value : TypeLiteral}
    (h : ∀ x, value = .number x → x.isFinite = true) : typeLiteral value.toJson = some value := by
  cases value with
  | string | bool => rfl
  | number x => exact congrArg (Option.map TypeLiteral.number) (number_ofNumber (h x rfl))

theorem typeWith_toJson (hown : ∀ x ∈ type.number?, x.isFinite = true)
    (hinside : ∀ part ∈ type.inside, read part.toJson = some part) :
    typeWith read type.toJson = some type := by
  -- the fields of what is written can be looked up by computation, so `rfl` passes every step but those
  -- that read a part
  cases type with
  | infer name | typeof name | raw text => rfl
  | literal value =>
    refine reads_then rfl (reads_then rfl (reads_then (typeLiteral_toJson ?_) rfl))
    rintro x rfl
    exact hown x rfl
  | union types | intersection types | tuple types | reference name types =>
    repeat first | exact reads_then (listOf_types hinside) rfl | refine reads_then rfl ?_
  | _ =>
    simp only [TypeExpr.inside, forall_mem_cons, forall_mem_append, forall_mem_map,
      not_mem_nil, false_implies, implies_true, and_true] at hinside
    try casesm* _ ∧ _
    repeat first
      | rfl
      | refine reads_then rfl ?_
      | refine reads_then ‹_› ?_
      | refine reads_then (listOf_params ‹_›) ?_

theorem typeWithin_toJson (h : type.FiniteNumbers) (fuel : Nat) (hfuel : type.toJson.depth ≤ fuel) :
    typeWithin fuel type.toJson = some type := by
  -- induction on the finiteness of the numbers, which goes down to the parts as the reader does
  induction h generalizing fuel with
  | @intro type own inside ih =>
    cases fuel with
    | zero =>
      obtain ⟨members, hmembers⟩ := type.toJson_eq_obj
      simp [hmembers, depth] at hfuel
    | succ fuel =>
      exact typeWith_toJson own fun part hpart =>
        ih part hpart fuel (TypeExpr.depth_inside hfuel part hpart)

theorem typeExpr_toJson (h : type.FiniteNumbers) : typeExpr type.toJson = some type :=
  typeWithin_toJson h _ (Nat.le_refl _)

end Decode

end LispLowering
