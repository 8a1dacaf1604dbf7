import Mathlib
import LispLowering.Lowering.Function

/-!
# The stages of building a function
-/

namespace LispLowering.Lowering

open Lower

variable {lower : Lowerer}

/-! ## Functions -/

namespace FunctionSpec

def entry (spec : FunctionSpec) (targets : List Node) : FunctionEntry :=
  { params := spec.params.params
    defaults := defaultsFrom 0 (spec.params.params.zip targets) []
    structured := spec.params.structured
    body := spec.body
    position := spec.position }

def remember (spec : FunctionSpec) (targets : List Node) : Lower Unit :=
  match spec.name with
  | some name =>
    if spec.isDeclared then declareFunction (Symbol.identifier name) (spec.entry targets) else pure ()
  | none => pure ()

def lowerParams (spec : FunctionSpec) (lower : Lowerer) : Lower (List Node) := do
  let targets ← lowerParamTargets lower 0 spec.params.params
  let params ← shapeParams spec.params spec.position targets
  spec.remember targets
  return params

def lowerInside (spec : FunctionSpec) (lower : Lowerer) (params : List Node) :
    Lower (List Node × Bool) :=
  inFunction <| inScope (params.flatMap Node.boundNames) <|
    if spec.returnsLast then lowerReturningBody lower spec.body else lowerBody lower spec.body

def function (spec : FunctionSpec) (params body : List Node) : Function :=
  { id := spec.name.map Symbol.identifier
    params, body
    isAsync := spec.isAsync
    isGenerator := spec.isGenerator
    isArrow := spec.isArrow
    returnType := spec.returnType
    typeParams := spec.typeParams }

end FunctionSpec

theorem buildFunction_eq (spec : FunctionSpec) : buildFunction lower spec = do
      let params ← spec.lowerParams lower
      let (body, leftEarly) ← spec.lowerInside lower params
      let key := (← get).options.earlyReturnKey
      return spec.function params
        (if leftEarly then catchEarlyReturn key spec.position body else body) := by
  obtain ⟨name, _, _, _, _, _, _, _, isDeclared, _, _⟩ := spec
  unfold FunctionSpec.lowerParams
  simp only [bind_assoc, pure_bind]
  cases name with
  | none => rfl
  | some name => cases isDeclared <;> rfl

theorem FunctionSpec.remember_cases (spec : FunctionSpec) (targets : List Node) :
    spec.remember targets = pure () ∨ ∃ name, spec.name = some name ∧ spec.isDeclared = true ∧
      spec.remember targets = declareFunction (Symbol.identifier name) (spec.entry targets) := by
  unfold FunctionSpec.remember
  split
  · next name hname =>
    split
    · next hdeclared => exact .inr ⟨name, hname, hdeclared, rfl⟩
    · exact .inl rfl
  · exact .inl rfl

/-- A function is declared with given lowered parameters: it is named, its parameters were read from a
tree, and they can be shaped. -/
structure FunctionSpec.Declaring (spec : FunctionSpec) (name : String) (targets : List Node) :
    Prop where
  isDeclared : spec.isDeclared = true
  named : ∃ symbol, spec.name = some symbol ∧ name = Symbol.identifier symbol
  read : ∃ t, ParamList.read t = .ok spec.params
  shaped : ∃ params, shapeParams spec.params spec.position targets = pure params

theorem paramEntry_cases (p : Option Position) (item : Pattern × Node) :
    (∃ entry, paramEntry p item = pure entry) ∨
      ∃ q, paramEntry p item = refuse (Fault.parameterMapKey.place q) := by
  obtain ⟨param, target⟩ := item
  unfold paramEntry
  dsimp only
  cases param.name? with
  | some name => exact .inl ⟨_, rfl⟩
  | none => exact .inr ⟨_, rfl⟩

theorem shapeParams_cases (list : ParamList) (p : Option Position) (targets : List Node) :
    (∃ params, shapeParams list p targets = pure params) ∨
      ∃ q, shapeParams list p targets = refuse (Fault.parameterMapKey.place q) := by
  have heach (items : List (Pattern × Node)) :
      (∃ entries, each (paramEntry p) items = pure entries) ∨
        ∃ q, each (paramEntry p) items = refuse (Fault.parameterMapKey.place q) := by
    induction items with
    | nil => exact .inl ⟨[], rfl⟩
    | cons item rest ih =>
      unfold each
      rcases paramEntry_cases p item with ⟨entry, hitem⟩ | ⟨q, hitem⟩
      · rcases ih with ⟨entries, hrest⟩ | ⟨q, hrest⟩
        · exact .inl ⟨entry :: entries, by rw [hitem, hrest]; rfl⟩
        · exact .inr ⟨q, by rw [hitem, hrest]; rfl⟩
      · exact .inr ⟨q, by rw [hitem]; rfl⟩
  unfold shapeParams
  split
  · rcases heach (list.params.zip targets) with ⟨entries, h⟩ | ⟨q, h⟩
    · exact .inl ⟨_, by rw [h]; rfl⟩
    · exact .inr ⟨q, by rw [h]; rfl⟩
  · exact .inl ⟨targets, rfl⟩

/-! ## Returns -/

def leaveWith (form : Form) (value : Option Node) : Lower Node := do
  let context ← get
  if context.wrapperDepth = 0 then return Node.return? value
  else
    set { context with earlyReturn := true }
    let value := value.getD (Node.undefined.place form.position)
    return Node.throw (earlyReturnMarker context.options.earlyReturnKey value form.position)

theorem lowerReturnOf_eq (form : Form) (arg : Option SExpr) : lowerReturnOf lower form arg = (do
      if (← get).functionDepth = 0 then form.refuse (.outside "return" .function)
      else leaveWith form (← option (lowerValue lower) arg)) :=
  rfl

end LispLowering.Lowering
