import LispLowering.Proofs.Placement

/-!
# Jumps in loops
-/

namespace LispLowering

open Lowering NodeKind Slot AllFit Node Option LoopVariable

variable {label : String} {params : List Node} {F : Node → Prop}
  {declarations : List Node}

/-! ## Sorts -/

theorem assignable_fits {param : Node} (h : expression.Fits param) :
    expression.Fits (assignable param) := by
  unfold assignable
  split
  · exact ident_fits _ _
  · exact h

variable {value : Node} {values body : List Node} {p : Option Position}

theorem assign_fits {target : Node} (htarget : expression.Fits target)
    (hvalue : expression.Fits value) (p : Option Position) :
    statement.Fits ⟨.expressionStatement ((assign target value).place p), p⟩ := by
  have hassign : expression.Fits ((assign target value).place p) :=
    ⟨rfl, .hold rfl rfl (cons_iff.mpr ⟨htarget, cons_iff.mpr ⟨hvalue, .nil⟩⟩)⟩
  exact ⟨rfl, .hold rfl rfl (cons_iff.mpr ⟨hassign, .nil⟩)⟩

section

variable (hparams : ∀ n ∈ params, expression.Fits n)

include hparams

theorem rebinding_fits (hvalues : ∀ n ∈ values, expression.Fits n) (p : Option Position) :
    ∀ s ∈ rebinding params values p, statement.Fits s := by
  have htargets : ∀ n ∈ params.map assignable, expression.Fits n := by
    simpa using fun n hn => assignable_fits (hparams n hn)
  -- several variables are assigned at once, so that no value sees a changed variable
  have hpattern : expression.Fits ⟨.arrayPattern ((params.map assignable).map some), p⟩ :=
    ⟨rfl, .hold rfl rfl (all_iff.mpr (by simpa using htargets))⟩
  have harray : expression.Fits ((Node.array values).place p) :=
    ⟨rfl, .hold rfl rfl (all_iff.mpr hvalues)⟩
  have hassign := assign_fits hpattern harray p
  unfold rebinding
  split
  · simp
  · next target value heq =>
    rw [heq] at htargets
    simpa using assign_fits (htargets target (by simp)) (hvalues value (by simp)) p
  · simpa using hassign

theorem jumpTo_fits (hvalues : ∀ n ∈ values, expression.Fits n) (p : Option Position) :
    statement.Fits (jumpTo label params values p) := by
  have hcontinue : statement.Fits ⟨.continueStatement (some label), p⟩ := ⟨rfl, .hold rfl rfl .nil⟩
  refine ⟨rfl, .hold rfl rfl (all_iff.mpr ?_)⟩
  rw [List.forall_mem_append]
  exact ⟨rebinding_fits hparams hvalues p, by simpa using hcontinue⟩

theorem returnOrJump_fits (p : Option Position) (value : Node) (h : expression.Fits value) :
    statement.Fits (returnOrJump label params p value) := by
  have hreturn : statement.Fits ⟨.returnStatement (some value), p⟩ := return_fits (by simpa using h)
  have hheld := h.sorted.held
  unfold returnOrJump
  split
  · split
    · simp only [slots, cons_iff, all_iff] at hheld
      exact jumpTo_fits hparams hheld.2 _
    · exact hreturn
  · next test consequent alternate q =>
    split
    · exact hreturn
    · simp only [slots, cons_iff] at hheld
      obtain ⟨htest, hthen, helse, -⟩ := hheld
      refine ⟨rfl, .hold rfl rfl ?_⟩
      simp only [slots, cons_iff, all_iff, mem_toList, Option.some.injEq, forall_eq']
      exact ⟨htest, returnOrJump_fits _ consequent hthen, returnOrJump_fits _ alternate helse⟩
  · exact hreturn

set_option linter.unusedSectionVars false in
mutual

theorem withJumps_fits {slot : Slot}
    (hslot : slot = .statement ∨ slot = .switchClause) {node : Node} (h : slot.Fits node) :
    slot.Fits (withJumps label params node) := by
  have hheld := h.sorted.held
  unfold withJumps
  split
  · next value p =>
    have hstmt : slot = .statement := by
      rcases hslot with rfl | rfl
      · rfl
      · cases h.admits
    simp only [slots, all_iff] at hheld
    rw [hstmt]
    exact returnOptionOrJump_fits hheld
  · next test consequent alternate p =>
    simp only [slots, cons_iff, all_iff] at hheld
    obtain ⟨htest, hthen, helse⟩ := hheld
    refine ⟨?_, .hold rfl rfl ?_⟩
    · rcases hslot with rfl | rfl <;> exact h.admits
    · simp only [slots, cons_iff, all_iff]
      exact ⟨htest, withJumps_fits (.inl rfl) hthen, optionWithJumps_fits helse⟩
  · next body p =>
    simp only [slots, all_iff] at hheld
    refine ⟨?_, .hold rfl rfl (all_iff.mpr (bodyWithJumps_fits (.inl rfl) hheld))⟩
    rcases hslot with rfl | rfl <;> exact h.admits
  · next name body p =>
    simp only [slots, cons_iff] at hheld
    have hbody := withJumps_fits (.inl rfl) hheld.1
    refine ⟨?_, .hold rfl rfl (cons_iff.mpr ⟨hbody, .nil⟩)⟩
    rcases hslot with rfl | rfl <;> exact h.admits
  · next discriminant cases p =>
    simp only [slots, cons_iff, all_iff] at hheld
    refine ⟨?_, .hold rfl rfl ?_⟩
    · rcases hslot with rfl | rfl <;> exact h.admits
    · simp only [slots, cons_iff, all_iff]
      exact ⟨hheld.1, bodyWithJumps_fits (.inr rfl) hheld.2⟩
  · next test consequent p =>
    simp only [slots, append_iff, all_iff] at hheld
    refine ⟨?_, .hold rfl rfl ?_⟩
    · rcases hslot with rfl | rfl <;> exact h.admits
    · simp only [slots, append_iff, all_iff]
      exact ⟨hheld.1, bodyWithJumps_fits (.inl rfl) hheld.2⟩
  · exact h

theorem bodyWithJumps_fits {slot : Slot}
    (hslot : slot = .statement ∨ slot = .switchClause) {body : List Node}
    (h : ∀ s ∈ body, slot.Fits s) : ∀ s ∈ bodyWithJumps label params body, slot.Fits s := by
  match body with
  | [] => simp [bodyWithJumps]
  | node :: rest =>
    unfold bodyWithJumps
    rw [List.forall_mem_cons] at h ⊢
    exact ⟨withJumps_fits hslot h.1, bodyWithJumps_fits hslot h.2⟩

theorem optionWithJumps_fits {branch : Option Node} (h : ∀ s ∈ branch.toList, statement.Fits s) :
    ∀ s ∈ (optionWithJumps label params branch).toList, statement.Fits s := by
  match branch with
  | none => simp [optionWithJumps]
  | some node =>
    simp only [optionWithJumps, mem_toList, Option.some.injEq, forall_eq']
    exact withJumps_fits (.inl rfl) (h node (by simp))

theorem returnOptionOrJump_fits {p : Option Position}
    {value : Option Node} (h : ∀ n ∈ value.toList, expression.Fits n) :
    statement.Fits (returnOptionOrJump label params p value) := by
  match value with
  | none => exact return_fits (by simp)
  | some value => exact returnOrJump_fits hparams p value (h value (by simp))

end

end

/-! ## Searches -/

namespace Search

variable (S : Search F)

include S

variable {p : Option Position}

theorem finds_labeled {name : String} {body : Node} : F ⟨.labeled name body, p⟩ ↔ F body := by
  rw [S.iff]
  simp [NodeKind.marks, guarded?, slots, definition?]

theorem finds_switch {discriminant : Node} {cases : List Node} :
    F ⟨.switchStatement discriminant cases, p⟩ ↔ F discriminant ∨ ∃ n ∈ cases, F n := by
  rw [S.iff]
  simp [NodeKind.marks, guarded?, slots, definition?, all]

theorem finds_switchCase {test : Option Node} {consequent : List Node} :
    F ⟨.switchCase test consequent, p⟩ ↔ (∃ n ∈ test.toList, F n) ∨ ∃ s ∈ consequent, F s := by
  rw [S.iff]
  simp [NodeKind.marks, guarded?, slots, definition?, all, or_and_right, exists_or]

theorem finds_call {callee : Node} {optional : Bool} :
    F ⟨.call callee arguments optional, p⟩ ↔ F callee ∨ ∃ n ∈ arguments, F n := by
  rw [S.iff]
  simp [NodeKind.marks, guarded?, slots, definition?, all]

theorem finds_conditional {test consequent alternate : Node} :
    F ⟨.conditional test consequent alternate, p⟩ ↔ F test ∨ F consequent ∨ F alternate := by
  rw [S.iff]
  simp [NodeKind.marks, guarded?, slots, definition?]

theorem finds_assign {target : Node} : F ⟨.expressionStatement ((assign target value).place p), p⟩ ↔
      F target ∨ F value := by
  rw [S.finds_expressionStatement, S.iff]
  simp [NodeKind.marks, guarded?, slots, definition?, assign, Node.of, Node.place]

theorem finds_array : F ((Node.array values).place p) ↔ ∃ n ∈ values, F n := by
  rw [S.iff]
  simp [NodeKind.marks, guarded?, slots, definition?, all, Node.array, Node.of, Node.place]

theorem finds_arrayPattern {targets : List Node} :
    F ⟨.arrayPattern (targets.map some), p⟩ ↔ ∃ n ∈ targets, F n := by
  rw [S.iff]
  simp [NodeKind.marks, guarded?, slots, definition?, all, List.flatMap_map]

theorem finds_continue : ¬F ⟨.continueStatement (some label), p⟩ := by
  rw [S.iff]
  simp [NodeKind.marks, guarded?, slots, definition?]

theorem finds_identifier {node : Node} {name : String} {type : Option TypeExpr}
    (h : node.kind = .identifier name type) : ¬F node := by
  rw [S.iff]
  simp [h, NodeKind.marks, guarded?, slots, definition?]

theorem finds_assignable {param : Node} : F (assignable param) ↔ F param := by
  unfold assignable
  split
  · next name type hkind => simp [S.finds_identifier hkind, S.finds_ident]
  · exact Iff.rfl

theorem exists_mem_rebinding : (∃ s ∈ rebinding params values p, F s) ↔
      (∃ n ∈ params, F n) ∨ params ≠ [] ∧ ∃ n ∈ values, F n := by
  have htargets : (∃ n ∈ params.map assignable, F n) ↔ ∃ n ∈ params, F n := by
    simp [S.finds_assignable]
  rw [← htargets]
  unfold rebinding
  split
  · next hnone => simp [List.map_eq_nil_iff.mp hnone]
  · next target value hone =>
    have hparams : params ≠ [] := by
      rintro rfl
      cases hone
    simp [hone, hparams, S.finds_assign]
  · next targets values hnone hone =>
    have hparams : params ≠ [] := by
      rintro rfl
      exact hnone rfl
    simp only [List.mem_singleton, exists_eq_left, S.finds_assign, S.finds_array,
      S.finds_arrayPattern, ne_eq, hparams, not_false_eq_true, true_and]

end Search

variable {S : Search F}

/-- The arguments of the calls of the label that a returned value ends in. -/
def valueArguments (label : String) : Node → List Node
  | ⟨.call callee arguments _, _⟩ => if isJumpTo label callee then arguments else []
  | ⟨.conditional _ consequent alternate, _⟩ =>
    valueArguments label consequent ++ valueArguments label alternate
  | _ => []

mutual

/-- The arguments of the calls of the label in tail position of a statement. -/
def tailArguments (label : String) : Node → List Node
  | ⟨.returnStatement value, _⟩ => optionValueArguments label value
  | ⟨.ifStatement _ consequent alternate, _⟩ =>
    tailArguments label consequent ++ optionArguments label alternate
  | ⟨.block body, _⟩ => bodyArguments label body
  | ⟨.labeled _ body, _⟩ => tailArguments label body
  | ⟨.switchStatement _ cases, _⟩ => bodyArguments label cases
  | ⟨.switchCase _ consequent, _⟩ => bodyArguments label consequent
  | _ => []

def bodyArguments (label : String) : List Node → List Node
  | [] => []
  | node :: rest => tailArguments label node ++ bodyArguments label rest

def optionArguments (label : String) : Option Node → List Node
  | none => []
  | some node => tailArguments label node

def optionValueArguments (label : String) : Option Node → List Node
  | none => []
  | some value => valueArguments label value

end

theorem valueArguments_eq_nil (h : valueJumps label value = 0) : valueArguments label value = [] := by
  fun_induction valueJumps label value with
  | case1 callee arguments optional p hjump => cases h
  | case2 callee arguments optional p hother => simp [valueArguments, hother]
  | case3 test consequent alternate p hthen helse =>
    obtain ⟨hzero, hzero'⟩ := Nat.add_eq_zero_iff.mp h
    simp [valueArguments, hthen hzero, helse hzero']
  | case4 value hcall hconditional => simp [valueArguments]

/-- Jumps account for what a search found in the statements before: it is found in them afterwards, or in
an argument that was dropped because the loop has no variables. The variables of the loop come in with
the jumps. -/
def Accounts (F : Node → Prop) (params : List Node) (new : Prop) (arguments : List Node)
    (old : Prop) : Prop :=
  (∃ n ∈ params, F n) ∨ new ∨ (params = [] ∧ ∃ n ∈ arguments, F n) ↔ (∃ n ∈ params, F n) ∨ old

namespace Accounts

variable {arguments arguments' : List Node} {new old new' old' : Prop}

theorem same (h : new ↔ old) : Accounts F params new [] old := by
  simp [Accounts, h]

theorem or (h : Accounts F params new arguments old) (h' : Accounts F params new' arguments' old') :
    Accounts F params (new ∨ new') (arguments ++ arguments') (old ∨ old') := by
  unfold Accounts at *
  simp only [List.mem_append, or_and_right, exists_or, and_or_left]
  generalize (∃ n ∈ params, F n) = found at *
  generalize (∃ n ∈ arguments, F n) = dropped at *
  generalize (∃ n ∈ arguments', F n) = dropped' at *
  tauto

theorem beside {kept : Prop} (h : Accounts F params new arguments old) :
    Accounts F params (kept ∨ new) arguments (kept ∨ old) :=
  or (same Iff.rfl) h

theorem iff {kept : Prop} (h : Accounts F params new arguments old) (hparams : (∃ n ∈ params, F n) → kept) :
    (kept ∨ new) ∨ (params = [] ∧ ∃ n ∈ arguments, F n) ↔ kept ∨ old := by
  unfold Accounts at h
  generalize (∃ n ∈ params, F n) = found at *
  generalize (∃ n ∈ arguments, F n) = dropped at *
  tauto

end Accounts

theorem jumpTo_accounts (S : Search F) {callee : Node} {optional : Bool}
    {q : Option Position} (h : isJumpTo label callee = true) :
    Accounts F params (F (jumpTo label params arguments p)) arguments
      (F ⟨.call callee arguments optional, q⟩) := by
  have hcallee : ¬F callee := by
    have hname : callee.identifier? = some label := of_decide_eq_true h
    unfold identifier? at hname
    split at hname
    · next name type hkind => exact S.finds_identifier hkind
    · cases hname
  have hjump : F (jumpTo label params arguments p) ↔
      ∃ s ∈ rebinding params arguments p ++ [⟨.continueStatement (some label), p⟩], F s :=
    S.finds_block
  unfold Accounts
  rw [hjump, S.finds_call]
  simp only [List.mem_append, or_and_right, exists_or, List.mem_singleton, exists_eq_left,
    S.exists_mem_rebinding, S.finds_continue, or_false, hcallee, false_or]
  by_cases hparams : params = [] <;> simp [hparams]

section

variable (hreturns : ¬S.marks .returns)

include hreturns

theorem returnOrJump_accounts (p : Option Position) (value : Node) :
    Accounts F params (F (returnOrJump label params p value)) (valueArguments label value) (F value) := by
  have hreturn (value : Node) (p : Option Position) :
      F ⟨.returnStatement (some value), p⟩ ↔ F value := by
    simp [S.finds_return, hreturns]
  fun_induction returnOrJump label params p value with
  | case1 p callee arguments optional q hjump =>
    simp only [valueArguments, hjump, if_true]
    exact jumpTo_accounts S hjump
  | case2 p callee arguments optional q hother =>
    simp only [valueArguments, hother]
    exact .same (hreturn _ _)
  | case3 p test consequent alternate q hzero =>
    obtain ⟨hthen, helse⟩ := Nat.add_eq_zero_iff.mp hzero
    simp only [valueArguments, valueArguments_eq_nil hthen, valueArguments_eq_nil helse]
    exact .same (hreturn _ _)
  | case4 p test consequent alternate q hjumps hthen helse =>
    simp only [valueArguments, S.finds_if, S.finds_conditional, toList_some,
      List.mem_singleton, exists_eq_left]
    exact .beside (.or hthen helse)
  | case5 p value hcall hconditional =>
    simp only [valueArguments]
    exact .same (hreturn _ _)

set_option linter.unusedSectionVars false in
mutual

theorem withJumps_accounts (node : Node) :
    Accounts F params (F (withJumps label params node)) (tailArguments label node) (F node) := by
  unfold withJumps
  split
  · next value p =>
    simp only [tailArguments, S.finds_return, hreturns, false_or]
    exact returnOptionOrJump_accounts p value
  · next test consequent alternate p =>
    simp only [tailArguments, S.finds_if]
    exact .beside
      (.or (withJumps_accounts consequent) (optionWithJumps_accounts alternate))
  · next body p =>
    simp only [tailArguments, S.finds_block]
    exact bodyWithJumps_accounts body
  · next name body p =>
    simp only [tailArguments, S.finds_labeled]
    exact withJumps_accounts body
  · next discriminant cases p =>
    simp only [tailArguments, S.finds_switch]
    exact .beside (bodyWithJumps_accounts cases)
  · next test consequent p =>
    simp only [tailArguments, S.finds_switchCase]
    exact .beside (bodyWithJumps_accounts consequent)
  · simp only [tailArguments]
    exact .same Iff.rfl

theorem bodyWithJumps_accounts (body : List Node) :
    Accounts F params (∃ s ∈ bodyWithJumps label params body, F s)
      (bodyArguments label body) (∃ s ∈ body, F s) := by
  match body with
  | [] => exact .same (by simp [bodyWithJumps])
  | node :: rest =>
    simp only [bodyWithJumps, bodyArguments, List.mem_cons, exists_eq_or_imp]
    exact .or (withJumps_accounts node) (bodyWithJumps_accounts rest)

theorem optionWithJumps_accounts (branch : Option Node) :
    Accounts F params (∃ s ∈ (optionWithJumps label params branch).toList, F s)
      (optionArguments label branch) (∃ s ∈ branch.toList, F s) := by
  match branch with
  | none => exact .same (by simp [optionWithJumps])
  | some node =>
    simp only [optionWithJumps, optionArguments, toList_some, List.mem_singleton, exists_eq_left]
    exact withJumps_accounts node

theorem returnOptionOrJump_accounts (p : Option Position) (value : Option Node) :
    Accounts F params (F (returnOptionOrJump label params p value))
      (optionValueArguments label value) (∃ n ∈ value.toList, F n) := by
  match value with
  | none => exact .same (by simp [returnOptionOrJump, S.finds_return, hreturns])
  | some value =>
    simp only [optionValueArguments, toList_some, List.mem_singleton, exists_eq_left]
    exact returnOrJump_accounts hreturns p value

end

end

/-! ## The wrapper of a loop -/

theorem closedBody_fits (h : ∀ s ∈ body, statement.Fits s) : ∀ s ∈ closedBody p body, statement.Fits s := by
  unfold closedBody
  split
  · exact h
  · exact List.forall_mem_append.mpr ⟨h, by simpa using return_fits (by simp)⟩

theorem loopStatements_fits (hdecls : ∀ s ∈ declarations, statement.Fits s)
    (hbody : ∀ s ∈ body, statement.Fits s) :
    ∀ s ∈ loopStatements label p declarations body, statement.Fits s := by
  have hblock : statement.Fits ((Node.block body).place p) := ⟨rfl, .hold rfl rfl (all_iff.mpr hbody)⟩
  have htest : expression.Fits ((Node.bool true).place p) := ⟨rfl, .hold rfl rfl .nil⟩
  have hforever : statement.Fits
      ⟨.whileLoop ((Node.bool true).place p) ((Node.block body).place p), p⟩ :=
    ⟨rfl, .hold rfl rfl (cons_iff.mpr ⟨htest, cons_iff.mpr ⟨hblock, .nil⟩⟩)⟩
  refine List.forall_mem_append.mpr ⟨hdecls, ?_⟩
  simpa using ⟨rfl, .hold rfl rfl (cons_iff.mpr ⟨hforever, .nil⟩)⟩

theorem exists_mem_closedBody (hreturns : ¬S.marks .returns) :
    (∃ s ∈ closedBody p body, F s) ↔ ∃ s ∈ body, F s := by
  unfold closedBody
  split
  · exact Iff.rfl
  · simp [or_and_right, exists_or, S.finds_return, hreturns]

theorem exists_mem_loopStatements (S : Search F) :
    (∃ s ∈ loopStatements label p declarations body, F s) ↔
      (∃ s ∈ declarations, F s) ∨ ∃ s ∈ body, F s := by
  have hforever : F ⟨.whileLoop ((Node.bool true).place p) ((Node.block body).place p), p⟩ ↔
      ∃ s ∈ body, F s := by
    have hbool : ¬F ((Node.bool true).place p) := by
      simp [(Built.bool true).place p |>.found_iff S]
    have hblock : F ((Node.block body).place p) ↔ ∃ s ∈ body, F s := S.finds_block
    rw [S.iff]
    simp [NodeKind.marks, guarded?, slots, definition?, hbool, hblock]
  simp [loopStatements, or_and_right, exists_or, S.finds_labeled, hforever]

namespace Lowering.LoopVariable.IsDeclared

variable {binding : LoopVariable}

theorem target_mem (h : binding.IsDeclared) : ∃ declarator,
    binding.declaration.kind.slots = [(.declarator, declarator)] ∧
      (.expression, binding.target) ∈ declarator.kind.slots := by
  obtain ⟨init, p, hdecl⟩ := h
  refine ⟨⟨.variableDeclarator binding.target (some init), binding.target.position⟩, ?_, ?_⟩
  · rw [hdecl]
    rfl
  · simp [slots]

theorem target_fits (h : binding.IsDeclared) (hdecl : WellSorted binding.declaration) :
    expression.Fits binding.target := by
  obtain ⟨declarator, hslots, hmem⟩ := h.target_mem
  have hheld := hdecl.held
  rw [hslots, cons_iff] at hheld
  exact hheld.1.sorted.held _ hmem

theorem finds_target (S : Search F) (h : binding.IsDeclared) (htarget : F binding.target) :
    F binding.declaration := by
  obtain ⟨declarator, hslots, hmem⟩ := h.target_mem
  have hdeclr : F declarator := S.slot hmem htarget
  have hheld : (Slot.declarator, declarator) ∈ binding.declaration.kind.slots := by simp [hslots]
  exact S.slot hheld hdeclr

end Lowering.LoopVariable.IsDeclared

/-- The arguments that the jumps of a loop drop: a loop without variables has no use for them. -/
def droppedArguments (label : String) (bindings : List LoopVariable) (body : List Node) : List Node :=
  if bindings.isEmpty then bodyArguments label body else []

theorem exists_mem_loop (hreturns : ¬S.marks .returns) {bindings : List LoopVariable}
    (hdeclared : ∀ binding ∈ bindings, binding.IsDeclared) :
    (∃ s ∈ loopStatements label p (bindings.map declaration)
        (closedBody p (bodyWithJumps label (bindings.map target) body)), F s) ∨
        (∃ n ∈ droppedArguments label bindings body, F n) ↔
      ∃ s ∈ bindings.map declaration ++ body, F s := by
  -- what a jump assigns to is declared in front of the loop
  have htargets (h : ∃ n ∈ bindings.map target, F n) : ∃ s ∈ bindings.map declaration, F s := by
    obtain ⟨_, hn, hfinds⟩ := h
    obtain ⟨binding, hbinding, rfl⟩ := List.mem_map.mp hn
    exact ⟨_, List.mem_map_of_mem hbinding, (hdeclared binding hbinding).finds_target S hfinds⟩
  have hdropped : (∃ n ∈ droppedArguments label bindings body, F n) ↔
      bindings.map target = [] ∧ ∃ n ∈ bodyArguments label body, F n := by
    unfold droppedArguments
    cases bindings with
    | nil | cons => simp
  rw [exists_mem_loopStatements S, exists_mem_closedBody hreturns, hdropped]
  simp only [List.mem_append, or_and_right, exists_or]
  exact (bodyWithJumps_accounts hreturns body).iff htargets

end LispLowering
