import LispLowering.Proofs.Scoping.Traversal

/-!
# Statements that change their place
-/

namespace LispLowering

open Node NodeKind Slot AllFit

variable {F : Node → Prop}
  {many : List Node} {value : Option Node}

/-! ## Returning a value -/

variable {p : Option Position} {node : Node} {scan : Scan} {body : List Node} {δ : Suspension}

theorem joined_fits (h : ∀ s ∈ many, statement.Fits s) :
    statement.Fits (joined p many) := by
  unfold joined
  split
  · exact h _ (.head _)
  · exact ⟨rfl, .hold rfl rfl (all_iff.mpr h)⟩

theorem return_fits (h : ∀ n ∈ value, expression.Fits n) :
    statement.Fits ⟨.returnStatement value, p⟩ :=
  ⟨rfl, .hold rfl rfl (all_iff.mpr (by simpa using h))⟩

theorem ident_fits (name : String) (p : Option Position) : expression.Fits ((ident name).place p) :=
  ⟨rfl, .hold rfl rfl .nil⟩

theorem thenReturn_fits (h : statement.Fits node) (name : Option String) :
    ∀ s ∈ thenReturn node name, statement.Fits s := by
  cases name with
  | none => simpa [thenReturn] using h
  | some name => simpa [thenReturn] using ⟨h, return_fits (by simpa using ident_fits name _)⟩

mutual

theorem returning_fits {node : Node} (h : WellSorted node) : ∀ s ∈ returning node, statement.Fits s := by
  have hheld := h.held
  unfold returning
  split
  · simp only [slots, cons_iff] at hheld
    simpa using return_fits (by simpa using hheld.1)
  · simp only [slots, all_iff] at hheld
    simp only [List.mem_singleton, forall_eq]
    exact ⟨rfl, .hold rfl rfl (all_iff.mpr (returningAll_fits hheld))⟩
  · simp only [slots, cons_iff, all_iff] at hheld
    obtain ⟨htest, hthen, helse⟩ := hheld
    simp only [List.mem_singleton, forall_eq]
    refine ⟨rfl, .hold rfl rfl ?_⟩
    simp only [slots, cons_iff, all_iff]
    exact ⟨htest, joined_fits (returning_fits hthen.sorted), returningOption_fits helse⟩
  · simp only [slots, cons_iff, append_iff, all_iff] at hheld
    obtain ⟨hblock, hhandler, hfinalizer⟩ := hheld
    simp only [List.mem_singleton, forall_eq]
    refine ⟨rfl, .hold rfl rfl ?_⟩
    simp only [slots, cons_iff, append_iff, all_iff]
    exact ⟨joined_fits (returning_fits hblock.sorted), returningHandler_fits hhandler, hfinalizer⟩
  · exact thenReturn_fits ⟨rfl, h⟩ _
  · exact thenReturn_fits ⟨rfl, h⟩ _
  · exact thenReturn_fits ⟨rfl, h⟩ _
  · exact thenReturn_fits ⟨rfl, h⟩ _
  · split
    · next hstmt => simpa using ⟨hstmt, h⟩
    · next hexpr =>
      simp only [List.mem_singleton, forall_eq]
      exact return_fits (by simpa using ⟨by simpa [admits] using hexpr, h⟩)

theorem returningAll_fits {body : List Node} (h : ∀ s ∈ body, statement.Fits s) :
    ∀ s ∈ returningAll body, statement.Fits s := by
  match body with
  | [] => simp [returningAll]
  | [last] =>
    exact returning_fits (h last (by simp)).sorted
  | node :: next :: rest =>
    unfold returningAll
    rw [List.forall_mem_cons] at h ⊢
    exact ⟨h.1, returningAll_fits h.2⟩

theorem returningOption_fits {branch : Option Node} (h : ∀ s ∈ branch.toList, statement.Fits s) :
    ∀ s ∈ (returningOption branch).toList, statement.Fits s := by
  match branch with
  | none => simp [returningOption]
  | some branch =>
    simp only [returningOption, Option.mem_toList, Option.some.injEq, forall_eq']
    exact joined_fits (returning_fits (h branch (by simp)).sorted)

theorem returningHandler_fits {handler : Option Node} (h : ∀ n ∈ handler.toList, Slot.handler.Fits n) :
    ∀ n ∈ (returningHandler handler).toList, Slot.handler.Fits n := by
  unfold returningHandler
  split
  · simp
  · next param body p =>
    have hheld := (h ⟨.catchClause param body, p⟩ (by simp)).sorted.held
    simp only [slots, append_iff, cons_iff] at hheld
    obtain ⟨hparam, hbody, -⟩ := hheld
    simp only [Option.mem_toList, Option.some.injEq, forall_eq']
    refine ⟨rfl, .hold rfl rfl ?_⟩
    simp only [slots, append_iff, cons_iff]
    exact ⟨hparam, joined_fits (returning_fits hbody.sorted), .nil⟩
  · exact h

end

/-! ### Searches -/

namespace Search

variable (S : Search F)

include S

theorem finds_return : F ⟨.returnStatement value, p⟩ ↔
      S.marks .returns ∨ ∃ n ∈ value.toList, F n := by
  rw [S.iff]
  simp [NodeKind.marks, guarded?, slots, definition?, all]

theorem finds_expressionStatement {e : Node} : F ⟨.expressionStatement e, p⟩ ↔ F e := by
  rw [S.iff]
  simp [NodeKind.marks, guarded?, slots, definition?]

theorem finds_block : F ⟨.block body, p⟩ ↔ ∃ s ∈ body, F s := by
  rw [S.iff]
  simp [NodeKind.marks, guarded?, slots, definition?, all]

theorem finds_if {test consequent : Node} {alternate : Option Node} :
    F ⟨.ifStatement test consequent alternate, p⟩ ↔
      F test ∨ F consequent ∨ ∃ s ∈ alternate.toList, F s := by
  rw [S.iff]
  simp [NodeKind.marks, guarded?, slots, definition?, all]

theorem finds_try {block : Node} {handler finalizer : Option Node} :
    F ⟨.tryStatement block handler finalizer, p⟩ ↔ (handler.isSome = true ∧ S.guards block) ∨
      F block ∨ (∃ n ∈ handler.toList, F n) ∨ ∃ s ∈ finalizer.toList, F s := by
  rw [S.iff]
  cases handler with
  | none | some => simp [NodeKind.marks, guarded?, slots, definition?, all]

theorem finds_catch {param : Option Node} {body : Node} : F ⟨.catchClause param body, p⟩ ↔
      (∃ n ∈ param.toList, F n) ∨ F body := by
  rw [S.iff]
  simp [NodeKind.marks, guarded?, slots, definition?, all]

theorem finds_ident {name : String} : ¬F ((ident name).place p) := by
  rw [S.iff]
  simp [NodeKind.marks, guarded?, slots, definition?, ident, typedIdent, of, place]

theorem finds_joined : F (joined p many) ↔ ∃ s ∈ many, F s := by
  unfold joined
  split
  · simp
  · exact S.finds_block

/-- The search does not look for `return`, and not for what changes when a guarded block is made to return
its value. -/
structure Ignores (S : Search F) : Prop where
  returns : ¬S.marks .returns
  guards : ∀ p block, S.guards (joined p (returning block)) ↔ S.guards block

end Search

theorem Scan.ignores (h : ¬scan.marks .returns) : scan.search.Ignores := ⟨h, fun _ _ => Iff.rfl⟩

theorem isSome_returningHandler (handler : Option Node) :
    (returningHandler handler).isSome = handler.isSome := by
  unfold returningHandler
  split <;> rfl

variable {S : Search F}

theorem exists_mem_thenReturn (hS : S.Ignores) (node : Node) (name : Option String) :
    (∃ s ∈ thenReturn node name, F s) ↔ F node := by
  cases name with
  | none => simp [thenReturn]
  | some name => simp [thenReturn, S.finds_return, hS.returns, S.finds_ident]

mutual

theorem exists_mem_returning (hS : S.Ignores) (node : Node) : (∃ s ∈ returning node, F s) ↔ F node := by
  unfold returning
  split
  · simp [S.finds_return, S.finds_expressionStatement, hS.returns]
  · next body p =>
    simp only [List.mem_singleton, exists_eq_left, S.finds_block]
    exact exists_mem_returningAll hS body
  · next test consequent alternate p =>
    simp only [List.mem_singleton, exists_eq_left, S.finds_if, S.finds_joined]
    rw [exists_mem_returning hS consequent, exists_mem_returningOption hS alternate]
  · next block handler finalizer p =>
    simp only [List.mem_singleton, exists_eq_left, S.finds_try, S.finds_joined,
      isSome_returningHandler, hS.guards]
    rw [exists_mem_returning hS block, exists_mem_returningHandler hS handler]
  · exact exists_mem_thenReturn hS _ _
  · exact exists_mem_thenReturn hS _ _
  · exact exists_mem_thenReturn hS _ _
  · exact exists_mem_thenReturn hS _ _
  · split
    · simp
    · simp [S.finds_return, hS.returns]

theorem exists_mem_returningAll (hS : S.Ignores) (body : List Node) :
    (∃ s ∈ returningAll body, F s) ↔ ∃ s ∈ body, F s := by
  match body with
  | [] => simp [returningAll]
  | [last] => simp [returningAll, exists_mem_returning hS last]
  | node :: next :: rest =>
    unfold returningAll
    rw [List.exists_mem_cons_iff, exists_mem_returningAll hS (next :: rest)]
    simp only [List.mem_cons, exists_eq_or_imp]

theorem exists_mem_returningOption (hS : S.Ignores) (branch : Option Node) :
    (∃ s ∈ (returningOption branch).toList, F s) ↔ ∃ s ∈ branch.toList, F s := by
  match branch with
  | none => simp [returningOption]
  | some branch => simp [returningOption, S.finds_joined, exists_mem_returning hS branch]

theorem exists_mem_returningHandler (hS : S.Ignores) (handler : Option Node) :
    (∃ n ∈ (returningHandler handler).toList, F n) ↔ ∃ n ∈ handler.toList, F n := by
  unfold returningHandler
  split
  · simp
  · next param body p =>
    simp [S.finds_catch, S.finds_joined, exists_mem_returning hS body]
  · simp

end

/-! ## Wrappers -/

def wrapping (body : List Node) (δ : Suspension) : Function :=
  { id := none, params := [], body, isAsync := δ.awaits, isGenerator := δ.yields,
    isArrow := !δ.yields, returnType := none, typeParams := [] }

/-- What a wrapper itself does. A generator is delegated to, whether it awaits or not. -/
def Suspension.leaves (δ : Suspension) : List Leaf :=
  if δ.yields then [.mark .yields] else if δ.awaits then [.mark .awaits] else []

theorem Built.awaited {leaves : List Leaf} (h : Built leaves .expression node) (p : Option Position) :
    Built (leaves ++ [.mark .awaits]) .expression ⟨.await node, p⟩ :=
  .marked rfl rfl rfl rfl (.one h)

theorem Built.yielded {leaves : List Leaf} (h : Built leaves .expression node) (p : Option Position) :
    Built (leaves ++ [.mark .yields]) .expression ⟨.yield (some node) true, p⟩ :=
  .marked rfl rfl rfl rfl (.one h)

theorem wrapped_built (body : List Node) (δ : Suspension) (p : Option Position) :
    Built (.function (wrapping body δ) :: δ.leaves) .expression (wrapped body δ p) := by
  obtain ⟨awaits, yields⟩ := δ
  have hfun : Built [.function (wrapping body ⟨awaits, yields⟩)] .expression
      ((Node.function (wrapping body ⟨awaits, yields⟩)).place p) := .define rfl rfl
  cases yields with
  | true =>
    have hthis : BuiltAll [] (expression.all [⟨.thisValue, p⟩]) := .one (.hold rfl .nil)
    exact ((((hfun.member "call").place p).call hthis).place p).yielded p
  | false =>
    have hnone : BuiltAll [] (expression.all []) := .nil
    have hcall := (hfun.call hnone).place p
    cases awaits with
    | true => exact hcall.awaited p
    | false => exact hcall

theorem wrapped_fits (h : ∀ s ∈ body, statement.Fits s) (δ : Suspension) (p : Option Position) :
    expression.Fits (wrapped body δ p) := by
  refine (wrapped_built body δ p).wellSorted (List.forall_mem_cons.mpr ⟨?_, ?_⟩)
  · simpa [Leaf.WellSorted, Function.slots, wrapping, all] using all_iff.mpr h
  · unfold Suspension.leaves
    split
    · simp [Leaf.WellSorted]
    · split
      · simp [Leaf.WellSorted]
      · simp

theorem within_of_wrapped (hawaits : ¬S.marks .awaits) (hyields : ¬S.marks .yields)
    (h : F (wrapped body δ p)) : S.within (wrapping body δ) := by
  obtain ⟨leaf, hleaf, hfinds⟩ := ((wrapped_built body δ p).found_iff S).mp h
  unfold Suspension.leaves at hleaf
  rcases List.mem_cons.mp hleaf with rfl | hleaf
  · exact hfinds
  split at hleaf
  · cases List.mem_singleton.mp hleaf
    exact absurd hfinds hyields
  · split at hleaf
    · cases List.mem_singleton.mp hleaf
      exact absurd hfinds hawaits
    · cases hleaf

theorem findsIn_wrapping :
    scan.FindsIn (wrapping body δ) ↔ scan.body (wrapping body δ) ∧ ∃ s ∈ body, scan.Finds s := by
  simp [Scan.FindsIn, wrapping]

theorem finds_wrapped :
    scan.Finds (wrapped body δ p) ↔ (scan.body (wrapping body δ) ∧ ∃ s ∈ body, scan.Finds s) ∨
      ∃ leaf ∈ δ.leaves, scan.FindsAt leaf := by
  rw [(wrapped_built body δ p).finds_iff, ← findsIn_wrapping]
  simp [Scan.FindsAt]

theorem asExpression_cases (node : Node) (δ : Suspension) :
    (node.isStatement = true ∧ asExpression node δ = wrapped (returning node) δ node.position) ∨
      (∀ F, Search F → (F (asExpression node δ) ↔ F node)) ∧
        (WellSorted node → expression.Fits (asExpression node δ)) := by
  unfold asExpression
  split
  · refine .inr ⟨fun _ S => S.finds_expressionStatement.symm, fun h => ?_⟩
    have hheld := h.held
    simp only [slots, cons_iff] at hheld
    exact hheld.1
  · next f p =>
    have hvalue : Built [.function f] .expression ⟨.function f, p⟩ := .define rfl rfl
    have hstmt : Built [.function f] .statement ⟨.functionDeclaration f, p⟩ := .define rfl rfl
    refine .inr ⟨fun _ S => (hvalue.found_iff S).trans (hstmt.found_iff S).symm,
      fun h => hvalue.wellSorted ?_⟩
    simpa [Leaf.WellSorted] using h.defined rfl
  · split
    · next hstmt => exact .inl ⟨hstmt, rfl⟩
    · next hexpr =>
      exact .inr ⟨fun _ _ => Iff.rfl, fun h => ⟨by simpa [admits] using hexpr, h⟩⟩

theorem asExpression_fits (h : WellSorted node) (δ : Suspension) :
    expression.Fits (asExpression node δ) := by
  rcases asExpression_cases node δ with ⟨-, hwrapped⟩ | ⟨-, hfits⟩
  · rw [hwrapped]
    exact wrapped_fits (returning_fits h) δ _
  · exact hfits h

end LispLowering
