import LispLowering.Proofs.Recur.Forms

/-!
# Jumps in tail position
-/

namespace LispLowering

open Lowering List

variable {body : List Node}

/-! ## Nodes -/

namespace Node

variable {label : String} {arity : Nat} {node : Node}

/-- How many calls of the label stand in tail position when the node returns its value. -/
def ending (label : String) (node : Node) : Nat := bodyJumps label node.returning

theorem returning_of_expression (h : node.isStatement = false) :
    node.returning = [⟨.returnStatement (some node), node.position⟩] := by
  obtain ⟨kind, p⟩ := node
  cases kind <;> first | rfl | cases h

theorem ending_of_expression (h : node.isStatement = false) :
    node.ending label = valueJumps label node := by
  rw [ending, returning_of_expression h]
  rfl

theorem returning_asStatement : node.asStatement.returning = node.returning := by
  unfold asStatement
  split
  · rfl
  · next h =>
    rw [returning_of_expression (Bool.eq_false_iff.mpr h)]
    rfl

theorem tailJumps_joined (p : Option Position) :
    tailJumps label (joined p body) = bodyJumps label body := by
  unfold joined
  split
  · simp [bodyJumps]
  · rfl

theorem ending_thenReturn {name : Option String} (h : node.returning = thenReturn node name)
    (htail : tailJumps label node = 0) : node.ending label = 0 := by
  rw [ending, h, bodyJumps_thenReturn htail]

theorem ending_orPlace (p : Option Position) : (node.orPlace p).ending label = node.ending label := by
  obtain ⟨kind, q⟩ := node
  cases kind with
  | functionDeclaration | classDeclaration | enumDeclaration | variableDeclaration =>
    rw [ending_thenReturn rfl rfl, ending_thenReturn rfl rfl]
  | _ => rfl

def endingOption (label : String) : Option Node → Nat
  | none => 0
  | some node => node.ending label

theorem ending_choose (test consequent : Node) (alternate : Option Node) :
    (choose test consequent alternate).ending label =
      consequent.ending label + endingOption label alternate := by
  unfold choose
  split
  · have hbranch (node : Node) (p : Option Position) :
        tailJumps label (joined p (returning node.asStatement)) = node.ending label := by
      rw [tailJumps_joined, returning_asStatement, ending]
    cases alternate with
    | none =>
      simp only [ending, branch, of, Option.map, returning, returningOption, bodyJumps, tailJumps,
        optionJumps, hbranch, endingOption, Nat.add_zero]
    | some node =>
      simp only [ending, branch, of, Option.map, returning, returningOption, bodyJumps, tailJumps,
        optionJumps, hbranch, endingOption, Nat.add_zero]
  · next h =>
    simp only [Bool.or_eq_true, not_or, Bool.not_eq_true] at h
    rw [ending_of_expression rfl, ending_of_expression h.1]
    cases alternate with
    | none => rfl
    | some node => rw [endingOption, ending_of_expression h.2]; rfl

/-! ### Tailed nodes -/

/-- All calls of the label in the node stand in tail position and have as many arguments as the loop has
variables. -/
inductive Tailed (label : String) (arity : Nat) : Node → Prop where
  | lacks {node : Node} : node.Lacks label → Tailed label arity node
  | jump {callee : Node} {arguments : List Node} {optional : Bool} {p : Option Position} :
      callee.identifier? = some label → arguments.length = arity → LackIn label arguments →
      Tailed label arity ⟨.call callee arguments optional, p⟩
  | choice {test consequent alternate : Node} {p : Option Position} : test.Lacks label →
      consequent.isStatement = false → alternate.isStatement = false → Tailed label arity consequent →
      Tailed label arity alternate → Tailed label arity ⟨.conditional test consequent alternate, p⟩
  | statement {expression : Node} {p : Option Position} : expression.isStatement = false →
      Tailed label arity expression → Tailed label arity ⟨.expressionStatement expression, p⟩
  | branch {test consequent : Node} {alternate : Option Node} {p : Option Position} :
      test.Lacks label → Tailed label arity consequent →
      (∀ node ∈ alternate, Tailed label arity node) →
      Tailed label arity ⟨.ifStatement test consequent alternate, p⟩
  | block {body : List Node} {p : Option Position} : LackIn label body.dropLast →
      (∀ last ∈ body.getLast?, Tailed label arity last) → Tailed label arity ⟨.block body, p⟩

/-- Only the last statement of the body has calls of the label, all of them in tail position. -/
def TailedIn (label : String) (arity : Nat) (body : List Node) : Prop :=
  LackIn label body.dropLast ∧ ∀ last ∈ body.getLast?, Tailed label arity last

theorem Tailed.orPlace (h : Tailed label arity node) (p : Option Position) :
    Tailed label arity (node.orPlace p) := by
  cases h with
  | lacks h => exact .lacks ((fold_orPlace p node).mpr h)
  | jump hcallee hcount hgiven => exact .jump hcallee hcount hgiven
  | choice htest hc ha hthen helse => exact .choice htest hc ha hthen helse
  | statement he hexpr => exact .statement he hexpr
  | branch htest hthen helse => exact .branch htest hthen helse
  | block hbefore hlast => exact .block hbefore hlast

theorem Tailed.asStatement (h : Tailed label arity node) : Tailed label arity node.asStatement := by
  unfold Node.asStatement
  split
  · exact h
  · next hexpr => exact .statement (Bool.eq_false_iff.mpr hexpr) h

theorem Tailed.choose {n : Nat} {test consequent : Node} {alternate : Option Node}
    (htest : test.Lacks (loopLabel n)) (hthen : Tailed (loopLabel n) arity consequent)
    (helse : ∀ node ∈ alternate, Tailed (loopLabel n) arity node) :
    Tailed (loopLabel n) arity (choose test consequent alternate) := by
  unfold Node.choose
  split
  · refine .branch htest hthen.asStatement fun node hnode => ?_
    obtain ⟨node, hmem, rfl⟩ := Option.map_eq_some_iff.mp hnode
    exact (helse node hmem).asStatement
  · next h =>
    simp only [Bool.or_eq_true, not_or, Bool.not_eq_true] at h
    cases alternate with
    | none => exact .choice htest h.1 rfl hthen (.lacks (lacks_undefined none))
    | some node => exact .choice htest h.1 h.2 hthen (helse node rfl)

/-! ### Bodies -/

theorem returningAll_eq :
    returningAll body = body.dropLast ++ (body.getLast?.map returning).getD [] := by
  induction body with
  | nil => rfl
  | cons node rest ih =>
    cases rest with
    | nil => rfl
    | cons next rest => simp [returningAll, ih]

theorem bodyJumps_returningAll : bodyJumps label (returningAll body) =
      bodyJumps label body.dropLast + endingOption label body.getLast? := by
  rw [returningAll_eq, bodyJumps_append]
  cases body.getLast? <;> rfl

theorem bodyJumps_returningAll_append {after : List Node} (h : after ≠ []) (before : List Node) :
    bodyJumps label (returningAll (before ++ after)) =
      bodyJumps label before + bodyJumps label (returningAll after) := by
  have hlast := getLast?_eq_some_getLast h
  rw [bodyJumps_returningAll, bodyJumps_returningAll, dropLast_append_of_ne_nil h,
    getLast?_append, hlast, bodyJumps_append, Nat.add_assoc]
  rfl

theorem TailedIn.of_lacks {body : List Node} (h : LackIn label body) : TailedIn label arity body := by
  rw [LackIn, allIn_iff] at h
  exact ⟨allIn_iff.mpr fun node hnode => h node (dropLast_subset body hnode),
    fun last hlast => .lacks (h last (mem_of_getLast? hlast))⟩

theorem TailedIn.append {before after : List Node} (h : LackIn label before)
    (hafter : TailedIn label arity after) (hne : after ≠ []) : TailedIn label arity (before ++ after) := by
  have hlast := getLast?_eq_some_getLast hne
  unfold TailedIn
  rw [dropLast_append_of_ne_nil hne, getLast?_append, hlast]
  refine ⟨allIn_append.mpr ⟨h, hafter.1⟩, fun last _ => hafter.2 last ?_⟩
  rwa [hlast]

end Node

/-! ## Steps -/

/-- If the loop with the number `n` is the innermost one, it has so many variables. -/
def Context.HasArity (n arity : Nat) (c : Context) : Prop :=
  ∀ frame ∈ c.loops.head?, frame.label = loopLabel n → frame.arity = arity

theorem Context.HasArity.passes {n arity : Nat} {c d : Context} (h : c.HasArity n arity)
    (hpasses : c.Passes (.loop n) d) : d.HasArity n arity := by
  intro frame hframe hlabel
  have hloops := hpasses.loops
  match hc : c.loops, hd : d.loops, hloops with
  | [], [], _ => simp [hd] at hframe
  | top :: _, top' :: _, hsame =>
    obtain ⟨hlabels, harity, -⟩ := hsame
    simp only [hd, head?_cons, Option.mem_some_iff] at hframe
    subst hframe
    rw [harity]
    exact h top (by simp [hc]) (hlabels ▸ hlabel)

/-- Below a wrapper, if the step succeeds, the jumps that it meets and the `before` ones that were met for
its result make up for the calls in tail position of its result. If they are not more, the result has
the last property, and no default has the label. -/
def Tallied {α : Type} (n arity before : Nat) (m : Lower α) (U : α → Prop) (J : α → Nat)
    (T : α → Prop) : Prop :=
  ∀ c a d, c.Ready n → m c = .ok a d →
    c.Passes (.loop n) d ∧ U a ∧ c.met (.loop n) + J a ≤ d.met (.loop n) + before ∧
      (d.met (.loop n) + before = c.met (.loop n) + J a → c.HasArity n arity → c.registry.Lacks n →
        d.registry.Lacks n ∧ T a)

namespace Tallied

variable {α β : Type} {n arity before : Nat} {m : Lower α} {U T Z : α → Prop} {J : α → Nat}
  {U' T' : β → Prop} {J' : β → Nat}

variable (h : Tallied n arity before m U J T)

include h in
theorem run {c d : Context} {a : α} (hrun : m c = .ok a d)
    (hc : c.Ready n) : c.Passes (.loop n) d ∧ U a ∧ c.met (.loop n) + J a ≤ d.met (.loop n) + before ∧
      (d.met (.loop n) + before = c.met (.loop n) + J a → c.HasArity n arity → c.registry.Lacks n →
        d.registry.Lacks n ∧ T a) :=
  h c a d hc hrun

include h in
theorem shaped : Shaped n m U := by
  intro c a d hc hrun
  obtain ⟨hpasses, hU, -⟩ := h.run hrun hc
  exact ⟨hc.passes hpasses, hU⟩

theorem of_clear (h : Clear n m U Z) (hJ : ∀ a, U a → J a = before) (hT : ∀ a, U a → Z a → T a) :
    Tallied n arity before m U J T := by
  intro c a d hc hrun
  obtain ⟨hpasses, hU, hZ⟩ := h.run hrun hc
  have hmet := hpasses.met
  have hcount := hJ a hU
  refine ⟨hpasses, hU, by omega, fun _ _ hreg => ?_⟩
  obtain ⟨hreg, hlacks⟩ := hZ (by omega) hreg
  exact ⟨hreg, hT a hU hlacks⟩

theorem pure {a : α} (hU : U a) (hJ : J a = before) (hT : T a) :
    Tallied n arity before (Pure.pure a) U J T := by
  intro c b d _ hrun
  obtain ⟨rfl, rfl⟩ := pure_ok hrun
  exact ⟨.refl _, hU, by omega, fun _ _ hreg => ⟨hreg, hT⟩⟩

theorem refuse (e : Diagnostic) : Tallied n arity before (Lower.refuse e : Lower α) U J T := by
  intro c a d _ h
  cases h

theorem bind {k : α → Lower β} (hm : Tallied n arity before m U J T)
    (hk : ∀ a, U a → Tallied n arity (J a) (k a) U' J' fun b => T a → T' b) :
    Tallied n arity before (m >>= k) U' J' T' := by
  intro c b d hc h
  obtain ⟨a, e, ha, hb⟩ := bind_ok h
  obtain ⟨hpasses, hU, hle, hT⟩ := hm c a e hc ha
  obtain ⟨hpasses', hU', hle', hT'⟩ := hk a hU e b d (hc.passes hpasses) hb
  refine ⟨hpasses.trans hpasses', hU', by omega, fun _ harity hreg => ?_⟩
  -- Neither of the two steps has met more jumps than its result accounts for.
  obtain ⟨hreg, hTa⟩ := hT (by omega) harity hreg
  obtain ⟨hreg, hTb⟩ := hT' (by omega) (harity.passes hpasses) hreg
  exact ⟨hreg, hTb hTa⟩

theorem after {k : α → Lower β} (hm : Clear n m U Z)
    (hk : ∀ a, U a → Tallied n arity before (k a) U' J' fun b => Z a → T' b) :
    Tallied n arity before (m >>= k) U' J' T' :=
  .bind (J := fun _ => before) (.of_clear hm (fun _ _ => rfl) fun _ _ => id) hk

include h in
theorem ite {p : Prop} [Decidable p] {m' : Lower α}
    (h' : Tallied n arity before m' U J T) : Tallied n arity before (if p then m else m') U J T := by
  split
  · exact h
  · exact h'

theorem shift (h : Tallied n arity 0 m U J T) (before : Nat) :
    Tallied n arity before m U (fun a => before + J a) T := by
  intro c a d hc hrun
  obtain ⟨hpasses, hU, hle, hT⟩ := h c a d hc hrun
  exact ⟨hpasses, hU, by dsimp only; omega, fun hall => hT (by dsimp only at hall; omega)⟩

theorem map {g : α → β} (h : Tallied n arity 0 m U J T) (hclear : Clear n m U Z) (hU : ∀ a, U a → U' (g a))
    (hg : ∀ a, U a → (J' (g a) = J a ∧ (T a → T' (g a))) ∨ (J' (g a) = 0 ∧ (Z a → T' (g a)))) :
    Tallied n arity 0 (m >>= fun a => Pure.pure (g a)) U' J' T' := by
  intro c b d hc hrun
  obtain ⟨a, ha, rfl⟩ := map_ok hrun
  obtain ⟨hpasses, hUa, hle, hT⟩ := h c a _ hc ha
  obtain ⟨-, -, hZ⟩ := hclear.run ha hc
  rcases hg a hUa with ⟨hsame, hT'⟩ | ⟨hnone, hT'⟩
  · refine ⟨hpasses, hU a hUa, by omega, fun _ harity hreg => ?_⟩
    obtain ⟨hreg, hTa⟩ := hT (by omega) harity hreg
    exact ⟨hreg, hT' hTa⟩
  · refine ⟨hpasses, hU a hUa, by omega, fun _ _ hreg => ?_⟩
    obtain ⟨hreg, hlacks⟩ := hZ (by omega) hreg
    exact ⟨hreg, hT' hlacks⟩

/-! ### Surroundings -/

theorem inScope (names : List String) (h : Tallied n arity before m U J T) :
    Tallied n arity before (Lower.inScope names m) U J T := by
  intro c r d hc hrun
  obtain ⟨a, after, ha, rfl, rfl⟩ := within_ok hrun
  obtain ⟨hpasses, hU, hle, hT⟩ := h.run ha ⟨hc.helper, hc.taken, hc.wrapped⟩
  exact ⟨{ hpasses with wrapperDepth := hpasses.wrapperDepth }, hU, hle, hT⟩

include h in
theorem tracking :
    Tallied n arity before (Lower.tracking m) (fun r => U r.1) (fun r => J r.1) fun r => T r.1 := by
  intro c r d hc hrun
  obtain ⟨a, after, ha, rfl, rfl⟩ := within_ok hrun
  obtain ⟨hpasses, hU, hle, hT⟩ := h.run ha ⟨hc.helper, hc.taken, hc.wrapped⟩
  exact ⟨{ hpasses with wrapperDepth := hpasses.wrapperDepth }, hU, hle, hT⟩

include h in
theorem inExpression :
    Tallied n arity before (Lower.inExpression m) (fun r => U r.1) (fun r => J r.1) fun r => T r.1 := by
  intro c r d hc hrun
  obtain ⟨a, after, ha, rfl, rfl⟩ := within_ok hrun
  obtain ⟨hpasses, hU, hle, hT⟩ := h.tracking.run ha ⟨hc.helper, hc.taken, Nat.succ_ne_zero _⟩
  refine ⟨{ hpasses with wrapperDepth := ?_ }, hU, hle, hT⟩
  show after.wrapperDepth - 1 = c.wrapperDepth
  rw [hpasses.wrapperDepth, Nat.add_sub_cancel]

theorem inForm (name : String) (p : Option Position) (h : Tallied n arity before m U J T) :
    Tallied n arity before (Lowering.inForm name p m) U J T := by
  intro c a d hc hrun
  exact h c a d hc (inForm_ok hrun)

end Tallied

end LispLowering
