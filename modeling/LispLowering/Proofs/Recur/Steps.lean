import LispLowering.Proofs.Provenance.Traversal

/-!
# Steps between two jumps
-/

namespace LispLowering

open Lowering

variable {α β : Type} {n : Nat} {m : Lower α} {U Z : α → Prop} {U' : β → Prop}
  {w : Watch} {a : α} {R : α → Prop}

/-! ## States below a wrapper -/

/-- Every default that is remembered lacks the label of the loop. -/
def Registry.Lacks (n : Nat) (registry : Registry) : Prop :=
  registry.StoresOnly (Node.Lacks (loopLabel n))

/-- The label of the loop is taken, no other name than that of a jump can be equal to it, and a wrapper
encloses the form within the innermost function. -/
structure Context.Ready (n : Nat) (c : Context) : Prop where
  helper : c.options.numericHelper ≠ loopLabel n
  taken : n < c.nextFresh
  wrapped : c.wrapperDepth ≠ 0

namespace Context.Ready

variable {c d : Context}

theorem passes (h : c.Ready n) (hpasses : c.Passes w d) : d.Ready n where
  helper := by rw [hpasses.options]; exact h.helper
  taken := Nat.lt_of_lt_of_le h.taken hpasses.nextFresh
  wrapped := by rw [hpasses.wrapperDepth]; exact h.wrapped

theorem apt (h : c.Ready n) (hreg : c.registry.Lacks n) : c.Apt (.loop n) where
  helper := fun hmem => h.helper (List.mem_singleton.mp hmem)
  registry := .only hreg

theorem quiet (h : c.Ready n) (hmet : d.met (.loop n) = c.met (.loop n)) : (Watch.loop n).Quiet c d where
  hidden := Watch.hidden_fresh (by decide : "loop" ∈ freshStems) (.inl h.taken)
  met := hmet

end Context.Ready

/-! ## Shapes -/

/-- Below a wrapper, the step gives a result with the property if it succeeds. -/
def Shaped (n : Nat) (m : Lower α) (U : α → Prop) : Prop :=
  ∀ c a d, c.Ready n → m c = .ok a d → d.Ready n ∧ U a

namespace Shaped

theorem run (h : Shaped n m U) (hrun : m c = .ok a d) (hc : c.Ready n) : d.Ready n ∧ U a :=
  h c a d hc hrun

theorem of_sourced {H : Prop} (h : Sourced w H m R) (hU : Ensures m U) : Shaped n m U :=
  fun c a d hc hrun => ⟨hc.passes (h.passes hrun), hU c a d hrun⟩

theorem any {H : Prop} (h : Sourced w H m R) : Shaped n m fun _ => True :=
  .of_sourced h fun _ _ _ _ => trivial

theorem pure (h : U a) : Shaped n (Pure.pure a) U := by
  intro c b d hc hrun
  obtain ⟨rfl, rfl⟩ := pure_ok hrun
  exact ⟨hc, h⟩

theorem refuse (e : Diagnostic) : Shaped n (Lower.refuse e : Lower α) U := by
  intro c a d _ hrun
  cases hrun

theorem bind {k : α → Lower β} (hm : Shaped n m U) (hk : ∀ a, U a → Shaped n (k a) U') :
    Shaped n (m >>= k) U' := by
  intro c b d hc hrun
  obtain ⟨a, e, ha, hb⟩ := bind_ok hrun
  obtain ⟨he, hU⟩ := hm c a e hc ha
  exact hk a hU e b d he hb

theorem map {g : α → β} (h : Shaped n m U) (hg : ∀ a, U a → U' (g a)) :
    Shaped n (m >>= fun a => Pure.pure (g a)) U' :=
  .bind h fun a ha => .pure (hg a ha)

theorem ite {p : Prop} [Decidable p] {m' : Lower α} (h : Shaped n m U) (h' : Shaped n m' U) :
    Shaped n (if p then m else m') U := by
  split
  · exact h
  · exact h'

theorem get {k : Context → Lower α} (h : ∀ c : Context, c.Ready n → Shaped n (k c) U) :
    Shaped n (MonadState.get >>= k) U :=
  fun c a d hc hrun => h c hc c a d hc hrun

theorem inExpression {H : Prop} (hs : Sourced w H m R) (h : Shaped n m U) :
    Shaped n (Lower.inExpression m) fun r => U r.1 := by
  intro c r d hc hrun
  have hd := hc.passes (hs.inExpression.passes hrun)
  obtain ⟨_, _, hinner, rfl, rfl⟩ := within_ok hrun
  obtain ⟨_, _, ha, rfl, rfl⟩ := within_ok hinner
  -- inside there is one more wrapper, and it is gone afterwards
  exact ⟨hd, (h.run ha ⟨hc.helper, hc.taken, Nat.succ_ne_zero _⟩).2⟩

theorem ofExcept {E : Diagnostic → Prop} {result : Except Diagnostic α} (h : Answered E U result) :
    Shaped n (Lower.ofExcept result) U := by
  cases result with
  | ok a => exact .pure h
  | error e => exact .refuse e

end Shaped

/-! ## Names and shapes -/

/-- If the step succeeds, its result has the first property. It has the second one too if no jump back
to the loop was met and no default had the label before, and then no default has it. -/
def Clear (n : Nat) (m : Lower α) (U Z : α → Prop) : Prop :=
  ∀ c a d, c.Ready n → m c = .ok a d → c.Passes (.loop n) d ∧ U a ∧
    (d.met (.loop n) = c.met (.loop n) → c.registry.Lacks n → d.registry.Lacks n ∧ Z a)

theorem Clear.run (h : Clear n m U Z) (hrun : m c = .ok a d) (hc : c.Ready n) :
    c.Passes (.loop n) d ∧ U a ∧
      (d.met (.loop n) = c.met (.loop n) → c.registry.Lacks n → d.registry.Lacks n ∧ Z a) :=
  h c a d hc hrun

theorem Clear.of_sourced (hs : Sourced (.loop n) True m R) (hU : Shaped n m U)
    (hZ : ∀ a, R a → Z a) : Clear n m U Z := by
  intro c a d hc hrun
  obtain ⟨hpasses, hrest⟩ := hs.of_ok hrun
  refine ⟨hpasses, (hU c a d hc hrun).2, fun hmet hreg => ?_⟩
  obtain ⟨hd, hR⟩ := hrest trivial (hc.apt hreg) (hc.quiet hmet)
  exact ⟨fun default hdefault => (hd.registry.found default hdefault).lacks, hZ a hR⟩

theorem Clear.of_ensures (hs : Sourced (.loop n) True m R) (hU : Ensures m U)
    (hZ : ∀ a, R a → Z a) : Clear n m U Z :=
  .of_sourced hs (.of_sourced hs hU) hZ

end LispLowering
