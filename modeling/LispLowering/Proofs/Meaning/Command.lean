import Mathlib

/-!
# Pieces of code
-/

namespace LispLowering

/-! ## Completions -/

/-- How code completes: normally, with a value, or abruptly. -/
inductive Completion (V E : Type) where
  | normal (value : V)
  | returned (value : V)
  | thrown (exception : E)
  | broken (label : Option String)
  | continued (label : Option String)

namespace Completion

variable {V E : Type}

def IsAbrupt : Completion V E → Prop
  | .normal _ => False
  | _ => True

/-- The value of code that completes normally is returned. -/
def delivered : Completion V E → Completion V E
  | .normal value => .returned value
  | abrupt => abrupt

/-- A function body that completes normally returns the undefined value. -/
def atEnd (undefined : V) : Completion V E → Completion V E
  | .normal _ => .returned undefined
  | abrupt => abrupt

def ofResult : Except E V → Completion V E
  | .ok value => .normal value
  | .error e => .thrown e

/-- The change makes returns of normal completions and does nothing else. -/
structure Delivers (g : Completion V E → Completion V E) : Prop where
  normal : ∀ value, ∃ result, g (.normal value) = .returned result
  abrupt : ∀ o, o.IsAbrupt → g o = o

theorem delivers_delivered : Delivers (delivered : Completion V E → Completion V E) where
  normal := fun value => ⟨value, rfl⟩
  abrupt := by
    intro o ho
    cases o with
    | normal value => exact ho.elim
    | _ => rfl

theorem delivers_atEnd (undefined : V) : Delivers (atEnd undefined : Completion V E → Completion V E) where
  normal := fun _ => ⟨undefined, rfl⟩
  abrupt := by
    intro o ho
    cases o with
    | normal value => exact ho.elim
    | _ => rfl

theorem Delivers.eq_thrown_iff {g : Completion V E → Completion V E} (hg : Delivers g)
    {o : Completion V E} {e : E} : g o = .thrown e ↔ o = .thrown e := by
  cases o with
  | normal value =>
    obtain ⟨result, hresult⟩ := hg.normal value
    simp [hresult]
  | returned _ | thrown _ | broken _ | continued _ => rw [hg.abrupt _ (by trivial)]

end Completion

/-! ## Pieces of code -/

/-- A piece of code: how it may complete from a state, and in which state. -/
def Command (σ V E : Type) : Type := σ → Completion V E → σ → Prop

namespace Command

variable {σ V E : Type} {a f : Command σ V E} {g : Completion V E → Completion V E}

def done (o : Completion V E) : Command σ V E := fun s o' t => o' = o ∧ t = s

/-- Goes on with the value of code that completes normally. -/
def next (a : Command σ V E) (k : V → Command σ V E) : Command σ V E := fun s o t =>
  (∃ value u, a s (.normal value) u ∧ k value u o t) ∨ (o.IsAbrupt ∧ a s o t)

/-- Goes on with the exception that code throws. -/
def catching (a : Command σ V E) (k : E → Command σ V E) : Command σ V E := fun s o t =>
  (∃ e u, a s (.thrown e) u ∧ k e u o t) ∨ ((∀ e, o ≠ .thrown e) ∧ a s o t)

/-- Runs more code at the end, which is skipped on no path. The first code decides on the completion,
unless the second completes abruptly. -/
def closing (a f : Command σ V E) : Command σ V E := fun s o t =>
  ∃ o' u, a s o' u ∧ (((∃ value, f u (.normal value) t) ∧ o = o') ∨ (o.IsAbrupt ∧ f u o t))

def map (g : Completion V E → Completion V E) (a : Command σ V E) : Command σ V E := fun s o t =>
  ∃ o', a s o' t ∧ o = g o'

theorem map_done (o : Completion V E) : (done o : Command σ V E).map g = done (g o) := by
  funext s o' t
  apply propext
  constructor
  · rintro ⟨_, ⟨rfl, rfl⟩, rfl⟩
    exact ⟨rfl, rfl⟩
  · rintro ⟨rfl, rfl⟩
    exact ⟨o, ⟨rfl, rfl⟩, rfl⟩

theorem map_next (hg : Completion.Delivers g) (k : V → Command σ V E) :
    (a.next k).map g = a.next fun value => (k value).map g := by
  funext s o t
  apply propext
  constructor
  · rintro ⟨o', ⟨value, u, ha, hk⟩ | ⟨habrupt, ha⟩, rfl⟩
    · exact .inl ⟨value, u, ha, o', hk, rfl⟩
    · rw [hg.abrupt o' habrupt]
      exact .inr ⟨habrupt, ha⟩
  · rintro (⟨value, u, ha, o', hk, rfl⟩ | ⟨habrupt, ha⟩)
    · exact ⟨o', .inl ⟨value, u, ha, hk⟩, rfl⟩
    · exact ⟨o, .inr ⟨habrupt, ha⟩, (hg.abrupt o habrupt).symm⟩

theorem next_assoc (k k' : V → Command σ V E) :
    (a.next k).next k' = a.next fun value => (k value).next k' := by
  funext s o t
  apply propext
  constructor
  · rintro (⟨value', u', ⟨value, u, ha, hk⟩ | ⟨hnormal, -⟩, hk'⟩ | ⟨habrupt, ⟨value, u, ha, hk⟩ | ⟨-, ha⟩⟩)
    · exact .inl ⟨value, u, ha, .inl ⟨value', u', hk, hk'⟩⟩
    · exact hnormal.elim
    · exact .inl ⟨value, u, ha, .inr ⟨habrupt, hk⟩⟩
    · exact .inr ⟨habrupt, ha⟩
  · rintro (⟨value, u, ha, ⟨value', u', hk, hk'⟩ | ⟨habrupt, hk⟩⟩ | ⟨habrupt, ha⟩)
    · exact .inl ⟨value', u', .inl ⟨value, u, ha, hk⟩, hk'⟩
    · exact .inr ⟨habrupt, .inl ⟨value, u, ha, hk⟩⟩
    · exact .inr ⟨habrupt, .inr ⟨habrupt, ha⟩⟩

theorem map_delivered : a.map .delivered = a.next fun value => done (.returned value) := by
  funext s o t
  apply propext
  constructor
  · rintro ⟨o', ha, rfl⟩
    cases o' with
    | normal value => exact .inl ⟨value, t, ha, rfl, rfl⟩
    | _ => exact .inr ⟨trivial, ha⟩
  · rintro (⟨value, u, ha, rfl, rfl⟩ | ⟨habrupt, ha⟩)
    · exact ⟨_, ha, rfl⟩
    · exact ⟨o, ha, (Completion.delivers_delivered.abrupt o habrupt).symm⟩

def Ends (a : Command σ V E) : Prop := ∀ s o t, a s o t → o.IsAbrupt

theorem ends_done {o : Completion V E} (ho : o.IsAbrupt) : (done o : Command σ V E).Ends := by
  rintro s _ t ⟨rfl, -⟩
  exact ho

theorem ends_next {k : V → Command σ V E} (hk : ∀ value, (k value).Ends) : (a.next k).Ends := by
  rintro s o t (⟨value, u, -, h⟩ | ⟨habrupt, -⟩)
  · exact hk value u o t h
  · exact habrupt

theorem Ends.map_eq (ha : a.Ends) (hg : Completion.Delivers g) : a.map g = a := by
  funext s o t
  apply propext
  constructor
  · rintro ⟨o', h, rfl⟩
    rwa [hg.abrupt o' (ha s o' t h)]
  · intro h
    exact ⟨o, h, (hg.abrupt o (ha s o t h)).symm⟩

theorem Ends.next_eq (ha : a.Ends) (k : V → Command σ V E) : a.next k = a := by
  funext s o t
  apply propext
  constructor
  · rintro (⟨value, u, h, -⟩ | ⟨-, h⟩)
    · exact (ha s _ u h).elim
    · exact h
  · intro h
    exact .inr ⟨ha s o t h, h⟩

theorem next_of_normal {s u : σ} {value : V} (h : ∀ o t, a s o t ↔ o = .normal value ∧ t = u)
    (k : V → Command σ V E) : a.next k s = k value u := by
  funext o t
  apply propext
  constructor
  · rintro (⟨_, _, ha, hk⟩ | ⟨habrupt, ha⟩)
    · obtain ⟨heq, rfl⟩ := (h _ _).mp ha
      cases heq
      exact hk
    · obtain ⟨rfl, -⟩ := (h _ _).mp ha
      exact habrupt.elim
  · intro hk
    exact .inl ⟨value, u, (h _ _).mpr ⟨rfl, rfl⟩, hk⟩

theorem done_next (value : V) (k : V → Command σ V E) :
    (done (.normal value) : Command σ V E).next k = k value :=
  funext fun _ => next_of_normal (fun _ _ => Iff.rfl) k

theorem map_catching (hg : Completion.Delivers g) (k : E → Command σ V E) :
    (a.catching k).map g = (a.map g).catching fun e => (k e).map g := by
  funext s o t
  apply propext
  constructor
  · rintro ⟨o', ⟨e, u, ha, hk⟩ | ⟨hcalm, ha⟩, rfl⟩
    · exact .inl ⟨e, u, ⟨_, ha, (hg.eq_thrown_iff.mpr rfl).symm⟩, o', hk, rfl⟩
    · exact .inr ⟨fun e heq => hcalm e (hg.eq_thrown_iff.mp heq), o', ha, rfl⟩
  · rintro (⟨e, u, ⟨o', ha, heq⟩, o'', hk, rfl⟩ | ⟨hcalm, o', ha, rfl⟩)
    · rw [hg.eq_thrown_iff.mp heq.symm] at ha
      exact ⟨o'', .inl ⟨e, u, ha, hk⟩, rfl⟩
    · exact ⟨o', .inr ⟨fun e heq => hcalm e (hg.eq_thrown_iff.mpr heq), ha⟩, rfl⟩

theorem map_closing (hg : Completion.Delivers g) : (a.closing f).map g = (a.map g).closing f := by
  funext s o t
  apply propext
  constructor
  · rintro ⟨_, ⟨o', u, ha, ⟨hnormal, rfl⟩ | ⟨habrupt, hf⟩⟩, rfl⟩
    · exact ⟨_, u, ⟨_, ha, rfl⟩, .inl ⟨hnormal, rfl⟩⟩
    · rw [hg.abrupt _ habrupt]
      exact ⟨_, u, ⟨_, ha, rfl⟩, .inr ⟨habrupt, hf⟩⟩
  · rintro ⟨_, u, ⟨o', ha, rfl⟩, ⟨hnormal, rfl⟩ | ⟨habrupt, hf⟩⟩
    · exact ⟨o', ⟨o', u, ha, .inl ⟨hnormal, rfl⟩⟩, rfl⟩
    · exact ⟨o, ⟨o', u, ha, .inr ⟨habrupt, hf⟩⟩, (hg.abrupt o habrupt).symm⟩

end Command

end LispLowering
