import LispLowering.Proofs.Scoping.Traversal

/-!
# Sessions
-/

namespace LispLowering

open Lowering RegistryView

variable {α : Type} {m : Lower α} {c : Context}

/-! ## Requests and answers -/

/-- A request to a session: one form, or the forms of a program. -/
inductive Request where
  | form (tree : SExpr)
  | program (forms : List SExpr)

/-- An answer to a request. A form may stand for nothing. -/
inductive Answer where
  | node (node : Option Node)
  | program (program : Program)

/-- The step that a request asks for. -/
def Request.perform : Request → Lower Answer
  | .form tree => Answer.node <$> lower tree
  | .program forms => Answer.program <$> lowerProgram forms

def endState {α : Type} : EStateM.Result Diagnostic Context α → Context
  | .ok _ d => d
  | .error _ d => d

def Context.after (c : Context) (request : Request) : Context := endState (request.perform c)

def Context.afterAll (c : Context) (history : List Request) : Context := history.foldl Context.after c

/-! ## How a step ends -/

/-- A step that started in `c` ends in a state that has evolved from `c`, and a failure is not an
underflow of the stack of loops. -/
def EndsWithin {α : Type} (c : Context) : EStateM.Result Diagnostic Context α → Prop
  | .ok _ d => Evolves c d
  | .error e d => Evolves c d ∧ e.Blameless

theorem Agree.endsWithin (h : Agree full m m) (c : Context) : EndsWithin c (m c) := by
  have hc := h c c (.self c)
  generalize m c = x at hc ⊢
  cases hc with
  | ok hafter => exact hafter.evolves
  | error he hafter => exact ⟨hafter.evolves, he⟩

theorem Agree.grows {V : RegistryView} (h : Agree V m m)
    (hc : V.alike c.registry c.registry) : V.grows c.registry (endState (m c)).registry := by
  have hout := h c c ⟨rfl, hc⟩
  generalize m c = x at hout ⊢
  cases hout with
  | ok hafter => exact hafter.grows
  | error _ hafter => exact hafter.grows

theorem lower_ends_within (c : Context) (t : SExpr) : EndsWithin c (lower t c) :=
  (lower_agree .full (.full _ _) trivial).endsWithin c

theorem Request.perform_agree (request : Request) : Agree full request.perform request.perform := by
  cases request with
  | form tree => exact .map (lower_agree .full (.full _ _) trivial) _
  | program forms => exact .map (lowerProgram_agree .full (.full _ _) fun _ _ => trivial) _

theorem Context.evolves_after (c : Context) (request : Request) : Evolves c (c.after request) := by
  have h := request.perform_agree.endsWithin c
  unfold Context.after
  generalize request.perform c = x at h ⊢
  cases x with
  | ok a d => exact h
  | error e d => exact h.1

/-! ## Clean surroundings -/

/-- The state in clean surroundings. -/
def Context.clean (options : Options) (directory : String) (registry : Registry) (nextFresh : Nat) :
    Context :=
  { options, directory, registry, nextFresh }

/-- The surroundings of a request that is not inside any function, wrapper, loop or scope. -/
structure Quiet (c : Context) : Prop where
  wrapperDepth : c.wrapperDepth = 0
  functionDepth : c.functionDepth = 0
  loops : c.loops = []
  scopes : c.scopes = []
  earlyReturn : c.earlyReturn = false

theorem Quiet.evolves {d : Context} (hc : Quiet c) (h : Evolves c d) : Quiet d where
  wrapperDepth := h.wrapperDepth.trans hc.wrapperDepth
  functionDepth := h.functionDepth.trans hc.functionDepth
  loops := by
    have hloops := h.loops
    rw [hc.loops] at hloops
    match d.loops, hloops with
    | [], _ => rfl
  scopes := by
    have hscopes := h.scopes
    rw [hc.scopes] at hscopes
    match d.scopes, hscopes with
    | [], _ => rfl
  earlyReturn := (h.earlyReturn hc.functionDepth).trans hc.earlyReturn

theorem evolves_afterAll (c : Context) (history : List Request) : Evolves c (c.afterAll history) := by
  induction history generalizing c with
  | nil => exact .refl c
  | cons request rest ih => exact (c.evolves_after request).trans (ih (c.after request))

theorem Quiet.twin (h : Quiet c) :
    Twin full c (Context.clean c.options c.directory c.registry c.nextFresh) := by
  obtain ⟨options, directory, registry, wrapperDepth, functionDepth, earlyReturn, loops, suspension,
    scopes, nextFresh⟩ := c
  obtain ⟨rfl, rfl, rfl, rfl, rfl⟩ := h
  exact ⟨rfl, rfl⟩

/-- Two outcomes that cannot be told apart: the same value or the same diagnostic, and the same
declared functions and fresh names left behind. -/
inductive SameOutcome {α : Type} :
    EStateM.Result Diagnostic Context α → EStateM.Result Diagnostic Context α → Prop where
  | ok {a : α} {d d' : Context} : d.registry = d'.registry → d.nextFresh = d'.nextFresh →
      SameOutcome (.ok a d) (.ok a d')
  | error {e : Diagnostic} {d d' : Context} : d.registry = d'.registry →
      d.nextFresh = d'.nextFresh → SameOutcome (.error e d) (.error e d')

theorem Twin.sameOutcome (h : Agree full m m)
    {c' : Context} (hc : Twin full c c') : SameOutcome (m c) (m c') := by
  have hout := h c c' hc
  generalize m c = x at hout ⊢
  generalize m c' = x' at hout ⊢
  cases hout with
  | ok hafter =>
    obtain ⟨r, s, l, rfl, rfl⟩ := hafter.twin.eq_with
    exact .ok rfl rfl
  | error he hafter =>
    obtain ⟨r, s, l, rfl, rfl⟩ := hafter.twin.eq_with
    exact .error rfl rfl

/-- Lowering a tree leaves the surroundings as they were, on success and on failure, and never blames
an underflow. So every request of a session starts in clean surroundings, whatever came before it and
whether it failed, and its outcome is the one it has in the clean state with the same options,
directory, declared functions and supply of fresh names. -/
theorem surroundings_restored : (∀ (c : Context) (t : SExpr), EndsWithin c (lower t c)) ∧
      ∀ (directory : String) (options : Options) (history : List Request) (request : Request),
        let c := (Context.start directory options).afterAll history
        Quiet c ∧ c.options = options ∧ c.directory = directory ∧ SameOutcome (request.perform c)
            (request.perform (Context.clean options directory c.registry c.nextFresh)) := by
  refine ⟨lower_ends_within, fun directory options history request => ?_⟩
  intro c
  have hevolves : Evolves (Context.start directory options) c := evolves_afterAll _ history
  have hquiet : Quiet c := Quiet.evolves ⟨rfl, rfl, rfl, rfl, rfl⟩ hevolves
  have hopts : c.options = options := hevolves.options
  have hdirectory : c.directory = directory := hevolves.directory
  have hsame := Twin.sameOutcome request.perform_agree hquiet.twin
  rw [hopts, hdirectory] at hsame
  exact ⟨hquiet, hopts, hdirectory, hsame⟩

end LispLowering
