import LispLowering.Proofs.Composition.Basic

/-!
# What a step records
-/

namespace LispLowering

open Lowering List

variable {α β : Type} {acts acts' : List Act} {c d : Context}

/-! ## Declarations -/

/-- What a declaration has in common with the form that it comes from. -/
def signatureOf (row : String × FunctionEntry) : Signature :=
  ⟨row.1, ⟨row.2.params, row.2.structured⟩, row.2.body⟩

/-- The second registry is left by the declarations of the log, executed on the first one in their
order. -/
inductive Registry.Executes : Registry → List (String × FunctionEntry) → Registry → Prop where
  | nil (r : Registry) : Executes r [] r
  | cons {r s t : Registry} {row : String × FunctionEntry} {log : List (String × FunctionEntry)} :
      r.declare row.1 row.2 = .ok s → Executes s log t → Executes r (row :: log) t

/-- A diagnostic as the forms around it pass it on. -/
inductive Diagnostic.Around (inner : Diagnostic) : Diagnostic → Prop where
  | refl : Around inner inner
  | inForm {e : Diagnostic} (name : String) (p : Option Position) :
      Around inner e → Around inner (e.inForm name p)

/-- The declarations that were tried before a failure: they were executed, but the last one may have
been refused, and then it is the cause of the failure. -/
inductive Registry.Stops (r : Registry) (e : Diagnostic) :
    List (String × FunctionEntry) → Registry → Prop where
  | executed {s : Registry} {log : List (String × FunctionEntry)} :
      r.Executes log s → Stops r e log s
  | refused {s : Registry} {log : List (String × FunctionEntry)} {row : String × FunctionEntry}
      {cause : Diagnostic} : r.Executes log s → s.declare row.1 row.2 = .error cause →
      cause.Around e → Stops r e (log ++ [row]) s

namespace Registry

variable {r s t : Registry} {log log' : List (String × FunctionEntry)} {e : Diagnostic}

theorem Executes.append (h : r.Executes log s) (h' : s.Executes log' t) :
    r.Executes (log ++ log') t := by
  induction h with
  | nil r => exact h'
  | cons hdeclare _ ih => exact .cons hdeclare (ih h')

theorem Executes.eq_of_nil (h : r.Executes [] s) : s = r := by
  cases h
  rfl

theorem Stops.eq_of_nil (h : r.Stops e [] s) : s = r := by
  generalize hlog : [] = log at h
  cases h with
  | executed h => exact (hlog ▸ h).eq_of_nil
  | refused => simp at hlog

theorem Stops.after (h : r.Executes log s) (h' : s.Stops e log' t) : r.Stops e (log ++ log') t := by
  cases h' with
  | executed hlog => exact .executed (h.append hlog)
  | refused hlog hdeclare hcause =>
    rw [← append_assoc]
    exact .refused (h.append hlog) hdeclare hcause

theorem Stops.inForm (h : r.Stops e log s) (name : String) (p : Option Position) :
    r.Stops (e.inForm name p) log s := by
  cases h with
  | executed hlog => exact .executed hlog
  | refused hlog hdeclare hcause => exact .refused hlog hdeclare (.inForm name p hcause)

end Registry

/-! ## Steps -/

/-- The innermost loop, if there is one, has counted as many jumps more; the others are as before. -/
def Counts (jumps : Nat) : List LoopFrame → List LoopFrame → Prop
  | [], loops => loops = []
  | frame :: rest, loops => ∃ top, loops = top :: rest ∧ top.recurs = frame.recurs + jumps

namespace Counts

variable {n n' : Nat} {loops loops' loops'' : List LoopFrame}

theorem refl (loops : List LoopFrame) : Counts 0 loops loops := by
  cases loops with
  | nil => rfl
  | cons frame rest => exact ⟨frame, rfl, rfl⟩

theorem trans (h : Counts n loops loops') (h' : Counts n' loops' loops'') :
    Counts (n + n') loops loops'' := by
  cases loops with
  | nil =>
    cases h
    exact h'
  | cons frame rest =>
    obtain ⟨top, rfl, htop⟩ := h
    obtain ⟨top', rfl, htop'⟩ := h'
    exact ⟨top', rfl, by rw [htop', htop, Nat.add_assoc]⟩

theorem countRecur (p : Option Position) (loops : List LoopFrame) :
    Counts 1 loops (Lowering.countRecur p loops) := by
  cases loops with
  | nil => rfl
  | cons frame rest => exact ⟨_, rfl, rfl⟩

end Counts

/-- The result of a step with the given acts. The declarations among them are recorded, and the jumps
are counted. -/
inductive Logged (acts : List Act) (c : Context) : EStateM.Result Diagnostic Context α → Prop where
  | ok {a : α} {d : Context} {l : List (String × FunctionEntry)} :
      d.declarations = c.declarations ++ l →
      l.map signatureOf = acts.filterMap Act.signature? → c.registry.Executes l d.registry →
      Counts (acts.countP Act.isJump) c.loops d.loops → Logged acts c (.ok a d)
  | error {e : Diagnostic} {d : Context} {l : List (String × FunctionEntry)} :
      d.declarations = c.declarations ++ l →
      l.map signatureOf <+: acts.filterMap Act.signature? → c.registry.Stops e l d.registry →
      Logged acts c (.error e d)

/-- The step does the given acts. -/
def Logs (acts : List Act) (m : Lower α) : Prop := ∀ c, Logged acts c (m c)

/-- The way of lowering does in each list what is said of it. -/
def Logger (below : SExpr → List Act) (lower : Lowerer) : Prop :=
  ∀ t, Logs ((t.partAt .value).flatMap (Part.acts below)) (lower t)

theorem Logged.unrecorded {a : α} (hsig : acts.filterMap Act.signature? = [])
    (hjumps : acts.countP Act.isJump = 0) (hdeclarations : d.declarations = c.declarations)
    (hregistry : d.registry = c.registry) (hloops : d.loops = c.loops) :
    Logged acts c (.ok a d) := by
  refine .ok (l := []) (by rw [hdeclarations, append_nil]) hsig.symm ?_ ?_
  · rw [hregistry]
    exact .nil _
  · rw [hloops, hjumps]
    exact .refl _

theorem Logged.still {a : α} (hdeclarations : d.declarations = c.declarations)
    (hregistry : d.registry = c.registry) (hloops : d.loops = c.loops) : Logged [] c (.ok a d) :=
  .unrecorded rfl rfl hdeclarations hregistry hloops

theorem Logged.registry_eq {result : EStateM.Result Diagnostic Context α} (h : Logged acts c result)
    (hnone : acts.filterMap Act.signature? = []) :
    (∀ a d, result = .ok a d → d.registry = c.registry) ∧
      ∀ e d, result = .error e d → d.registry = c.registry := by
  cases h with
  | ok _ hsig hexec _ =>
    rw [hnone, map_eq_nil_iff] at hsig
    subst hsig
    refine ⟨?_, nofun⟩
    rintro _ _ ⟨⟩
    exact hexec.eq_of_nil
  | error _ hsig hstops =>
    rw [hnone, prefix_nil, map_eq_nil_iff] at hsig
    subst hsig
    refine ⟨nofun, ?_⟩
    rintro _ _ ⟨⟩
    exact hstops.eq_of_nil

namespace Logs

variable {m m' : Lower α} {k : α → Lower β}

theorem pure (a : α) : Logs [] (Pure.pure a : Lower α) := fun _ => .still rfl rfl rfl

theorem refuse (e : Diagnostic) : Logs acts (Lower.refuse e : Lower α) := fun _ =>
  .error (append_nil _).symm nil_prefix (.executed (.nil _))

theorem ofExcept (x : Except Diagnostic α) : Logs [] (Lower.ofExcept x) := by
  cases x with
  | ok a => exact pure a
  | error e => exact refuse e

theorem ofSyntax (x : Except SyntaxFault α) : Logs [] (Lower.ofSyntax x) := by
  cases x with
  | ok a => exact pure a
  | error fault => exact refuse _

theorem get : Logs [] (get : Lower Context) := fun _ => .still rfl rfl rfl

theorem bindTarget (target : Node) : Logs [] (Lower.bind target) := fun _ => .still rfl rfl rfl

theorem bind (hm : Logs acts m) (hk : ∀ c a d, m c = .ok a d → Logs acts' (k a)) :
    Logs (acts ++ acts') (m >>= k) := by
  intro c
  have h := hm c
  show Logged _ c (EStateM.bind m k c)
  unfold EStateM.bind
  cases hrun : m c with
  | ok a c' =>
    rw [hrun] at h
    cases h with
    | ok hdecl hsig hexec hcounts =>
      have h' := hk c a c' hrun c'
      show Logged _ c (k a c')
      generalize k a c' = result at h'
      cases h' with
      | ok hdecl' hsig' hexec' hcounts' =>
        refine .ok (by rw [hdecl', hdecl, append_assoc]) ?_ (hexec.append hexec') ?_
        · rw [map_append, hsig, hsig', filterMap_append]
        · rw [countP_append]
          exact hcounts.trans hcounts'
      | error hdecl' hsig' hstops' =>
        refine .error (by rw [hdecl', hdecl, append_assoc]) ?_ (.after hexec hstops')
        rw [map_append, hsig, filterMap_append]
        exact (prefix_append_right_inj _).mpr hsig'
  | error e c' =>
    rw [hrun] at h
    cases h with
    | error hdecl hsig hstops =>
      refine .error hdecl ?_ hstops
      rw [filterMap_append]
      exact hsig.trans (prefix_append ..)

theorem after (hm : Logs [] m) (hk : ∀ c a d, m c = .ok a d → Logs acts (k a)) :
    Logs acts (m >>= k) :=
  bind hm hk

theorem settle (hm : Logs acts m) (hk : ∀ c a d, m c = .ok a d → Logs [] (k a)) :
    Logs acts (m >>= k) := by
  have h := bind hm hk
  rwa [append_nil] at h

theorem map (hm : Logs acts m) (g : α → β) : Logs acts (m >>= fun a => Pure.pure (g a)) :=
  hm.settle fun _ a _ _ => .pure (g a)

theorem each {γ : Type} {step : γ → Lower α} {acts : γ → List Act} (h : ∀ item, Logs (acts item) (step item))
    {items : List γ} : Logs (items.flatMap acts) (Lower.each step items) := by
  induction items with
  | nil => exact .pure []
  | cons item rest ih => exact bind (h item) fun _ first _ _ => .map ih (first :: ·)

theorem inForm (h : Logs acts m) (name : String) (p : Option Position) :
    Logs acts (Lowering.inForm name p m) := by
  intro c
  have h := h c
  unfold Lowering.inForm
  generalize m c = result at h
  cases h with
  | ok hdecl hsig hexec hcounts => exact .ok hdecl hsig hexec hcounts
  | error hdecl hsig hstops => exact .error hdecl hsig (hstops.inForm name p)

/-! ### Surroundings -/

theorem within {enter : Context → Context} {leave : Context → Context → Context}
    {result : Context → α → β} (h : Logs acts m)
    (henter : ∀ c, (enter c).declarations = c.declarations ∧ (enter c).registry = c.registry ∧
      (enter c).loops = c.loops)
    (hleave : ∀ c d, (leave c d).declarations = d.declarations ∧
      (leave c d).registry = d.registry ∧ (leave c d).loops = d.loops) :
    Logs acts (Lower.within enter leave result m) := by
  intro c
  have h := h (enter c)
  obtain ⟨hdecl, hreg, hloops⟩ := henter c
  unfold Lower.within
  generalize m (enter c) = ended at h
  cases h with
  | @ok _ d _ hdecl' hsig hexec hcounts =>
    obtain ⟨hdecl'', hreg', hloops'⟩ := hleave c d
    rw [hdecl] at hdecl'
    rw [hreg, ← hreg'] at hexec
    rw [hloops, ← hloops'] at hcounts
    exact .ok (hdecl''.trans hdecl') hsig hexec hcounts
  | @error _ d _ hdecl' hsig hstops =>
    obtain ⟨hdecl'', hreg', -⟩ := hleave c d
    rw [hdecl] at hdecl'
    rw [hreg, ← hreg'] at hstops
    exact .error (hdecl''.trans hdecl') hsig hstops

theorem tracking (h : Logs acts m) : Logs acts (Lower.tracking m) :=
  h.within (fun _ => ⟨rfl, rfl, rfl⟩) fun _ _ => ⟨rfl, rfl, rfl⟩

theorem inExpression (h : Logs acts m) : Logs acts (Lower.inExpression m) :=
  h.tracking.within (fun _ => ⟨rfl, rfl, rfl⟩) fun _ _ => ⟨rfl, rfl, rfl⟩

theorem inScope (h : Logs acts m) (names : List String) : Logs acts (Lower.inScope names m) :=
  h.within (fun _ => ⟨rfl, rfl, rfl⟩) fun _ _ => ⟨rfl, rfl, rfl⟩

theorem signatures_outward (acts : List Act) :
    (acts.filter fun act => !act.isJump).filterMap Act.signature? =
      acts.filterMap Act.signature? := by
  rw [filterMap_filter]
  refine filterMap_congr fun act _ => ?_
  cases act <;> rfl

theorem countP_outward (acts : List Act) :
    (acts.filter fun act => !act.isJump).countP Act.isJump = 0 := by
  simp [countP_eq_zero]

theorem inFunction (h : Logs acts m) :
    Logs (acts.filter fun act => !act.isJump) (Lower.inFunction m) := by
  intro c
  have h := h { c with
    wrapperDepth := 0, functionDepth := c.functionDepth + 1, earlyReturn := false, loops := []
    suspension := {} }
  unfold Lower.inFunction Lower.within
  generalize m _ = result at h
  cases h with
  | ok hdecl hsig hexec _ =>
    refine .ok hdecl ?_ hexec ?_
    · rw [signatures_outward, hsig]
    · rw [countP_outward]
      exact .refl _
  | error hdecl hsig hstops =>
    rw [← signatures_outward] at hsig
    exact .error hdecl hsig hstops

theorem inLoop (h : Logs acts m) (frame : LoopFrame) :
    Logs (acts.filter fun act => !act.isJump) (Lower.inLoop frame m) := by
  intro c
  have h := h { c with loops := frame :: c.loops }
  unfold Lower.inLoop
  generalize m _ = result at h
  cases h with
  | ok hdecl hsig hexec hcounts =>
    obtain ⟨top, hloops, -⟩ := hcounts
    rw [← signatures_outward] at hsig
    simp only [hloops]
    refine .ok hdecl hsig hexec ?_
    rw [countP_outward]
    exact .refl _
  | error hdecl hsig hstops =>
    rw [← signatures_outward] at hsig
    exact .error hdecl hsig hstops

/-! ### Acts -/

theorem declareFunction (name : String) (entry : FunctionEntry) :
    Logs [.declare (signatureOf (name, entry))] (Lowering.declareFunction name entry) := by
  intro c
  unfold Lowering.declareFunction
  dsimp only
  cases hdeclare : c.registry.declare name entry with
  | ok registry =>
    exact .ok (l := [(name, entry)]) rfl rfl (.cons hdeclare (.nil _)) (.refl c.loops)
  | error e =>
    exact .error (l := [] ++ [(name, entry)]) rfl (prefix_refl _)
      (.refused (.nil _) hdeclare .refl)

theorem countRecur (p : Option Position) : Logs [.jump]
    (modify fun c => { c with loops := Lowering.countRecur p c.loops } : Lower Unit) :=
  fun c => .ok (l := []) (append_nil _).symm rfl (.nil _) (.countRecur p c.loops)

end Logs

/-! ## Trees -/

variable {below : SExpr → List Act}

theorem Place.acts_all (place : Place) (ts : List SExpr) :
    (place.all ts).flatMap (Part.acts below) =
      place.outward ((Place.value.all ts).flatMap (Part.acts below)) := by
  have happend (acts acts' : List Act) :
      place.outward (acts ++ acts') = place.outward acts ++ place.outward acts' := by
    cases place <;> simp [outward]
  have hpart (t : SExpr) : (t.partAt place).flatMap (Part.acts below) =
      place.outward ((t.partAt .value).flatMap (Part.acts below)) := by
    cases t <;> cases place <;> simp [SExpr.partAt, Part.acts, outward]
  induction ts with
  | nil => cases place <;> rfl
  | cons t rest ih => simp only [all_cons, flatMap_append, ih, hpart, happend]

namespace Logger

variable {lower : Lowerer}

theorem plain (h : Logger below lower) (t : SExpr) :
    Logs ((t.partAt .statement).flatMap (Part.acts below)) (lower t) := by
  have ht := h t
  cases t <;> exact ht

theorem value (h : Logger below lower) (t : SExpr) :
    Logs ((t.partAt .value).flatMap (Part.acts below)) (lowerValue lower t) := by
  cases t with
  | list items p =>
    refine .settle (h _).inExpression fun _ result _ _ => ?_
    obtain ⟨node, s⟩ := result
    cases node <;> exact .pure _
  | symbol | literal =>
    refine .settle (h _) fun _ result _ _ => ?_
    cases result <;> exact .pure _

end Logger

end LispLowering
