import LispLowering.Proofs.Scoping.Traversal
import LispLowering.Proofs.Provenance.Reading
import LispLowering.Proofs.Numbers

/-!
# Steps under watch
-/

namespace LispLowering

open Lowering List Node Nat Lower

variable {α β : Type} {w : Watch} {H : Prop}
  {stem : String} {c d : Context} {low high : Nat} {a : α} {p : Option Position} {form form' : Form}
  {k k' : α → Lower β}
  {e : Context} {frame : LoopFrame} {x : Except Diagnostic α}

/-! ## Fresh names -/

def freshStems : List String := ["loop", "step", "cmp", "receiver", "member"]

def temporary (stem : String) (n : Nat) : String := stem ++ "_" ++ Text.decimal n

theorem temporary_injective {stem' : String} {m n : Nat} (hstem : stem ∈ freshStems)
    (hstem' : stem' ∈ freshStems) (h : temporary stem m = temporary stem' n) : stem = stem' ∧ m = n := by
  have hhead (stem : String) (hstem : stem ∈ freshStems) (n : Nat) :
      (temporary stem n).toList.head? = stem.toList.head? := by
    simp only [freshStems, mem_cons, not_mem_nil, or_false] at hstem
    rcases hstem with rfl | rfl | rfl | rfl | rfl <;> simp [temporary]
  have hapart : ∀ stem ∈ freshStems, ∀ stem' ∈ freshStems,
      stem.toList.head? = stem'.toList.head? → stem = stem' := by decide
  have hsame : stem = stem' := by
    apply hapart stem hstem stem' hstem'
    rw [← hhead stem hstem m, ← hhead stem' hstem' n, h]
  subst hsame
  refine ⟨rfl, Text.decimal_injective ?_⟩
  have hchars := congrArg String.toList h
  simp only [temporary, String.toList_append, append_cancel_left_eq] at hchars
  exact String.toList_injective hchars

theorem temporary_foreign (hstem : stem ∈ freshStems) (n : Nat) : ¬IsOwnName (temporary stem n) := by
  apply not_isOwnName
  simp only [freshStems, mem_cons, not_mem_nil, or_false] at hstem
  rcases hstem with rfl | rfl | rfl | rfl | rfl <;> simp [temporary]

/-! ## Trees -/

namespace Watch

variable (w : Watch)

/-- No tree is a jump back to a loop. -/
def Jumpless : Prop := ∀ name q args p, w.trees (.list (.symbol name q :: args) p) →
  HeadMeaning.ofName name ≠ .special .recur

end Watch

/-! ## States -/

/-- The defaults that are remembered are allowed. -/
structure Registry.Suits (w : Watch) (r : Registry) : Prop where
  found : r.StoresOnly (Allowed w)
  kept : w.strict → ∀ name entry, r.get? name = some entry → ∀ row ∈ entry.defaults, row.2.Allowed w

theorem Registry.Suits.only {label : String} {hforeign : ¬IsOwnName label} {r : Registry}
    (h : r.StoresOnly (Lacks label)) : r.Suits (.only label hforeign) :=
  ⟨fun default hdefault => (h default hdefault).allowed, False.elim⟩

/-- The state holds nothing that the watch refuses. -/
structure Context.Apt (w : Watch) (c : Context) : Prop where
  helper : c.options.numericHelper ∉ w.names
  registry : c.registry.Suits w

/-- The state holds nothing that the watch refuses, and no loop around is watched. -/
structure Context.Unwatched (w : Watch) (c : Context) : Prop extends c.Apt w where
  loops : ∀ frame ∈ c.loops, frame.label ∉ w.names

/-- The first jumps back to the loops around are at sites. -/
def Context.Marked (w : Watch) (c : Context) : Prop := ∀ frame ∈ c.loops, w.Sited frame.firstRecur

def Context.recurs (c : Context) : Nat :=
  match c.loops with
  | frame :: _ => frame.recurs
  | [] => 0

/-- How many jumps back to the innermost loop were met, if its label is watched. -/
def Context.met (w : Watch) (c : Context) : Nat :=
  match c.loops with
  | frame :: _ => if frame.label ∈ w.names then frame.recurs else 0
  | [] => 0

/-- What a step leaves of the surroundings in which it started. -/
structure Context.Passes (w : Watch) (c d : Context) : Prop where
  options : d.options = c.options
  wrapperDepth : d.wrapperDepth = c.wrapperDepth
  nextFresh : c.nextFresh ≤ d.nextFresh
  loops : SameLoops c.loops d.loops
  recurs : c.recurs ≤ d.recurs
  marked : c.Marked w → d.Marked w
  still : w.Jumpless → d.loops = c.loops

/-- No fresh name with a number in the interval is watched. -/
def Watch.Hidden (w : Watch) (low high : Nat) : Prop :=
  ∀ stem ∈ freshStems, ∀ n, low ≤ n → n < high → temporary stem n ∉ w.names

/-- Between the two states no watched name is drawn, and no jump to a watched loop is met. -/
structure Watch.Quiet (w : Watch) (c d : Context) : Prop where
  hidden : w.Hidden c.nextFresh d.nextFresh
  met : d.met w = c.met w

namespace Context

theorem Passes.of_kept (hopts : d.options = c.options)
    (hdepth : d.wrapperDepth = c.wrapperDepth) (hfresh : c.nextFresh ≤ d.nextFresh)
    (hloops : d.loops = c.loops) : c.Passes w d where
  options := hopts
  wrapperDepth := hdepth
  nextFresh := hfresh
  loops := by rw [hloops]; exact .refl _
  recurs := by rw [Context.recurs, Context.recurs, hloops]
  marked := by rw [Marked, Marked, hloops]; exact id
  still := fun _ => hloops

theorem Passes.refl (c : Context) : c.Passes w c := .of_kept rfl rfl (le_refl _) rfl

theorem Passes.trans (h : c.Passes w d) (h' : d.Passes w e) : c.Passes w e where
  options := h'.options.trans h.options
  wrapperDepth := h'.wrapperDepth.trans h.wrapperDepth
  nextFresh := le_trans h.nextFresh h'.nextFresh
  loops := h.loops.trans h'.loops
  recurs := le_trans h.recurs h'.recurs
  marked := fun hc => h'.marked (h.marked hc)
  still := fun hw => (h'.still hw).trans (h.still hw)

theorem Passes.met (h : c.Passes w d) : c.met w ≤ d.met w := by
  have hloops := h.loops
  have hrecurs := h.recurs
  unfold Context.recurs at hrecurs
  unfold Context.met
  cases hc : c.loops with
  | nil => exact zero_le _
  | cons first others =>
    cases hd : d.loops with
    | nil =>
      rw [hc, hd] at hloops
      exact hloops.elim
    | cons top rest =>
      rw [hc, hd] at hloops hrecurs
      simp only [hloops.1]
      split
      · exact hrecurs
      · exact le_refl _

theorem Apt.within {S S' : Position → Prop} {T T' : SExpr → Prop}
    (h : c.Apt (.within S T)) (himp : ∀ q, S q → S' q) : c.Apt (.within S' T') where
  helper := not_mem_nil
  registry := ⟨fun default hdefault => (h.registry.found default hdefault).within himp,
    fun _ name entry hentry row hrow => (h.registry.kept trivial name entry hentry row hrow).within himp⟩

theorem met_of_unwatched (h : ∀ frame ∈ c.loops.head?, frame.label ∉ w.names)
    (hloops : SameLoops c.loops d.loops) : d.met w = 0 := by
  unfold met
  cases hd : d.loops with
  | nil => rfl
  | cons top rest =>
    cases hc : c.loops with
    | nil =>
      rw [hc, hd] at hloops
      exact hloops.elim
    | cons first others =>
      rw [hc, hd] at hloops
      have hfirst : first.label ∉ w.names := h first (by rw [hc]; rfl)
      simp only [hloops.1, hfirst, if_false]

end Context

namespace Watch

theorem Hidden.left {middle : Nat} (h : w.Hidden low high) (hle : middle ≤ high) : w.Hidden low middle :=
  fun stem hstem n hlow hhigh => h stem hstem n hlow (lt_of_lt_of_le hhigh hle)

theorem Hidden.right {middle : Nat} (h : w.Hidden low high) (hle : low ≤ middle) : w.Hidden middle high :=
  fun stem hstem n hlow hhigh => h stem hstem n (le_trans hle hlow) hhigh

theorem Quiet.split (h : w.Quiet c e) (hpasses : c.Passes w d)
    (hpasses' : d.Passes w e) : w.Quiet c d ∧ w.Quiet d e := by
  have hle := hpasses.met
  have hle' := hpasses'.met
  have hmet := h.met
  exact ⟨⟨h.hidden.left hpasses'.nextFresh, by omega⟩, ⟨h.hidden.right hpasses.nextFresh, by omega⟩⟩

theorem quiet_within {S : Position → Prop} {T : SExpr → Prop} (c d : Context) :
    (Watch.within S T).Quiet c d := by
  have hmet (c : Context) : c.met (Watch.within S T) = 0 := by
    unfold Context.met
    split
    · exact if_neg not_mem_nil
    · rfl
  exact ⟨fun _ _ _ _ _ => not_mem_nil, by rw [hmet, hmet]⟩

def fresh {stem : String} (hstem : stem ∈ freshStems) (n : Nat) : Watch :=
  .only (temporary stem n) (temporary_foreign hstem n)

theorem hidden_fresh {n : Nat} (hstem : stem ∈ freshStems)
    (h : n < low ∨ high ≤ n) : (fresh hstem n).Hidden low high := by
  intro other hother m hlow hhigh hmem
  obtain ⟨-, rfl⟩ := temporary_injective hother hstem (mem_singleton.mp hmem)
  omega

end Watch

theorem SameLoops.labels_eq {loops loops' : List LoopFrame} (h : SameLoops loops loops') :
    loops'.map LoopFrame.label = loops.map LoopFrame.label := by
  cases loops with
  | nil =>
    cases loops' with
    | nil => rfl
    | cons => exact h.elim
  | cons frame rest =>
    cases loops' with
    | nil => exact h.elim
    | cons frame' rest' => rw [map_cons, map_cons, h.1, h.2.2]

/-! ## Steps -/

/-- How a step ends that starts in a state. It passes on the surroundings. If the premise holds, the state
before was apt and nothing watched was drawn or met, then the state after is apt, and the result has the
property. A diagnostic is at a site. -/
inductive Ends (w : Watch) (H : Prop) (R : α → Prop) (c : Context) :
    EStateM.Result Diagnostic Context α → Prop where
  | ok {a : α} {d : Context} : c.Passes w d → (H → c.Apt w → w.Quiet c d → d.Apt w ∧ R a) →
      Ends w H R c (.ok a d)
  | error {e : Diagnostic} {d : Context} : c.Passes w d → (H → c.Apt w → w.Quiet c d → d.Apt w) →
      (c.Marked w → e.Raised w.sites) → Ends w H R c (.error e d)

def Sourced (w : Watch) (H : Prop) (m : Lower α) (R : α → Prop) : Prop := ∀ c, Ends w H R c (m c)

namespace Ends

variable {K : Prop} {R S : α → Prop} {c d : Context} {r : EStateM.Result Diagnostic Context α}

theorem weaken (h : Ends w H R c r) (hK : K → c.Apt w → H) (hR : K → ∀ a, R a → S a) : Ends w K S c r := by
  cases h with
  | ok hpasses hrest =>
    exact .ok hpasses fun hKprem hc hquiet => (hrest (hK hKprem hc) hc hquiet).imp_right (hR hKprem _)
  | error hpasses hrest hraised =>
    exact .error hpasses (fun hKprem hc => hrest (hK hKprem hc) hc) hraised

theorem after (h : Ends w H R d r) (hpasses : c.Passes w d)
    (hapt : K → c.Apt w → w.Quiet c d → d.Apt w ∧ H) : Ends w K R c r := by
  cases h with
  | ok hpasses' hrest =>
    refine .ok (hpasses.trans hpasses') fun hK hc hquiet => ?_
    obtain ⟨hquiet, hquiet'⟩ := hquiet.split hpasses hpasses'
    obtain ⟨hd, hH⟩ := hapt hK hc hquiet
    exact hrest hH hd hquiet'
  | error hpasses' hrest hraised =>
    refine .error (hpasses.trans hpasses') (fun hK hc hquiet => ?_) fun hc => hraised (hpasses.marked hc)
    obtain ⟨hquiet, hquiet'⟩ := hquiet.split hpasses hpasses'
    obtain ⟨hd, hH⟩ := hapt hK hc hquiet
    exact hrest hH hd hquiet'

end Ends

namespace Sourced

variable {m : Lower α} {R S : α → Prop} {R' : β → Prop}

theorem of_ok (h : Sourced w H m R) (hrun : m c = .ok a d) :
    c.Passes w d ∧ (H → c.Apt w → w.Quiet c d → d.Apt w ∧ R a) := by
  have hends := h c
  rw [hrun] at hends
  cases hends with
  | ok hpasses hrest => exact ⟨hpasses, hrest⟩

theorem passes (h : Sourced w H m R) (hrun : m c = .ok a d) : c.Passes w d := (h.of_ok hrun).1

theorem run (h : Sourced w True m R) (hrun : m c = .ok a d)
    (hc : c.Unwatched w) (hhidden : w.Hidden c.nextFresh d.nextFresh) : d.Unwatched w ∧ R a := by
  obtain ⟨hpasses, hrest⟩ := h.of_ok hrun
  have hhead : ∀ frame ∈ c.loops.head?, frame.label ∉ w.names := fun frame hframe =>
    hc.loops frame (mem_of_mem_head? hframe)
  obtain ⟨hd, ha⟩ := hrest trivial hc.toApt ⟨hhidden, (Context.met_of_unwatched hhead hpasses.loops).trans
    (Context.met_of_unwatched hhead (.refl _)).symm⟩
  refine ⟨⟨hd, fun frame hframe => ?_⟩, ha⟩
  have hlabels := hpasses.loops.labels_eq
  have hlabel : frame.label ∈ c.loops.map LoopFrame.label := hlabels ▸ mem_map_of_mem hframe
  obtain ⟨old, hold, heq⟩ := mem_map.mp hlabel
  exact heq ▸ hc.loops old hold

/-! ## Basic steps -/

theorem pure (h : H → R a) : Sourced w H (Pure.pure a) R :=
  fun _ => .ok (.refl _) fun hH hc _ => ⟨hc, h hH⟩

theorem refuse {e : Diagnostic} (h : e.Raised w.sites) : Sourced w H (Lower.refuse e : Lower α) R :=
  fun _ => .error (.refl _) (fun _ hc _ => hc) fun _ => h

theorem fault (fault : Fault) (hp : w.Sited p) : Sourced w H (Lower.refuse (fault.place p) : Lower α) R :=
  .refuse (.fault fault hp)

theorem refuseForm (hp : w.Known form.position) (fault : Fault) :
    Sourced w H (form.refuse fault : Lower α) R :=
  .fault fault hp.1

theorem bind (hm : Sourced w H m R)
    (hk : ∀ a, Sourced w (H ∧ R a) (k a) R') : Sourced w H (m >>= k) R' := by
  intro c
  have hfirst := hm c
  show Ends w H R' c (EStateM.bind m k c)
  unfold EStateM.bind
  generalize m c = r at hfirst ⊢
  cases hfirst with
  | @ok a d hpasses hrest =>
    exact (hk a d).after hpasses fun hH hc hquiet => (hrest hH hc hquiet).imp_right fun ha => ⟨hH, ha⟩
  | error hpasses hrest hraised => exact .error hpasses hrest hraised

theorem weaken {K : Prop} (h : Sourced w H m R) (hK : K → H) (hR : K → ∀ a, R a → S a) : Sourced w K m S :=
  fun c => (h c).weaken (fun hKprem _ => hK hKprem) hR

theorem imp (h : Sourced w H m R) (hR : ∀ a, R a → S a) : Sourced w H m S := h.weaken id fun _ => hR

theorem map {g : α → β} (h : Sourced w H m R) (hR : H → ∀ a, R a → R' (g a)) :
    Sourced w H (m >>= fun a => Pure.pure (g a)) R' :=
  .bind h fun a => .pure fun ⟨hH, ha⟩ => hR hH a ha

theorem ofExcept (h : Answered (Diagnostic.Raised w.sites) R x) :
    Sourced w H (Lower.ofExcept x) R := by
  cases x with
  | error e => exact .refuse h
  | ok a => exact .pure fun _ => h

theorem each {γ : Type} {step : γ → Lower α} {items : List γ}
    (h : ∀ item ∈ items, ∀ H, Sourced w H (step item) R) :
    Sourced w H (Lower.each step items) fun as => ∀ a ∈ as, R a := by
  induction items generalizing H with
  | nil => exact .pure fun _ => by simp
  | cons item rest ih =>
    rw [forall_mem_cons] at h
    exact .bind (h.1 _) fun a => .bind (ih h.2) fun _ =>
      .pure fun ⟨⟨_, ha⟩, has⟩ => forall_mem_cons.mpr ⟨ha, has⟩

/-! ## The state -/

theorem get {k : Context → Lower α} (h : ∀ c : Context, Sourced w (H ∧ c.Apt w) (k c) R) :
    Sourced w H (get >>= k) R :=
  fun c => (h c c).weaken (fun hH hc => ⟨hH, hc⟩) fun _ _ ha => ha

theorem modify {u : Context → Context} (hpasses : ∀ c : Context, c.Passes w (u c))
    (hreg : ∀ c, (u c).registry = c.registry) : Sourced w H (modify u : Lower Unit) fun _ => True := by
  refine fun c => .ok (hpasses c) fun _ hc _ => ⟨⟨?_, ?_⟩, trivial⟩
  · rw [(hpasses c).options]
    exact hc.helper
  · rw [hreg c]
    exact hc.registry

theorem noteAwait : Sourced w H noteAwait fun _ => True :=
  .modify (fun _ => .of_kept rfl rfl (le_refl _) rfl) fun _ => rfl

theorem noteYield : Sourced w H noteYield fun _ => True :=
  .modify (fun _ => .of_kept rfl rfl (le_refl _) rfl) fun _ => rfl

theorem bindTarget (target : Node) : Sourced w H (Lower.bind target) fun _ => True :=
  fun _ => .ok (.of_kept rfl rfl (le_refl _) rfl) fun _ hc _ => ⟨⟨hc.helper, hc.registry⟩, trivial⟩

theorem fresh (hstem : stem ∈ freshStems) : Sourced w H (fresh stem) (· ∉ w.names) := by
  refine fun c => .ok (.of_kept rfl rfl (le_succ _) rfl) fun _ hc hquiet =>
    ⟨⟨hc.helper, hc.registry⟩, ?_⟩
  exact hquiet.hidden stem hstem c.nextFresh (le_refl _) (lt_succ_self _)

/-! ## Surroundings -/

theorem within {enter : Context → Context} {leave : Context → Context → Context} {result : Context → α → β}
    (hpasses : ∀ c d : Context, (enter c).Passes w d → c.Passes w (leave c d))
    (hquiet : ∀ c d : Context, (enter c).Passes w d → w.Quiet c (leave c d) → w.Quiet (enter c) d)
    (henter : ∀ c : Context, (c.Apt w → (enter c).Apt w) ∧ (c.Marked w → (enter c).Marked w))
    (hleave : ∀ c d : Context, d.Apt w → (leave c d).Apt w)
    (hresult : ∀ d a, R a → R' (result d a)) (h : Sourced w H m R) :
    Sourced w H (Lower.within enter leave result m) R' := by
  intro c
  have hends := h (enter c)
  unfold Lower.within
  generalize m (enter c) = r at hends ⊢
  cases hends with
  | ok hpassed hrest =>
    refine .ok (hpasses c _ hpassed) fun hH hc hcalm => ?_
    obtain ⟨hafter, hR⟩ := hrest hH ((henter c).1 hc) (hquiet c _ hpassed hcalm)
    exact ⟨hleave c _ hafter, hresult _ _ hR⟩
  | error hpassed hrest hraised =>
    exact .error (hpasses c _ hpassed) (fun hH hc hcalm =>
      hleave c _ (hrest hH ((henter c).1 hc) (hquiet c _ hpassed hcalm))) fun hc => hraised ((henter c).2 hc)

theorem tracking (h : Sourced w H m R) : Sourced w H (tracking m) fun r => R r.1 :=
  .within (fun _ _ h => ⟨h.options, h.wrapperDepth, h.nextFresh, h.loops, h.recurs, h.marked, h.still⟩)
    (fun _ _ _ h => ⟨h.hidden, h.met⟩) (fun _ => ⟨fun hc => ⟨hc.helper, hc.registry⟩, id⟩)
    (fun _ _ hd => ⟨hd.helper, hd.registry⟩) (fun _ _ ha => ha) h

theorem inExpression (h : Sourced w H m R) : Sourced w H (inExpression m) fun r => R r.1 :=
  .within (fun _ _ h => ⟨h.options, by rw [h.wrapperDepth, Nat.add_sub_cancel], h.nextFresh, h.loops,
      h.recurs, h.marked, h.still⟩)
    (fun _ _ _ h => ⟨h.hidden, h.met⟩) (fun _ => ⟨fun hc => ⟨hc.helper, hc.registry⟩, id⟩)
    (fun _ _ hd => ⟨hd.helper, hd.registry⟩) (fun _ _ ha => ha) h.tracking

theorem inScope (names : List String) (h : Sourced w H m R) : Sourced w H (inScope names m) R :=
  .within (fun _ _ h => ⟨h.options, h.wrapperDepth, h.nextFresh, h.loops, h.recurs, h.marked, h.still⟩)
    (fun _ _ _ h => ⟨h.hidden, h.met⟩) (fun _ => ⟨fun hc => ⟨hc.helper, hc.registry⟩, id⟩)
    (fun _ _ hd => ⟨hd.helper, hd.registry⟩) (fun _ _ ha => ha) h

theorem inFunction (h : Sourced w H m R) : Sourced w H (inFunction m) fun r => R r.1 := by
  refine .within
    (fun _ _ h => ⟨h.options, rfl, h.nextFresh, .refl _, le_refl _, id, fun _ => rfl⟩)
    (fun c d h hquiet => ⟨hquiet.hidden, ?_⟩) (fun _ => ⟨fun hc => ⟨hc.helper, hc.registry⟩, nofun⟩)
    (fun _ _ hd => ⟨hd.helper, hd.registry⟩) (fun _ _ ha => ha) h
  exact Context.met_of_unwatched (by simp) h.loops

theorem inLoop (hframe : H → frame.label ∉ w.names)
    (hfirst : w.Sited frame.firstRecur) (h : Sourced w H m R) :
    Sourced w H (Lower.inLoop frame m) fun r => R r.1 := by
  intro c
  have hends := h { c with loops := frame :: c.loops }
  -- The loops around are as before, and within the loop nothing is counted.
  have hback {d : Context} (hpasses : Context.Passes w { c with loops := frame :: c.loops } d) :
      c.Passes w { d with loops := c.loops } :=
    ⟨hpasses.options, hpasses.wrapperDepth, hpasses.nextFresh, .refl _, le_refl _, id, fun _ => rfl⟩
  have hquiet {d : Context} (hH : H) (hpasses : Context.Passes w { c with loops := frame :: c.loops } d)
      (hquiet : w.Quiet c { d with loops := c.loops }) :
      w.Quiet { c with loops := frame :: c.loops } d := by
    have hinside : ∀ one ∈ (frame :: c.loops).head?, one.label ∉ w.names := by
      rintro _ ⟨⟩
      exact hframe hH
    exact ⟨hquiet.hidden, (Context.met_of_unwatched hinside hpasses.loops).trans
      (Context.met_of_unwatched hinside (.refl _)).symm⟩
  unfold Lower.inLoop
  generalize m { c with loops := frame :: c.loops } = r at hends ⊢
  cases hends with
  | @ok a d hpasses hrest =>
    obtain ⟨top, hafter⟩ := SameLoops.cons_inv hpasses.loops
    simp only [hafter]
    refine .ok (hback hpasses) fun hH hc hcalm => ?_
    obtain ⟨hd, hR⟩ := hrest hH ⟨hc.helper, hc.registry⟩ (hquiet hH hpasses hcalm)
    exact ⟨⟨hd.helper, hd.registry⟩, hR⟩
  | @error e d hpasses hrest hraised =>
    obtain ⟨top, hafter⟩ := SameLoops.cons_inv hpasses.loops
    simp only [hafter, tail_cons]
    refine .error (hback hpasses) (fun hH hc hcalm => ?_) fun hc =>
      hraised (forall_mem_cons.mpr ⟨hfirst, hc⟩)
    obtain ⟨hhelper, hreg⟩ := hrest hH ⟨hc.helper, hc.registry⟩ (hquiet hH hpasses hcalm)
    exact ⟨hhelper, hreg⟩

theorem sited_inLoop (h : Sourced w H m R) (hfirst : w.Sited frame.firstRecur) (hc : c.Marked w)
    {r : α × LoopFrame} (hrun : Lower.inLoop frame m c = .ok r d) :
    w.Sited r.2.firstRecur := by
  obtain ⟨after, rest, ha, hloops, rfl⟩ := inLoop_ok hrun
  have hafter : after.Marked w := (h.passes ha).marked (forall_mem_cons.mpr ⟨hfirst, hc⟩)
  exact hafter r.2 (by rw [hloops]; exact .head _)

theorem inForm (name : String) (hp : w.Known p) (h : Sourced w H m R) :
    Sourced w H (Lowering.inForm name p m) R := by
  intro c
  have hends := h c
  unfold Lowering.inForm
  generalize m c = r at hends ⊢
  cases hends with
  | ok hpasses hrest => exact .ok hpasses hrest
  | error hpasses hrest hraised =>
    exact .error hpasses hrest fun hc => .inForm name (hraised hc) hp.1

end Sourced

/-! ## Positions -/

/-- The step under watch, and the same step without positions: they end alike if trees are lowered alike
without positions. -/
structure Traced (w : Watch) (lower : Lowerer) (H : Prop) (f : α → α) (m m' : Lower α)
    (R : α → Prop) : Prop where
  sourced : Sourced w H m R
  erases : LowererErases lower → Erases f m m'

namespace Traced

variable {lower : Lowerer} {f : α → α} {g : β → β} {m m' n n' : Lower α} {R S : α → Prop} {R' : β → Prop}

theorem pure {a' : α} (heq : f a = a') (h : H → R a) : Traced w lower H f (Pure.pure a) (Pure.pure a') R :=
  ⟨.pure h, fun _ => .pure heq⟩

theorem fault {fault fault' : Fault} {p' : Option Position} (hp : w.Sited p) :
    Traced w lower H f (Lower.refuse (fault.place p)) (Lower.refuse (fault'.place p')) R :=
  ⟨.fault fault hp, fun _ => .refuse _ _⟩

theorem refuseForm {fault fault' : Fault} (hp : w.Known form.position) :
    Traced w lower H f (form.refuse fault) (form'.refuse fault') R :=
  .fault hp.1

theorem refusePart {part part' : SExpr} {fault fault' : Fault}
    (hp : w.Known form.position) (hpart : w.Known part.position) :
    Traced w lower H f (form.refusePart part fault) (form'.refusePart part' fault') R :=
  .fault (hp.or hpart.1).1

theorem bind (hm : Traced w lower H f m m' R) (hk : ∀ a, Traced w lower (H ∧ R a) g (k a) (k' (f a)) R') :
    Traced w lower H g (m >>= k) (m' >>= k') R' :=
  ⟨.bind hm.sourced fun a => (hk a).sourced, fun h => .bind (hm.erases h) fun a => (hk a).erases h⟩

theorem bindRefusePart {part part' : SExpr} {fault fault' : Fault} (hp : w.Known form.position) (hpart : w.Known part.position) :
    Traced w lower H g (form.refusePart part fault >>= k) (form'.refusePart part' fault' >>= k') R' :=
  (refusePart hp hpart : Traced w lower H g (form.refusePart part fault) (form'.refusePart part' fault') R')

theorem bindPure {a' : α} (h : Traced w lower H g (k a) (k' a') R') :
    Traced w lower H g (Pure.pure a >>= k) (Pure.pure a' >>= k') R' :=
  h

theorem map {k k' : α → β} (hm : Traced w lower H f m m' R) (heq : ∀ a, g (k a) = k' (f a))
    (h : H → ∀ a, R a → R' (k a)) :
    Traced w lower H g (m >>= fun a => Pure.pure (k a)) (m' >>= fun a => Pure.pure (k' a)) R' :=
  .bind hm fun a => .pure (heq a) fun ⟨hH, ha⟩ => h hH a ha

theorem imp (h : Traced w lower H f m m' R) (hR : ∀ a, R a → S a) : Traced w lower H f m m' S :=
  ⟨h.sourced.imp hR, h.erases⟩

theorem ite_of {p p' : Prop} [Decidable p] [Decidable p'] (h : p' ↔ p)
    (hm : p → Traced w lower H f m m' R) (hn : ¬p → Traced w lower H f n n' R) :
    Traced w lower H f (if p then m else n) (if p' then m' else n') R := by
  by_cases hp : p
  · rw [if_pos hp, if_pos (h.mpr hp)]
    exact hm hp
  · rw [if_neg hp, if_neg fun hp' => hp (h.mp hp')]
    exact hn hp

theorem ite {p p' : Prop} [Decidable p] [Decidable p'] (h : p' ↔ p) (hm : Traced w lower H f m m' R)
    (hn : Traced w lower H f n n' R) : Traced w lower H f (if p then m else n) (if p' then m' else n') R :=
  .ite_of h (fun _ => hm) fun _ => hn

theorem bindSyntax {x x' : Except SyntaxFault α} (hx : w.Reads R x)
    (hx' : ReadsErased f x x') (hk : ∀ a, x = .ok a → R a → Traced w lower H g (k a) (k' (f a)) R') :
    Traced w lower H g (ofSyntax x >>= k) (ofSyntax x' >>= k') R' := by
  cases hx' with
  | ok a => exact hk a rfl hx
  | error fault fault' => exact ⟨.refuse (.reading fault hx), fun _ => .refuse _ _⟩

theorem ofExcept {x' : Except Diagnostic α} (hx : Answered (Diagnostic.Raised w.sites) R x)
    (hx' : ReadsErased f x x') : Traced w lower H f (Lower.ofExcept x) (Lower.ofExcept x') R :=
  ⟨.ofExcept hx, fun _ => .ofExcept hx'⟩

theorem get {k k' : Context → Lower α}
    (h : ∀ c : Context, Traced w lower (H ∧ c.Apt w) f (k c) (k' c.erase) R) :
    Traced w lower H f (MonadState.get >>= k) (MonadState.get >>= k') R :=
  ⟨.get fun c => (h c).sourced, fun he => .get fun c => (h c).erases he⟩

theorem tracking (h : Traced w lower H f m m' R) : Traced w lower H (Prod.map f id) (tracking m)
    (tracking m') fun r => R r.1 :=
  ⟨.tracking h.sourced, fun he => (h.erases he).tracking⟩

theorem inFunction (h : Traced w lower H f m m' R) : Traced w lower H (Prod.map f id)
    (inFunction m) (inFunction m') fun r => R r.1 :=
  ⟨.inFunction h.sourced, fun he => (h.erases he).inFunction⟩

theorem inScope (names : List String) (h : Traced w lower H f m m' R) :
    Traced w lower H f (inScope names m) (inScope names m') R :=
  ⟨.inScope names h.sourced, fun he => .inScope names (h.erases he)⟩

theorem noteAwait : Traced w lower H id noteAwait noteAwait fun _ => True :=
  ⟨.noteAwait, fun _ => .noteAwait⟩

theorem noteYield : Traced w lower H id noteYield noteYield fun _ => True :=
  ⟨.noteYield, fun _ => .noteYield⟩

theorem bindTarget (target : Node) :
    Traced w lower H id (Lower.bind target) (Lower.bind target.erase) fun _ => True :=
  ⟨.bindTarget target, fun _ => .bindTarget target⟩

theorem fresh (hstem : stem ∈ freshStems) :
    Traced w lower H id (fresh stem) (fresh stem) (· ∉ w.names) :=
  ⟨.fresh hstem, fun _ => .fresh stem⟩

theorem each {γ : Type} {e : γ → γ} {step step' : γ → Lower α} {items : List γ}
    (h : ∀ item ∈ items, ∀ H, Traced w lower H f (step item) (step' (e item)) R) :
    Traced w lower H (List.map f) (Lower.each step items) (Lower.each step' (items.map e))
      fun as => ∀ a ∈ as, R a := by
  induction items generalizing H with
  | nil => exact .pure rfl fun _ => by simp
  | cons item rest ih =>
    rw [forall_mem_cons] at h
    exact .bind (h.1 _) fun a => .bind (ih h.2) fun _ =>
      .pure rfl fun ⟨⟨_, ha⟩, has⟩ => forall_mem_cons.mpr ⟨ha, has⟩

theorem eachTree {step : SExpr → Lower Node} {R : Node → Prop} {trees : List SExpr}
    (h : ∀ t ∈ trees, ∀ H, Traced w lower H erase (step t) (step t.erase) R) :
    Traced w lower H eraseAll (Lower.each step trees) (Lower.each step (trees.map SExpr.erase))
      fun nodes => ∀ node ∈ nodes, R node := by
  rw [show eraseAll = List.map erase from funext fun _ => eraseAll_eq_map]
  exact .each h

end Traced

end LispLowering
