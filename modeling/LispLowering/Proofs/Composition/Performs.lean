import LispLowering.Proofs.Composition.Record

/-!
# Steps that perform a script
-/

namespace LispLowering

open Lowering Lower

variable {α β : Type} {k k' : α → Lower β}

/-! ## Calm steps -/

/-- A step that lowers no tree and changes nothing that matters to the steps around it. -/
structure Calm (R : α → Prop) (m : Lower α) : Prop where
  steady : Steady R m
  idle : Idle m R
  logs : Logs [] m

namespace Calm

variable {R : α → Prop} {S : β → Prop} {m m' : Lower α}

theorem pure {a : α} (h : R a) : Calm R (Pure.pure a) := ⟨.pure h, .pure h, .pure a⟩

theorem fault {fault : Fault} {p : Option Position} (h : fault.isUnderflow = false) :
    Calm R (refuse (fault.place p) : Lower α) :=
  ⟨.fault h, .refuse _ _, .refuse _⟩

theorem bind (hm : Calm R m) (hk : ∀ a, R a → Calm S (k a)) : Calm S (m >>= k) :=
  ⟨.bind hm.steady fun a ha => (hk a ha).steady, .bind hm.idle fun a ha => (hk a ha).idle,
    .bind hm.logs fun c a d hrun => (hk a (hm.idle c a d hrun).2.2).logs⟩

theorem ite {p : Prop} [Decidable p] (h : Calm R m) (h' : Calm R m') : Calm R (if p then m else m') := by
  split
  · exact h
  · exact h'

theorem get {k : Context → Lower α}
    (hsame : ∀ c r s l, k { c with registry := r, suspension := s, declarations := l } = k c)
    (h : ∀ c, Calm R (k c)) : Calm R (get >>= k) :=
  ⟨.get hsame fun c => (h c).steady, .bind .get fun c _ => (h c).idle,
    .after .get fun _ c _ _ => (h c).logs⟩

theorem ofExcept {x : Except Diagnostic α} (h : Faultless x) :
    Calm (fun a => x = .ok a) (Lower.ofExcept x) :=
  ⟨.ofExcept h, .ofExcept x, .ofExcept x⟩

theorem ofSyntax (x : Except SyntaxFault α) : Calm (fun a => x = .ok a) (ofSyntax x) :=
  ⟨.ofSyntax x, .ofSyntax x, .ofSyntax x⟩

theorem fresh (stem : String) : Calm (fun _ => True) (fresh stem) :=
  ⟨.fresh stem, .fresh stem, fun _ => .still rfl rfl rfl⟩

theorem symbolIn (form : Form) (part : String) (tree : Option SExpr) :
    Calm (fun _ => True) (form.symbolIn part tree) := by
  unfold Form.symbolIn
  split
  · exact .fault rfl
  · exact .pure trivial
  · exact .fault rfl

end Calm

/-! ## Putting steps together -/

/-- A step does the acts of the parts if its way of lowering does those of the trees. -/
def Comparison.Logs (P : Comparison) (parts : List Part) (m : Lower α) : Prop :=
  Transparent P.first → ∀ below, Logger below P.first →
    LispLowering.Logs (parts.flatMap (Part.acts below)) m

/-- Two steps follow a script. The first one makes something of its parts, if its way of lowering does
not look at what the code waits for, and does their acts. -/
structure Performs (P : Comparison) (stored : Node → Prop) (s : Script) (m m' : Lower α)
    (Q : List Leaf → Suspension → α → Prop) : Prop where
  follows : Follows P s (fun a => ∃ leaves δ, Q leaves δ a) m m'
  makes : Transparent P.first → Makes P.first stored s.parts m Q
  logs : P.Logs s.parts m

abbrev Comparison.Performs (P : Comparison) (stored : Node → Prop) (s : Script)
    (step : Lowerer → Lower α) (Q : List Leaf → Suspension → α → Prop) : Prop :=
  LispLowering.Performs P stored s (step P.first) (step P.second) Q

/-- A form performs the script of its arguments, and makes its node of their parts. -/
abbrev Comparison.PerformsForm (P : Comparison) (stored : Node → Prop) (special : SpecialForm) : Prop :=
  ∀ ⦃form : Form⦄, SExpr.Each P.trees form.args →
    P.Performs stored (specialScript special form.args) (lowerSpecial · form special) (Gives .any)

variable {P : Comparison} {stored : Node → Prop} {s s' : Script}

namespace Performs

variable {m m' : Lower α} {Q Q' : List Leaf → Suspension → α → Prop}
  {R : List Leaf → Suspension → β → Prop}

theorem pure {a : α} (h : Q [] {} a) : Performs P stored .done (Pure.pure a) (Pure.pure a) Q :=
  ⟨.pure ⟨_, _, h⟩, fun _ => .pure h, fun _ _ _ => .pure a⟩

theorem fault {fault : Fault} {p : Option Position} (h : fault.isUnderflow = false) :
    Performs P stored s (refuse (fault.place p) : Lower α) (refuse (fault.place p)) Q :=
  ⟨.fault h, fun _ => .refuse _, fun _ _ _ => .refuse _⟩

variable {g : α → β} {S : α → Prop} (hm : Performs P stored s m m' Q)

theorem bind (hm : Performs P stored s m m' Q)
    (hk : ∀ a leaves δ, Q leaves δ a → Performs P stored s' (k a) (k' a)
      fun leaves' δ' b => R (leaves ++ leaves') (δ.union δ') b) :
    Performs P stored (s ++ s') (m >>= k) (m' >>= k') R where
  follows := by
    refine .bind hm.follows fun a ha => ?_
    obtain ⟨leaves, δ, ha⟩ := ha
    refine (hk a leaves δ ha).follows.imp fun b hb => ?_
    obtain ⟨leaves', δ', hb⟩ := hb
    exact ⟨_, _, hb⟩
  makes := fun hl => by
    rw [Script.parts_append]
    exact .bind (hm.makes hl) fun a leaves δ ha => (hk a leaves δ ha).makes hl
  logs := fun hl below hbelow => by
    rw [Script.parts_append, List.flatMap_append]
    refine .bind (hm.logs hl below hbelow) fun c a d hrun => ?_
    obtain ⟨_, _, _, _, _, ha⟩ := hm.makes hl c a d hrun
    exact (hk a _ _ ha).logs hl below hbelow

include hm in
theorem settle
    (hk : ∀ a leaves δ, Q leaves δ a → Calm (R leaves δ) (k a)) :
    Performs P stored s (m >>= k) (m' >>= k) R where
  follows := by
    refine .thenSteady hm.follows fun a ha => ?_
    obtain ⟨leaves, δ, ha⟩ := ha
    exact (hk a leaves δ ha).steady.imp fun _ hb => ⟨leaves, δ, hb⟩
  makes := fun hl => .settle (hm.makes hl) fun a leaves δ ha => (hk a leaves δ ha).idle
  logs := fun hl below hbelow => by
    refine .settle (hm.logs hl below hbelow) fun c a d hrun => ?_
    obtain ⟨_, _, _, _, _, ha⟩ := hm.makes hl c a d hrun
    exact (hk a _ _ ha).logs

include hm in
theorem map
    (hg : ∀ a leaves δ, Q leaves δ a → R leaves δ (g a)) :
    Performs P stored s (m >>= fun a => Pure.pure (g a)) (m' >>= fun a => Pure.pure (g a)) R :=
  settle hm fun a leaves δ ha => .pure (hg a leaves δ ha)

theorem after {S : α → Prop} (hm : Calm S m)
    (hk : ∀ a, S a → Performs P stored s (k a) (k' a) R) :
    Performs P stored s (m >>= k) (m >>= k') R :=
  ⟨.steadyThen hm.steady fun a ha => (hk a ha).follows,
    fun hl => .after hm.idle fun a ha => (hk a ha).makes hl,
    fun hl below hbelow => .after hm.logs fun c a d hrun =>
      (hk a (hm.idle c a d hrun).2.2).logs hl below hbelow⟩

theorem calm (h : Calm (Q [] {}) m) : Performs P stored .done m m Q where
  follows := .steady (h.steady.imp fun _ ha => ⟨_, _, ha⟩)
  makes := fun _ c a d hrun => by
    obtain ⟨hcore, hsusp, ha⟩ := h.idle c a d hrun
    exact ⟨[], {}, hcore ▸ .nil, by simp [hsusp], rfl, ha⟩
  logs := fun _ _ _ => h.logs

include hm in
theorem weaken
    (h : ∀ a leaves δ, Q leaves δ a → Q' leaves δ a) : Performs P stored s m m' Q' where
  follows := hm.follows.imp fun a ha => by
    obtain ⟨leaves, δ, ha⟩ := ha
    exact ⟨leaves, δ, h a leaves δ ha⟩
  makes := fun hl => (hm.makes hl).weaken h
  logs := hm.logs

theorem walks (h : Performs P (fun _ => True) s m m' Q) : Follows P s (fun _ => True) m m' :=
  h.follows.imp fun _ _ => trivial

include hm in
theorem also
    (hS : ∀ c a d, m c = .ok a d → S a) :
    Performs P stored s m m' fun leaves δ a => Q leaves δ a ∧ S a where
  follows := by
    intro c c' hc hagree
    obtain ⟨hout, hok⟩ := hm.follows c c' hc hagree
    refine ⟨hout, fun a d hrun => ?_⟩
    obtain ⟨hscopes, leaves, δ, ha⟩ := hok a d hrun
    exact ⟨hscopes, leaves, δ, ha, hS c a d hrun⟩
  makes := fun hl => (hm.makes hl).also hS
  logs := hm.logs

theorem silent (hs : s.notedNames P.noted = []) (hparts : s.parts = [])
    (h : Performs P stored .done m m' Q) : Performs P stored s m m' Q where
  follows := by
    intro c c' hc _
    rw [hs]
    exact h.follows c c' hc nofun
  makes := hparts ▸ h.makes
  logs := hparts ▸ h.logs

theorem ite {p : Prop} [Decidable p] {n n' : Lower α} (h : Performs P stored s m m' Q)
    (h' : Performs P stored s n n' Q) :
    Performs P stored s (if p then m else n) (if p then m' else n') Q := by
  split
  · exact h
  · exact h'

theorem get {k k' : Context → Lower α}
    (hsame : ∀ c r s l, k' { c with registry := r, suspension := s, declarations := l } = k' c)
    (h : ∀ c, Performs P stored s (k c) (k' c) Q) :
    Performs P stored s (get >>= k) (get >>= k') Q :=
  ⟨.get hsame fun c => (h c).follows, fun hl => .after .get fun c _ => (h c).makes hl,
    fun hl below hbelow => .after .get fun _ c _ _ => (h c).logs hl below hbelow⟩

theorem each {γ : Type} {step step' : γ → Lower Node} {slot : Slot} {one : γ → Script}
    {items : List γ} (h : ∀ item ∈ items,
      Performs P stored (one item) (step item) (step' item) (Gives slot)) :
    Performs P stored (.each one items) (each step items) (each step' items) (GivesAll slot) := by
  induction items with
  | nil => exact pure .nil
  | cons item rest ih =>
    rw [List.forall_mem_cons] at h
    exact bind h.1 fun _ _ _ hfirst => map (ih h.2) fun _ _ _ hothers => .cons hfirst hothers

/-! ### Surroundings -/

theorem tracking {S : List Leaf → α → Prop}
    (h : Performs P stored s m m' fun leaves _ a => S leaves a) :
    Performs P stored s (tracking m) (tracking m')
      fun leaves δ a => a.2 = δ ∧ S leaves a.1 where
  follows := h.follows.tracking.imp fun a ha => by
    obtain ⟨leaves, -, ha⟩ := ha
    exact ⟨leaves, a.2, rfl, ha⟩
  makes := fun hl => (h.makes hl).tracking
  logs := fun hl below hbelow => (h.logs hl below hbelow).tracking

theorem inScope (names : List String) (h : Performs P stored s m m' Q) :
    Performs P stored (.scope names s .done) (inScope names m) (inScope names m') Q where
  follows := .inScope names h.follows
  makes := fun hl => by
    rw [Script.parts, Script.parts, List.append_nil]
    exact (h.makes hl).inScope names
  logs := fun hl below hbelow => by
    rw [Script.parts, Script.parts, List.append_nil]
    exact (h.logs hl below hbelow).inScope names

theorem block (h : Performs P stored (s ++ s') m m' Q) : Performs P stored (.block s s') m m' Q := by
  have hparts : (Script.block s s').parts = (s ++ s').parts := (Script.parts_append s s').symm
  exact ⟨.block h.follows, hparts ▸ h.makes, hparts ▸ h.logs⟩

theorem unnoted (names : List String) (h : Performs P stored s m m' Q) :
    Performs P stored (.unnoted names s) m m' Q :=
  ⟨.unnoted names h.follows, h.makes, h.logs⟩

theorem bindTarget (target : Node) {k k' : Unit → Lower α}
    (hk : Performs P stored s (k ()) (k' ()) Q) :
    Performs P stored (.bind target.boundNames s) (Lower.bind target >>= k)
      (Lower.bind target >>= k') Q where
  follows := .bind (.bindTarget target) fun _ _ => hk.follows
  makes := fun hl => .after (.bindTarget target) fun _ _ => hk.makes hl
  logs := fun hl below hbelow => .after (.bindTarget target) fun _ _ _ _ =>
    hk.logs hl below hbelow

/-! ### Trees -/

variable {tree : SExpr}

theorem plain (ht : P.trees tree) : P.Performs stored (.visit .statement tree .done) (· tree)
      fun leaves _ node => leaves = node.toList.map .node where
  follows := (Follows.visit ht).imp fun _ _ => ⟨_, {}, rfl⟩
  makes := fun hl => by
    rw [Script.parts, Script.parts, List.append_nil]
    exact .plain hl tree
  logs := fun _ _ hbelow => by
    rw [Script.parts, Script.parts, List.append_nil]
    exact hbelow.plain tree

theorem value (ht : P.trees tree) :
    P.Performs stored (.value tree) (lowerValue · tree) (Gives .expression) := by
  have hparts : (Script.value tree).parts = tree.partAt .value := by simp [Script.value, Script.parts]
  refine ⟨?_, fun hl => hparts ▸ .value hl tree, fun _ _ hbelow => hparts ▸ hbelow.value tree⟩
  refine Follows.imp (R := fun _ => True) (.block ?_) fun node _ => ⟨_, {}, .value node⟩
  cases tree with
  | literal | symbol => exact .thenSteady (.visit ht) fun result _ => asExpression_steady result _ _
  | list items p =>
    exact .thenSteady (.inExpression (.visit ht)) fun result _ =>
      asExpression_steady result.1 result.2 p

/-! ### Acts -/

theorem event {own : Act} (event : Event) (δ : Suspension) (hparts : event.parts = [.act own])
    (hsteady : Steady (fun a => Q event.leaves δ a) m)
    (hstep : ∀ c a d, m c = .ok a d → Step P.first stored c.core event δ d.core ∧
      d.suspension = c.suspension.union δ) (hlogs : LispLowering.Logs [own] m) :
    Performs P stored (.act own .done) m m Q where
  follows := .act own (.steady (hsteady.imp fun _ ha => ⟨_, δ, ha⟩))
  makes := fun _ => by
    rw [Script.parts, Script.parts, ← hparts]
    refine .event event δ fun c a d hrun => ?_
    obtain ⟨hstep, hδ⟩ := hstep c a d hrun
    exact ⟨hstep, hδ, (hsteady.ends c a d hrun).2⟩
  logs := fun _ _ _ => hlogs

theorem noteAwait : Performs P stored (.act .await .done) noteAwait noteAwait
    fun leaves _ _ => leaves = [.mark .awaits] := by
  refine event .awaits { awaits := true } rfl (Steady.noteAwait.imp fun _ _ => rfl)
    (fun c a d hrun => ?_) fun _ => .unrecorded rfl rfl rfl rfl rfl
  cases hrun
  exact ⟨.awaits, by simp [Suspension.union]⟩

theorem noteYield : Performs P stored (.act .yield .done) noteYield noteYield
    fun leaves _ _ => leaves = [.mark .yields] := by
  refine event .yields { yields := true } rfl (Steady.noteYield.imp fun _ _ => rfl)
    (fun c a d hrun => ?_) fun _ => .unrecorded rfl rfl rfl rfl rfl
  cases hrun
  exact ⟨.yields, by simp [Suspension.union]⟩

end Performs

theorem Performs.recall {value : Node} (h : stored value) :
    Performs P stored .done (Pure.pure value) (Pure.pure value) (Gives .expression) :=
  ⟨.pure ⟨_, {}, .value value⟩, fun _ => .recall h, fun _ _ _ => .pure value⟩

end LispLowering
