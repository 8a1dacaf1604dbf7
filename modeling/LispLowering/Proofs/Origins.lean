import LispLowering.Proofs.Positions
import LispLowering.Proofs.WellFormedErrors

/-!
# Where positions come from
-/

namespace LispLowering

open Lowering List Option

variable {e : Diagnostic}

/-! ## Positions of trees, answers and diagnostics -/

/-- The positions of a tree and of the trees inside of it. -/
def SExpr.positions (t : SExpr) : List Position := t.subtrees.filterMap SExpr.position

def Request.forms : Request → List SExpr
  | .form tree => [tree]
  | .program forms => forms

def passedPositions (history : List Request) : List Position :=
  (history.flatMap Request.forms).flatMap SExpr.positions

def Answer.positions : Answer → List Position
  | .node lowered => lowered.toList.flatMap Node.positions
  | .program lowered => lowered.body.flatMap Node.positions

namespace Diagnostic

/-- The position of the fault of syntax that the diagnostic goes back to directly. -/
def faultPosition? (d : Diagnostic) : Option Position :=
  match d.cause with
  | some (.fault fault) => fault.position
  | _ => none

/-- The locations of a diagnostic and of all that it goes back to. -/
def sites (d : Diagnostic) : List Position :=
  d.trail.flatMap fun inner => inner.location.toList ++ inner.faultPosition?.toList

theorem Raised.sites {P : Position → Prop} (h : e.Raised P) : ∀ q ∈ e.sites, P q := by
  have hlist {p : Option Position} (hp : Known P p) : ∀ q ∈ p.toList, P q :=
    fun q hq => hp q (mem_toList.mp hq)
  induction h with
  | @fault fault p hp =>
    have hloc : (fault.place p).location = p := by
      unfold Fault.place
      split <;> rfl
    have hsites : (fault.place p).sites = p.toList := by
      simp only [Diagnostic.sites, trail_of_cause_none (cause_fault fault p), faultPosition?,
        cause_fault fault p, hloc, flatMap_cons, flatMap_nil, toList_none,
        append_nil]
    rw [hsites]
    exact hlist hp
  | reading fault hp =>
    have hsites : (ofSyntax fault).sites = fault.position.toList ++ fault.position.toList :=
      append_nil _
    rw [hsites]
    exact forall_mem_append.mpr ⟨hlist hp, hlist hp⟩
  | @inForm d name p _ hp ih =>
    cases hloc : d.location with
    | some q => rwa [inForm_of_location_some hloc]
    | none =>
      obtain ⟨before, heq⟩ := inForm_of_location_none hloc name p
      have hsites : (d.inForm name p).sites = p.toList ++ [] ++ d.sites := by
        rw [heq]
        rfl
      rw [hsites, append_nil]
      exact forall_mem_append.mpr ⟨hlist hp, ih⟩

end Diagnostic

/-! ## Forms that a session goes on with -/

namespace SExpr

theorem mem_positions {t u : SExpr} (hu : u ∈ t.subtrees) : Known (· ∈ t.positions) u.position :=
  fun _ hq => mem_filterMap.mpr ⟨u, hu, hq⟩

end SExpr

variable {w : Watch} {c : Context} {S : Position → Prop} {T : SExpr → Prop}

variable {t : SExpr} {d : Context} {node : Node}

theorem lowerTopLevel_sourced {H : Prop} (ht : t.Suits w) :
    Sourced w H (lowerTopLevel t) (Node.Allowed w) := by
  refine .map (lower_sourced.lowers H t ht) fun _ result hresult => Node.Allowed.asStatement ?_
  cases result with
  | none => exact (Node.anchored_null ht.position).allowed
  | some node => exact (hresult node rfl).allowed

theorem Request.perform_sourced {H : Prop} (request : Request) (hshut : w.shut = false)
    (h : ∀ t ∈ request.forms, t.Suits w) :
    Sourced w H request.perform fun answer => ∀ q ∈ answer.positions, w.sites q := by
  cases request with
  | form t =>
    refine .map (lower_sourced.lowers H t (h t (mem_singleton_self t))) fun _ _ hresult q hq => ?_
    obtain ⟨node, hnode, hq⟩ := mem_flatMap.mp hq
    exact (hresult node (mem_toList.mp hnode)).allowed.positions hshut q hq
  | program forms =>
    have hprogram : Sourced w H (lowerProgram forms) fun program =>
        ∀ node ∈ program.body, node.Allowed w :=
      .map (.each fun t ht _ => lowerTopLevel_sourced (h t ht)) fun _ _ hbody => hbody
    refine .map hprogram fun _ _ hprogram q hq => ?_
    obtain ⟨node, hnode, hq⟩ := mem_flatMap.mp hq
    exact (hprogram node hnode).positions hshut q hq

theorem Request.suits (request : Request) :
    ∀ t ∈ request.forms, t.Suits (.within (fun q => (∃ t ∈ request.forms, q ∈ t.positions) ∨ S q)
      fun _ => True) :=
  fun t ht => SExpr.suits_within fun _ hu =>
    ⟨fun q hq => .inl ⟨t, ht, SExpr.mem_positions hu q hq⟩, trivial⟩

theorem Context.Apt.after (hc : c.Apt (.within S T)) (request : Request) :
    (c.after request).Apt (.within (fun q => (∃ t ∈ request.forms, q ∈ t.positions) ∨ S q) T) := by
  have hends := request.perform_sourced (H := True) rfl (request.suits (S := S)) c
  have hapt : c.Apt (.within (fun q => (∃ t ∈ request.forms, q ∈ t.positions) ∨ S q) fun _ => True) :=
    hc.within fun _ => .inr
  unfold Context.after
  generalize request.perform c = r at hends ⊢
  cases hends with
  | ok _ hrest => exact (hrest trivial hapt (Watch.quiet_within _ _)).1.within fun _ => id
  | error _ hrest _ => exact (hrest trivial hapt (Watch.quiet_within _ _)).within fun _ => id

theorem Context.Apt.afterAll (hc : c.Apt (.within S T)) (history : List Request) :
    (c.afterAll history).Apt (.within (fun q => q ∈ passedPositions history ∨ S q) T) := by
  induction history generalizing c S with
  | nil => exact hc.within fun _ => .inr
  | cons request rest ih =>
    refine (ih (hc.after request)).within fun q hq => ?_
    simp only [passedPositions, flatMap_cons, flatMap_append, mem_append]
    rcases hq with hq | ⟨t, ht, hq⟩ | hq
    · exact .inl (.inr hq)
    · exact .inl (.inl (mem_flatMap.mpr ⟨t, ht, hq⟩))
    · exact .inr hq

/-! ## The form at which a request fails -/

/-- Lowering the forms one after another fails at one of them. -/
inductive FailsAt (t : SExpr) (e : Diagnostic) : Context → List SExpr → Prop where
  | here {c d : Context} {rest : List SExpr} : lower t c = .error e d → FailsAt t e c (t :: rest)
  | later {c d : Context} {first : SExpr} {rest : List SExpr} {result : Option Node} :
      lower first c = .ok result d → FailsAt t e d rest → FailsAt t e c (first :: rest)

theorem lowerTopLevel_cases (t : SExpr) (c : Context) :
    (∃ result node d, lower t c = .ok result d ∧ lowerTopLevel t c = .ok node d) ∨
      ∃ e d, lower t c = .error e d ∧ lowerTopLevel t c = .error e d := by
  cases hlower : lower t c with
  | ok result d =>
    refine .inl ⟨result, (result.getD (Node.null.place t.position)).asStatement, d, rfl, ?_⟩
    simp only [lowerTopLevel, bind, EStateM.bind, hlower]
    rfl
  | error e d =>
    refine .inr ⟨e, d, rfl, ?_⟩
    simp only [lowerTopLevel, bind, EStateM.bind, hlower]

theorem failsAt_of_each {forms : List SExpr}
    (h : Lower.each lowerTopLevel forms c = .error e d) : ∃ t, FailsAt t e c forms := by
  induction forms generalizing c with
  | nil => cases h
  | cons first rest ih =>
    simp only [Lower.each, bind, EStateM.bind] at h
    rcases lowerTopLevel_cases first c with ⟨result, node, c', hlower, htop⟩ | ⟨e', c', hlower, htop⟩
    · simp only [htop] at h
      cases hrest : Lower.each lowerTopLevel rest c' with
      | ok nodes d' =>
        rw [hrest] at h
        cases h
      | error e' d' =>
        rw [hrest] at h
        cases h
        obtain ⟨t, hfails⟩ := ih hrest
        exact ⟨t, .later hlower hfails⟩
    · simp only [htop] at h
      cases h
      exact ⟨first, .here hlower⟩

theorem Request.failsAt {request : Request} (h : request.perform c = .error e d) :
    ∃ t, FailsAt t e c request.forms := by
  cases request with
  | form t =>
    simp only [Request.perform, Functor.map, EStateM.map] at h
    split at h
    · cases h
    · next hlower =>
      cases h
      exact ⟨t, .here hlower⟩
  | program forms =>
    simp only [Request.perform, lowerProgram, Functor.map, EStateM.map, bind, EStateM.bind] at h
    split at h
    · cases h
    · next heach =>
      cases h
      split at heach
      · cases heach
      · next hfails =>
        cases heach
        exact failsAt_of_each hfails

theorem FailsAt.sites {t : SExpr} {c : Context} {forms : List SExpr}
    (h : FailsAt t e c forms) (hc : Quiet c) : ∀ q ∈ e.sites, q ∈ t.positions := by
  induction h with
  | @here c d rest hfails =>
    have hloops : ∀ frame ∈ c.loops, Known (· ∈ t.positions) frame.firstRecur := by
      rw [hc.loops]
      exact nofun
    exact (lower_raised (fun _ => SExpr.mem_positions) hloops hfails).sites
  | @later c d first rest result hlower _ ih =>
    have hevolves : EndsWithin c (lower first c) := lower_ends_within c first
    rw [hlower] at hevolves
    exact ih (hc.evolves hevolves)

/-! ## A position for the result -/

theorem lowerCallOf_position {lower : Lowerer} {callee : Node} {args : List SExpr}
    (h : lowerCallOf lower t callee args c = .ok node d) : node.position = t.position := by
  unfold lowerCallOf at h
  split at h
  · obtain ⟨_, -, rfl⟩ := map_ok h
    rfl
  · obtain ⟨_, -, rfl⟩ := map_ok h
    rfl

theorem lowerNamed_position {lower : Lowerer} {name : String} {q : Option Position} {args : List SExpr}
    (ht : t.position.isSome = true) (h : lowerNamed lower t name q args c = .ok (some node) d) :
    node.position.isSome = true := by
  have hplaced (lowered : Node) : (lowered.orPlace t.position).position.isSome = true := by
    show (lowered.position.or t.position).isSome = true
    rw [isSome_or, ht, Bool.or_true]
  cases hmeaning : HeadMeaning.ofName name with
  | dropped =>
    simp only [lowerNamed, hmeaning] at h
    cases (pure_ok h).1
  | special _ | called =>
    simp only [lowerNamed, hmeaning] at h
    obtain ⟨lowered, _, -, hrun⟩ := bind_ok h
    cases (pure_ok hrun).1
    exact hplaced lowered

theorem lower_position (ht : t.position.isSome = true) (h : lower t c = .ok (some node) d) :
    node.position.isSome = true := by
  unfold lower at h
  match t, ht, h with
  | .literal value p, ht, h =>
    cases (pure_ok h).1
    exact ht
  | .symbol name p, ht, h =>
    obtain ⟨found, _, hfound, hrun⟩ := bind_ok h
    cases (pure_ok hrun).1
    cases hreference : reference name p with
    | error e =>
      rw [hreference] at hfound
      cases hfound
    | ok value =>
      rw [hreference] at hfound
      cases (pure_ok hfound).1
      rw [(reference_referred hreference).position]
      exact ht
  | .list [] p, ht, h =>
    cases (pure_ok h).1
    exact ht
  | .list (.symbol name q :: args) p, ht, h =>
    simp only [SExpr.depth, lowerWithin, lowerList, inForm] at h
    split at h
    · next hrun =>
      cases h
      exact lowerNamed_position ht hrun
    · cases h
  | .list (.literal value q :: args) p, ht, h => cases h
  | .list (.list inner q :: args) p, ht, h =>
    obtain ⟨lowered, _, happlied, hrun⟩ := bind_ok h
    cases (pure_ok hrun).1
    obtain ⟨callee, _, -, hcall⟩ := bind_ok happlied
    rw [lowerCallOf_position hcall]
    exact ht

/-! ## Sessions -/

/-- No session invents a position. The defaults that it remembers hold positions of the trees that were
passed to it so far, and so does every answer. A request that fails does so at one of its forms, behind
others that could be lowered, and the locations of its diagnostic and of all causes are positions of this
form. A tree that has a position is lowered to a node that has one. -/
theorem positions_traced (directory : String) (options : Options) (history : List Request)
    (request : Request) :
    let c := (Context.start directory options).afterAll history
    (∀ name entry, c.registry.get? name = some entry → ∀ row ∈ entry.defaults,
      ∀ q ∈ row.2.positions, q ∈ passedPositions history) ∧
    (∀ answer d, request.perform c = .ok answer d →
      ∀ q ∈ answer.positions, q ∈ passedPositions (history ++ [request])) ∧
    (∀ e d, request.perform c = .error e d →
      ∃ t, FailsAt t e c request.forms ∧ ∀ q ∈ e.sites, q ∈ t.positions) ∧
    ∀ t node d, t.position.isSome = true → lower t c = .ok (some node) d →
      node.position.isSome = true := by
  intro c
  have hstart : Quiet (Context.start directory options) := ⟨rfl, rfl, rfl, rfl, rfl⟩
  have hquiet : Quiet c := hstart.evolves (evolves_afterAll _ history)
  have hapt : c.Apt (.within (· ∈ passedPositions history) fun _ => True) := by
    have hempty : (Context.start directory options).Apt (.within (fun _ => False) fun _ => True) :=
      ⟨not_mem_nil, fun _ ⟨_, _, _, hentry, _⟩ => (by cases hentry),
        fun _ _ _ hentry => (by cases hentry)⟩
    exact (hempty.afterAll history).within fun _ hq => hq.resolve_right id
  refine ⟨fun name entry hentry row hrow => (hapt.registry.kept trivial name entry hentry row hrow).positions rfl,
    fun _ d hrun q hq => ?_, fun e d hrun => ?_, fun t _ d ht hrun => lower_position ht hrun⟩
  · obtain ⟨-, hrest⟩ := (request.perform_sourced (H := True) rfl request.suits).of_ok hrun
    obtain ⟨-, hanswer⟩ := hrest trivial (hapt.within fun _ => .inr) (Watch.quiet_within _ _)
    simp only [passedPositions, flatMap_append, flatMap_cons, flatMap_nil, append_nil, mem_append]
    rcases hanswer q hq with ⟨t, ht, hmem⟩ | hmem
    · exact .inr (mem_flatMap.mpr ⟨t, ht, hmem⟩)
    · exact .inl hmem
  · obtain ⟨t, hfails⟩ := request.failsAt hrun
    exact ⟨t, hfails, hfails.sites hquiet⟩

end LispLowering
