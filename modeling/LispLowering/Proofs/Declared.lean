import LispLowering.Proofs.Origins

/-!
# Declarations of a session
-/

namespace LispLowering

open Lowering List Option

variable {name : String} {t : SExpr} {c d : Context}

/-! ## Declarations in their order -/

namespace Registry

variable {r s : Registry} {row : String × FunctionEntry} {log : List (String × FunctionEntry)}
  {e : Diagnostic}

/-- The registry after a declaration that may be refused. -/
def attempt (r : Registry) (row : String × FunctionEntry) : Registry :=
  match r.declare row.1 row.2 with
  | .ok s => s
  | .error _ => r

/-- The registry after declarations one after another. -/
def attemptAll (r : Registry) (log : List (String × FunctionEntry)) : Registry := log.foldl attempt r

theorem attempt_of_ok (h : r.declare row.1 row.2 = .ok s) : r.attempt row = s := by
  unfold attempt
  rw [h]

theorem attempt_of_error (h : r.declare row.1 row.2 = .error e) : r.attempt row = r := by
  unfold attempt
  rw [h]

theorem Executes.attemptAll_eq (h : r.Executes log s) : r.attemptAll log = s := by
  induction h with
  | nil r => rfl
  | cons hdeclare _ ih =>
    rw [attemptAll, foldl_cons, attempt_of_ok hdeclare]
    exact ih

theorem Stops.attemptAll_eq (h : r.Stops e log s) : r.attemptAll log = s := by
  cases h with
  | executed hlog => exact hlog.attemptAll_eq
  | @refused _ log row _ hlog hdeclare _ =>
    have hafter : log.foldl attempt r = s := hlog.attemptAll_eq
    rw [attemptAll, foldl_append, hafter]
    exact attempt_of_error hdeclare

theorem declare_rejected {first : FunctionEntry} (hpolicy : r.policy = .reject)
    (hname : r.get? name = some first) (entry : FunctionEntry) :
    r.declare name entry = .error ((Fault.alreadyDefined name first.position).place entry.position) := by
  simp only [declare, hname, hpolicy]

theorem declare_error {entry : FunctionEntry} (h : r.declare name entry = .error e) :
    ∃ first, r.get? name = some first ∧
      e = (Fault.alreadyDefined name first.position).place entry.position := by
  unfold declare at h
  split at h
  · next first hfirst _ =>
    cases h
    exact ⟨first, hfirst, rfl⟩
  · cases h

theorem declare_replaced (hpolicy : r.policy = .replace) (name : String) (entry : FunctionEntry) :
    ∃ s, r.declare name entry = .ok s := by
  unfold declare
  rw [hpolicy]
  split
  · next heq => cases heq
  · exact ⟨_, rfl⟩

theorem attempt_policy (r : Registry) (row : String × FunctionEntry) :
    (r.attempt row).policy = r.policy := by
  cases hdeclare : r.declare row.1 row.2 with
  | ok s => rw [attempt_of_ok hdeclare, declare_eq_ok hdeclare]
  | error e => rw [attempt_of_error hdeclare]

theorem attemptAll_policy (r : Registry) (log : List (String × FunctionEntry)) :
    (r.attemptAll log).policy = r.policy := by
  induction log generalizing r with
  | nil => rfl
  | cons row rest ih => exact (ih (r.attempt row)).trans (r.attempt_policy row)

theorem attemptAll_cons (r : Registry) (row : String × FunctionEntry)
    (log : List (String × FunctionEntry)) : r.attemptAll (row :: log) = (r.attempt row).attemptAll log :=
  rfl

theorem lookup_row (name : String) (row : String × FunctionEntry)
    (log : List (String × FunctionEntry)) :
    (row :: log).lookup name = if name = row.1 then some row.2 else log.lookup name := by
  obtain ⟨key, entry⟩ := row
  by_cases hkey : name = key
  · simp [hkey]
  · simp [lookup_cons, hkey, beq_false_of_ne hkey]

theorem get?_attemptAll_last (hpolicy : r.policy = .replace) (name : String) :
    (r.attemptAll log).get? name = (log.reverse.lookup name).or (r.get? name) := by
  induction log generalizing r with
  | nil => rfl
  | cons row rest ih =>
    obtain ⟨s, hdeclare⟩ := declare_replaced hpolicy row.1 row.2
    rw [attemptAll_cons, ih ((r.attempt_policy row).trans hpolicy), attempt_of_ok hdeclare,
      get?_of_declare hdeclare, reverse_cons, lookup_append, Option.or_assoc, lookup_row]
    split <;> simp

theorem get?_attemptAll_first (hpolicy : r.policy = .reject) (name : String) :
    (r.attemptAll log).get? name = (r.get? name).or (log.lookup name) := by
  induction log generalizing r with
  | nil => exact or_none.symm
  | cons row rest ih =>
    rw [attemptAll_cons, ih ((r.attempt_policy row).trans hpolicy), lookup_row]
    cases hrow : r.get? row.1 with
    | some first =>
      rw [attempt_of_error (declare_rejected hpolicy hrow row.2)]
      split
      · next hkey => simp [hkey, hrow]
      · rfl
    | none =>
      have hdeclare : r.declare row.1 row.2 =
          .ok { r with entries := r.entries.insert row.1 row.2 } := by simp only [declare, hrow]
      rw [attempt_of_ok hdeclare, get?_of_declare hdeclare]
      split
      · next hkey => simp [hkey, hrow]
      · rfl

theorem get?_attemptAll_of_not_mem (hname : ∀ row ∈ log, row.1 ≠ name) :
    (r.attemptAll log).get? name = r.get? name := by
  have hnone {rows : List (String × FunctionEntry)} (h : ∀ row ∈ rows, row.1 ≠ name) :
      rows.lookup name = none :=
    lookup_eq_none_iff.mpr fun row hrow => bne_iff_ne.mpr (h row hrow).symm
  cases hpolicy : r.policy with
  | replace =>
    rw [get?_attemptAll_last hpolicy, hnone fun row hrow => hname row (mem_reverse.mp hrow), none_or]
  | reject => rw [get?_attemptAll_first hpolicy, hnone hname, or_none]

theorem contains_attemptAll (hname : r.contains name = true) :
    (r.attemptAll log).contains name = true := by
  unfold contains at hname ⊢
  cases hpolicy : r.policy with
  | replace => rw [get?_attemptAll_last hpolicy, isSome_or, hname, Bool.or_true]
  | reject => rw [get?_attemptAll_first hpolicy, isSome_or, hname, Bool.true_or]

theorem Executes.new_names (h : r.Executes log s) (hpolicy : r.policy = .reject) :
    (∀ row ∈ log, r.contains row.1 = false) ∧ (log.map Prod.fst).Nodup := by
  induction h with
  | nil r => exact ⟨forall_mem_nil _, nodup_nil⟩
  | @cons r t s row log hdeclare _ ih =>
    obtain ⟨hnew, hnodup⟩ := ih ((congrArg policy (declare_eq_ok hdeclare)).trans hpolicy)
    have hrow : r.contains row.1 = false := by
      rw [contains, isSome_eq_false_iff, isNone_iff_eq_none]
      cases hget : r.get? row.1 with
      | none => rfl
      | some first => cases (declare_rejected hpolicy hget row.2).symm.trans hdeclare
    have hlater (other : String × FunctionEntry) (hother : other ∈ log) :
        other.1 ≠ row.1 ∧ r.contains other.1 = false := by
      have hother := hnew other hother
      rw [contains, get?_of_declare hdeclare] at hother
      by_cases hkey : other.1 = row.1
      · rw [if_pos hkey] at hother
        cases hother
      · rw [if_neg hkey] at hother
        exact ⟨hkey, hother⟩
    refine ⟨forall_mem_cons.mpr ⟨hrow, fun other hother => (hlater other hother).2⟩, ?_⟩
    refine nodup_cons.mpr ⟨fun hmem => ?_, hnodup⟩
    obtain ⟨other, hother, heq⟩ := mem_map.mp hmem
    exact (hlater other hother).1 heq

theorem Stops.executes (h : r.Stops e log s) (hpolicy : r.policy = .replace) : r.Executes log s := by
  cases h with
  | executed hlog => exact hlog
  | @refused _ log row _ hlog hdeclare _ =>
    have hkept : s.policy = .replace := hlog.attemptAll_eq ▸ (r.attemptAll_policy log).trans hpolicy
    obtain ⟨_, hok⟩ := declare_replaced hkept row.1 row.2
    cases hok.symm.trans hdeclare

end Registry

theorem Diagnostic.Around.eq_of_location {cause e : Diagnostic} (h : cause.Around e)
    (hlocation : cause.location.isSome = true) : e = cause := by
  obtain ⟨q, hq⟩ := isSome_iff_exists.mp hlocation
  induction h with
  | refl => rfl
  | inForm name p _ ih => rw [ih, inForm_of_location_some hq]

/-- The failure is for a duplicate: the diagnostic is the one of the declaration, as the forms around it
pass it on. If the declaration has a position, they do not change it. -/
def Diagnostic.IsDuplicate (e : Diagnostic) (row : String × FunctionEntry) : Prop :=
  ∃ cause, cause.code = Code.duplicateDefinition ∧ cause.Around e ∧
    (row.2.position.isSome = true → e = cause)

theorem Registry.Stops.duplicate {r s : Registry} {e : Diagnostic} {row : String × FunctionEntry}
    {before rest : List (String × FunctionEntry)} (h : r.Stops e (before ++ row :: rest) s)
    (hpolicy : r.policy = .reject)
    (htaken : r.contains row.1 = true ∨ row.1 ∈ before.map Prod.fst) :
    rest = [] ∧ r.Executes before s ∧ e.IsDuplicate row := by
  have hnot {more : List (String × FunctionEntry)} (hmore : r.Executes (before ++ row :: more) s) :
      False := by
    obtain ⟨hnew, hnodup⟩ := hmore.new_names hpolicy
    rcases htaken with hknown | hbefore
    · have hfree := hnew row (mem_append_right _ (.head _))
      exact Bool.false_ne_true (hfree.symm.trans hknown)
    · rw [map_append, nodup_append] at hnodup
      exact hnodup.2.2 _ hbefore _ (.head _) rfl
  generalize htried : before ++ row :: rest = tried at h
  cases h with
  | executed hlog => exact (hnot (htried ▸ hlog)).elim
  | @refused _ log last cause hlog hdeclare haround =>
    rcases rest.eq_nil_or_concat with rfl | ⟨more, final, rfl⟩
    · obtain ⟨rfl, hlast⟩ := append_inj' htried rfl
      cases hlast
      obtain ⟨first, -, rfl⟩ := declare_error hdeclare
      exact ⟨rfl, hlog, _, rfl, haround, fun hlocation => haround.eq_of_location hlocation⟩
    · rw [concat_eq_append, ← cons_append, ← append_assoc] at htried
      obtain ⟨rfl, -⟩ := append_inj' htried rfl
      exact (hnot hlog).elim

/-! ## Operations -/

/-- An operation on a session: a request, or a declaration from outside. -/
inductive Operation where
  | request (request : Request)
  | declare (name : String) (entry : FunctionEntry)

/-- What the function forms in the forms of a request declare, in their order. -/
def Request.signatures (request : Request) : List Signature := request.forms.flatMap SExpr.signatures

namespace Operation

def stateAfter (c : Context) : Operation → Context
  | .request asked => c.after asked
  | .declare name entry => endState (declareFunction name entry c)

/-- The declarations that an operation tries. Those of a request come from its forms: all of them in
their order if it succeeds, and the first ones if it fails. -/
def Tries (c : Context) (log : List (String × FunctionEntry)) : Operation → Prop
  | .request asked => log.map signatureOf <+: asked.signatures ∧
      ∀ answer d, asked.perform c = .ok answer d → log.map signatureOf = asked.signatures
  | .declare name entry => log = [(name, entry)]

end Operation

/-- The declarations that operations try one after another. -/
inductive TriesAll : Context → List Operation → List (String × FunctionEntry) → Prop where
  | nil (c : Context) : TriesAll c [] []
  | cons {c : Context} {operation : Operation} {operations : List Operation}
      {log log' : List (String × FunctionEntry)} : operation.Tries c log →
      TriesAll (operation.stateAfter c) operations log' →
      TriesAll c (operation :: operations) (log ++ log')

def Context.afterOperations (c : Context) (operations : List Operation) : Context :=
  operations.foldl Operation.stateAfter c

theorem Request.perform_logs (request : Request) :
    Logs (request.forms.flatMap SExpr.acts) request.perform := by
  cases request with
  | form tree =>
    rw [Request.forms, flatMap_singleton]
    exact .map (lower_logs tree) Answer.node
  | program forms =>
    have hforms : Logs (forms.flatMap SExpr.acts) (lowerProgram forms) :=
      .map (.each fun tree => .map (lower_logs tree) _) Program.mk
    exact .map hforms Answer.program

theorem Request.filterMap_acts (request : Request) :
    (request.forms.flatMap SExpr.acts).filterMap Act.signature? = request.signatures :=
  filterMap_flatMap

theorem declareFunction_of_ok {s : Registry} {entry : FunctionEntry}
    (h : c.registry.declare name entry = .ok s) : declareFunction name entry c =
      .ok () { c with registry := s, declarations := c.declarations ++ [(name, entry)] } := by
  simp only [declareFunction, h]

theorem declareFunction_of_error {e : Diagnostic} {entry : FunctionEntry}
    (h : c.registry.declare name entry = .error e) : declareFunction name entry c =
      .error e { c with declarations := c.declarations ++ [(name, entry)] } := by
  simp only [declareFunction, h]

theorem Operation.tries (operation : Operation) (c : Context) : ∃ log, operation.Tries c log ∧
    (operation.stateAfter c).declarations = c.declarations ++ log ∧
    (operation.stateAfter c).registry = c.registry.attemptAll log := by
  cases operation with
  | request asked =>
    have hlogged := asked.perform_logs c
    show ∃ log, (_ ∧ ∀ answer d, asked.perform c = .ok answer d → _) ∧
      (endState (asked.perform c)).declarations = _ ∧ (endState (asked.perform c)).registry = _
    generalize asked.perform c = result at hlogged ⊢
    cases hlogged with
    | @ok answer d log hdecl hsig hexec _ =>
      rw [asked.filterMap_acts] at hsig
      exact ⟨log, ⟨hsig ▸ prefix_refl _, fun _ _ _ => hsig⟩, hdecl, hexec.attemptAll_eq.symm⟩
    | @error e d log hdecl hsig hstops =>
      rw [asked.filterMap_acts] at hsig
      refine ⟨log, ⟨hsig, ?_⟩, hdecl, hstops.attemptAll_eq.symm⟩
      rintro _ _ ⟨⟩
  | declare name entry =>
    refine ⟨[(name, entry)], rfl, ?_⟩
    show (endState (declareFunction name entry c)).declarations = _ ∧
      (endState (declareFunction name entry c)).registry = _
    cases hdeclare : c.registry.declare name entry with
    | ok s =>
      rw [declareFunction_of_ok hdeclare]
      exact ⟨rfl, (Registry.attempt_of_ok hdeclare).symm⟩
    | error e =>
      rw [declareFunction_of_error hdeclare]
      exact ⟨rfl, (Registry.attempt_of_error hdeclare).symm⟩

theorem Context.triesAll_afterOperations (c : Context) (operations : List Operation) :
    ∃ log, TriesAll c operations log ∧
      (c.afterOperations operations).declarations = c.declarations ++ log ∧
      (c.afterOperations operations).registry = c.registry.attemptAll log := by
  induction operations generalizing c with
  | nil => exact ⟨[], .nil c, (append_nil _).symm, rfl⟩
  | cons operation rest ih =>
    obtain ⟨log, htries, hdecl, hreg⟩ := operation.tries c
    obtain ⟨log', htries', hdecl', hreg'⟩ := ih (operation.stateAfter c)
    refine ⟨log ++ log', .cons htries htries', ?_, ?_⟩
    · rw [← append_assoc, ← hdecl]
      exact hdecl'
    · rw [Registry.attemptAll, foldl_append]
      exact hreg'.trans (congrArg (foldl Registry.attempt · log') hreg)

theorem lower_executes {result : Option Node} (h : lower t c = .ok result d) :
    ∃ log, d.declarations = c.declarations ++ log ∧ log.map signatureOf = t.signatures ∧
      c.registry.Executes log d.registry := by
  have hlogged := lower_logs t c
  rw [h] at hlogged
  cases hlogged with
  | ok hdecl hsig hexec _ => exact ⟨_, hdecl, hsig, hexec⟩

theorem lower_stops {e : Diagnostic} (h : lower t c = .error e d) :
    ∃ log, d.declarations = c.declarations ++ log ∧ log.map signatureOf <+: t.signatures ∧
      c.registry.Stops e log d.registry := by
  have hlogged := lower_logs t c
  rw [h] at hlogged
  cases hlogged with
  | error hdecl hsig hstops => exact ⟨_, hdecl, hsig, hstops⟩

/-- The history of a registry. From any state and by any operations, which may fail, the registry comes
from the declarations that were tried, in their order; these are recorded, and they are those of the
function forms in the operations. A name that is known stays known.

If redefinitions are replaced, the last declaration of a name counts, and none is refused. If they are
rejected, the first one counts, and the entry of a known name stays. Another declaration of a name that
is taken is refused as a duplicate: at once if it comes from outside, and together with the form that it
is in, of which it is the last declaration that is tried. So a form is lowered only if its function
forms declare new names that differ. -/
theorem registry_history (c : Context) (operations : List Operation) :
    let d := c.afterOperations operations
    (∃ log, TriesAll c operations log ∧ d.declarations = c.declarations ++ log ∧
      d.registry = c.registry.attemptAll log ∧
      (c.registry.policy = .replace →
        ∀ name, d.registry.get? name = (log.reverse.lookup name).or (c.registry.get? name)) ∧
      (c.registry.policy = .reject →
        ∀ name, d.registry.get? name = (c.registry.get? name).or (log.lookup name))) ∧
    (∀ name, c.registry.contains name = true → d.registry.contains name = true) ∧
    (∀ t result d', lower t d = .ok result d' → ∃ log, d'.declarations = d.declarations ++ log ∧
      log.map signatureOf = t.signatures ∧ d.registry.Executes log d'.registry) ∧
    (∀ t e d', lower t d = .error e d' → ∃ log, d'.declarations = d.declarations ++ log ∧
      log.map signatureOf <+: t.signatures ∧ d.registry.Stops e log d'.registry ∧
      (c.registry.policy = .replace → d.registry.Executes log d'.registry)) ∧
    (c.registry.policy = .replace → ∀ name entry, ∃ d', declareFunction name entry d = .ok () d' ∧
      d'.registry.get? name = some entry) ∧
    (c.registry.policy = .reject →
      (∀ name entry, c.registry.get? name = some entry → d.registry.get? name = some entry) ∧
      (∀ name, d.registry.contains name = true → ∀ entry, ∃ e d',
        declareFunction name entry d = .error e d' ∧ d'.registry = d.registry ∧
        e.code = Code.duplicateDefinition) ∧
      (∀ t result d', lower t d = .ok result d' → (t.signatures.map Signature.name).Nodup ∧
        ∀ name ∈ t.signatures.map Signature.name, d.registry.contains name = false) ∧
      ∀ t e d' before row rest, lower t d = .error e d' →
        d'.declarations = d.declarations ++ (before ++ row :: rest) →
        d.registry.contains row.1 = true ∨ row.1 ∈ before.map Prod.fst →
        rest = [] ∧ d.registry.Executes before d'.registry ∧ e.IsDuplicate row) := by
  intro d
  obtain ⟨log, htries, hdecl, hreg⟩ := c.triesAll_afterOperations operations
  have hpolicy : d.registry.policy = c.registry.policy := hreg ▸ c.registry.attemptAll_policy log
  refine ⟨⟨log, htries, hdecl, hreg, ?_, ?_⟩, ?_, fun t result d' => lower_executes, ?_, ?_, ?_⟩
  · exact fun hreplace name => hreg ▸ Registry.get?_attemptAll_last hreplace name
  · exact fun hreject name => hreg ▸ Registry.get?_attemptAll_first hreject name
  · exact fun name hname => hreg ▸ Registry.contains_attemptAll hname
  · intro t e d' hrun
    obtain ⟨tried, hdecl, hsig, hstops⟩ := lower_stops hrun
    exact ⟨tried, hdecl, hsig, hstops, fun hreplace => hstops.executes (hpolicy.trans hreplace)⟩
  · intro hreplace name entry
    obtain ⟨s, hdeclare⟩ := Registry.declare_replaced (hpolicy.trans hreplace) name entry
    refine ⟨_, declareFunction_of_ok hdeclare, ?_⟩
    show s.get? name = some entry
    rw [Registry.get?_of_declare hdeclare, if_pos rfl]
  · intro hreject
    have hreject' : d.registry.policy = .reject := hpolicy.trans hreject
    refine ⟨?_, ?_, ?_, ?_⟩
    · intro name entry hentry
      rw [hreg, Registry.get?_attemptAll_first hreject, hentry, some_or]
    · intro name hname entry
      obtain ⟨first, hfirst⟩ := isSome_iff_exists.mp hname
      have hrefused := Registry.declare_rejected hreject' hfirst entry
      exact ⟨_, _, declareFunction_of_error hrefused, rfl, rfl⟩
    · intro t result d' hrun
      obtain ⟨executed, -, hsig, hexec⟩ := lower_executes hrun
      obtain ⟨hnew, hnodup⟩ := hexec.new_names hreject'
      have hnames : t.signatures.map Signature.name = executed.map Prod.fst := by
        rw [← hsig, List.map_map]
        rfl
      rw [hnames]
      refine ⟨hnodup, fun name hname => ?_⟩
      obtain ⟨row, hrow, rfl⟩ := mem_map.mp hname
      exact hnew row hrow
    · intro t e d' before row rest hrun htried htaken
      obtain ⟨tried, hdecl', -, hstops⟩ := lower_stops hrun
      cases append_cancel_left (htried.symm.trans hdecl')
      exact hstops.duplicate hreject' htaken

/-! ## Failures -/

/-- `(fn f (vector))`. -/
def emptyFunction : SExpr :=
  .list [.symbol "fn" none, .symbol "f" none, .list [.symbol "vector" none] none] none

/-- `(do (fn f (vector)) (recur))`. -/
def failingSequence : SExpr :=
  .list [.symbol "do" none, emptyFunction, .list [.symbol "recur" none] none] none

/-- A form that fails keeps the function that was declared inside of it before the failure. If
redefinitions are rejected, the corrected form fails for it as well, although it can be lowered in a
session that never saw the first one. -/
theorem failure_keeps_declaration :
    let c := Context.start "" { redefinition := .reject }
    (∃ e d, lower failingSequence c = .error e d ∧ c.registry.contains "f" = false ∧
      d.registry.contains "f" = true ∧ ∃ e' d', lower emptyFunction d = .error e' d') ∧
    ∃ node d, lower emptyFunction c = .ok (some node) d :=
  ⟨⟨_, _, rfl, rfl, rfl, _, _, rfl⟩, _, _, rfl⟩

theorem Quiet.twins (hc : Quiet c) (hd : Quiet d) (hopts : d.options = c.options)
    (hdirectory : d.directory = c.directory) (hreg : d.registry = c.registry)
    (hfresh : d.nextFresh = c.nextFresh) : Twin RegistryView.full c d := by
  obtain ⟨options, directory, registry, wrapperDepth, functionDepth, earlyReturn, loops, suspension,
    scopes, nextFresh, declarations⟩ := c
  obtain ⟨options', directory', registry', wrapperDepth', functionDepth', earlyReturn', loops',
    suspension', scopes', nextFresh', declarations'⟩ := d
  obtain ⟨rfl, rfl, rfl, rfl, rfl⟩ := hc
  obtain ⟨rfl, rfl, rfl, rfl, rfl⟩ := hd
  cases hopts
  cases hdirectory
  cases hreg
  cases hfresh
  exact ⟨rfl, rfl⟩

theorem lowerBody_append_error {before after : List SExpr} {nodes : List Node} {c' : Context}
    {e : Diagnostic} (hbefore : lowerBody lower before c = .ok nodes c')
    (h : lowerBody lower (before ++ after) c = .error e d) :
    lowerBody lower after c' = .error e d := by
  induction before generalizing c nodes with
  | nil =>
    obtain ⟨-, rfl⟩ := pure_ok hbefore
    exact h
  | cons first rest ih =>
    obtain ⟨node, c₁, hfirst, hbefore⟩ := bind_ok hbefore
    obtain ⟨others, c₂, hrest, hbefore⟩ := bind_ok hbefore
    obtain ⟨-, rfl⟩ := pure_ok hbefore
    rcases bind_error_iff.mp h with hfail | ⟨node', c₁', hfirst', h⟩
    · cases hfirst.symm.trans hfail
    · cases hfirst.symm.trans hfirst'
      rcases bind_error_iff.mp h with hfail | ⟨_, _, _, h⟩
      · exact ih hrest hfail
      · cases h

theorem lowerDo_error {forms : List SExpr} {p q : Option Position} {e : Diagnostic}
    (hlength : 2 ≤ forms.length) (h : lower (.list (.symbol "do" q :: forms) p) c = .error e d) :
    ∃ cause d₀, lowerBody lower forms { c with scopes := [] :: c.scopes } = .error cause d₀ ∧
      e = cause.inForm "do" p ∧ d.declarations = d₀.declarations ∧ d.registry = d₀.registry := by
  have hrun : lower (.list (.symbol "do" q :: forms) p) = inForm "do" p
      (lowerSequence lower p forms >>= fun node => pure (some (node.orPlace p))) := by
    rw [lower_list]
    rfl
  have hsequence : lowerSequence lower p forms =
      (Lower.inScope [] (lowerBody lower forms) >>= fun body => pure ((Node.block body).place p)) := by
    rcases forms with _ | ⟨_, _ | ⟨_, _⟩⟩
    · cases hlength
    · simp at hlength
    · rfl
  rw [hrun, hsequence] at h
  simp only [inForm, bind, EStateM.bind, Lower.inScope, Lower.within] at h
  cases hbody : lowerBody lower forms { c with scopes := [] :: c.scopes } with
  | ok nodes d₀ =>
    rw [hbody] at h
    cases h
  | error cause d₀ =>
    rw [hbody] at h
    cases h
    exact ⟨cause, d₀, rfl, rfl, rfl, rfl⟩

/-- A failure leaves the registry with the declarations that were executed before it: those of the first
ones of the function forms in the form, in their order, of which the last one may have been refused.
None is taken back: a sequence keeps what the forms in front of a failing one have declared. Names
that no function form in the form declares have the entries they had. If there is no such function form,
the registry is as before, and every later request has the same outcome as if the form had not been
tried, up to the supply of fresh names. -/
theorem failure_restores_undeclared (c d : Context) (t : SExpr) (e : Diagnostic)
    (h : lower t c = .error e d) :
    (∃ log, d.declarations = c.declarations ++ log ∧ log.map signatureOf <+: t.signatures ∧
      c.registry.Stops e log d.registry ∧ d.registry = c.registry.attemptAll log) ∧
    (∀ before after p q nodes d', t = .list (.symbol "do" q :: (before ++ after)) p →
      2 ≤ (before ++ after).length →
      lowerBody lower before { c with scopes := [] :: c.scopes } = .ok nodes d' →
      ∃ log, d.declarations = d'.declarations ++ log ∧ d'.registry.Stops e log d.registry) ∧
    (∀ name, name ∉ t.signatures.map Signature.name → d.registry.get? name = c.registry.get? name) ∧
    (t.signatures = [] → d.registry = c.registry ∧ (Quiet c → ∀ request : Request,
        SameOutcome (request.perform d) (request.perform { c with nextFresh := d.nextFresh }))) := by
  obtain ⟨log, hdecl, hsig, hstops⟩ := lower_stops h
  refine ⟨⟨log, hdecl, hsig, hstops, hstops.attemptAll_eq.symm⟩, ?_, ?_, ?_⟩
  · rintro before after p q nodes d' rfl hlength hbefore
    obtain ⟨cause, d₀, hbody, rfl, hdecl, hreg⟩ := lowerDo_error hlength h
    have hlogged := lowerBody_logs after d'
    rw [lowerBody_append_error hbefore hbody] at hlogged
    cases hlogged with
    | @error _ _ log hdecl' _ hstops =>
      rw [hdecl, hreg]
      exact ⟨log, hdecl', hstops.inForm "do" p⟩
  · intro name hname
    rw [← hstops.attemptAll_eq]
    refine Registry.get?_attemptAll_of_not_mem ?_
    rintro row hrow rfl
    exact hname (mem_map.mpr ⟨signatureOf row, hsig.subset (mem_map_of_mem hrow), rfl⟩)
  · intro hnone
    rw [hnone, prefix_nil, map_eq_nil_iff] at hsig
    cases hsig
    have hreg : d.registry = c.registry := hstops.attemptAll_eq.symm
    refine ⟨hreg, fun hquiet request => Twin.sameOutcome request.perform_agree ?_⟩
    have hevolves : Evolves c d := by
      have hends := lower_ends_within c t
      rw [h] at hends
      exact hends.1
    have htried : Quiet { c with nextFresh := d.nextFresh } :=
      ⟨hquiet.wrapperDepth, hquiet.functionDepth, hquiet.loops, hquiet.scopes, hquiet.earlyReturn⟩
    exact (hquiet.evolves hevolves).twins htried hevolves.options.symm hevolves.directory.symm
      hreg.symm rfl

/-- `(do (g) (recur))` fails without a declaration, and the function can be declared next. -/
theorem failure_restores_undeclared_call :
    let c := Context.start "" { redefinition := .reject }
    let t := SExpr.list [.symbol "do" none, .list [.symbol "g" none] none,
      .list [.symbol "recur" none] none] none
    ∃ e d, lower t c = .error e d ∧ t.signatures = [] ∧ d.registry = c.registry ∧
      SameOutcome ((Request.form emptyFunction).perform d)
        ((Request.form emptyFunction).perform { c with nextFresh := d.nextFresh }) := by
  intro c t
  have hfails : lower t c = .error _ _ := rfl
  have hnone : t.signatures = [] := by decide +kernel
  obtain ⟨-, -, -, hrestored⟩ := failure_restores_undeclared c _ t _ hfails
  obtain ⟨hreg, hsame⟩ := hrestored hnone
  exact ⟨_, _, hfails, hnone, hreg, hsame ⟨rfl, rfl, rfl, rfl, rfl⟩ _⟩

end LispLowering
