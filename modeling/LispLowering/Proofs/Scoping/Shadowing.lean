import LispLowering.Proofs.Scoping.Traversal

/-!
# Local names and declared functions
-/

namespace LispLowering

open Lowering List Scopes

variable {tree : SExpr}

/-! ## Resolution -/

theorem Registry.resolve_eq_iff (r : Registry) (scopes others : Scopes) (name : String) :
    r.resolve scopes name = r.resolve others name ↔
      scopes.has (Symbol.identifier name) = others.has (Symbol.identifier name) ∨
        r.resolve [] name = none := by
  unfold Registry.resolve
  cases Symbol.isChain name <;> cases scopes.has (Symbol.identifier name) <;>
    cases others.has (Symbol.identifier name) <;> simp [Scopes.has, eq_comm]

/-- The name at the head of a call. -/
def SExpr.callee? : SExpr → Option String
  | .list (.symbol name _ :: _) _ =>
    if HeadMeaning.ofName name = .called ∧ methodName? name = none then some name else none
  | _ => none

/-- At the site both readings agree on whether a name is local. -/
def Site.AgreesOn (site : Site) (name : String) : Prop :=
  site.noted.has (Symbol.identifier name) = site.lexical.has (Symbol.identifier name)

/-! ## Tidy forms -/

namespace Script

variable (noted calls : SExpr → List String)

/-- Nothing is bound in a block of which no note is taken, and the names of which no note is taken are not
called behind. -/
def isTidy : Script → Bool
  | .done => true
  | .visit _ _ rest | .bind _ rest | .act _ rest => isTidy rest
  | .unnoted names rest =>
    (rest.trees.all fun tree => (calls tree).all fun name => !names.contains name) && isTidy rest
  | .scope _ inner rest => isTidy inner && isTidy rest
  | .block inner rest => (notedNames noted inner).isEmpty && isTidy inner && isTidy rest

end Script

namespace SExpr

def callsWithin : Nat → SExpr → List String
  | 0, tree => (tree.callee?.map Symbol.identifier).toList
  | fuel + 1, tree =>
    (tree.callee?.map Symbol.identifier).toList ++ tree.script.trees.flatMap (callsWithin fuel)

/-- The script of a tree is tidy, and so are those of the trees in it. -/
def isTidyWithin : Nat → SExpr → Bool
  | 0, _ => true
  | fuel + 1, tree =>
    tree.script.isTidy (notedWithin fuel) (callsWithin fuel) &&
      tree.script.trees.all (isTidyWithin fuel)

/-- In the form every name is noted where it is in scope in the target, as far as it is called. -/
def isTidy (tree : SExpr) : Bool := isTidyWithin tree.depth tree

end SExpr

/-! ## Scopes that match -/

namespace Scopes

variable {called names leaks : List String} {noted lexical : Scopes}

theorem has_extend (scopes : Scopes) (names : List String) (name : String) :
    (scopes.extend names).has name = (scopes.has name || (!scopes.isEmpty && names.contains name)) := by
  cases scopes with
  | nil => rfl
  | cons scope rest =>
    simp only [extend, has, any_cons, contains_append, isEmpty_cons, Bool.not_false, Bool.true_and]
    cases scope.contains name <;> cases names.contains name <;> simp

theorem extend_eq_nil {scopes : Scopes} : scopes.extend names = [] ↔ scopes = [] := by
  cases scopes <;> simp [extend]

/-- The two readings agree on the names that are called. As long as names are added to the scope, either
both readings have one or none has. -/
structure Match (called leaks : List String) (noted lexical : Scopes) : Prop where
  has : ∀ name ∈ called, noted.has name = lexical.has name
  shape : (noted = [] ↔ lexical = []) ∨ leaks = []

namespace Match

variable (h : Match called leaks noted lexical)

include h in
theorem mono {called' leaks' : List String}
    (hcalled : ∀ name ∈ called', name ∈ called) (hleaks : leaks = [] → leaks' = []) :
    Match called' leaks' noted lexical :=
  ⟨fun name hname => h.has name (hcalled name hname), h.shape.imp_right hleaks⟩

theorem extend (h : Match called (names ++ leaks) noted lexical) :
    Match called leaks (noted.extend names) (lexical.extend names) := by
  rcases h.shape with hshape | hnone
  · have hempty : noted.isEmpty = lexical.isEmpty := by
      rw [Bool.eq_iff_iff, List.isEmpty_iff, List.isEmpty_iff]
      exact hshape
    refine ⟨fun name hname => ?_, .inl ?_⟩
    · rw [has_extend, has_extend, h.has name hname, hempty]
    · rw [extend_eq_nil, extend_eq_nil]
      exact hshape
  · obtain ⟨rfl, rfl⟩ := append_eq_nil_iff.mp hnone
    rw [extend_nil, extend_nil]
    exact ⟨h.has, .inr rfl⟩

include h in
theorem extendLexical
    (hnames : ∀ name ∈ called, names.contains name = false) :
    Match called leaks noted (lexical.extend names) := by
  refine ⟨fun name hname => ?_, h.shape.imp_left fun hshape => hshape.trans extend_eq_nil.symm⟩
  rw [has_extend, hnames name hname, Bool.and_false, Bool.or_false, h.has name hname]

include h in
theorem scope (names leaks' : List String) :
    Match called leaks' (names :: noted) (names :: lexical) := by
  refine ⟨fun name hname => ?_, .inl (by simp)⟩
  have hrest := h.has name hname
  simp only [Scopes.has, any_cons] at hrest ⊢
  rw [hrest]

include h in
theorem block : Match called [] noted ([] :: lexical) := by
  refine ⟨fun name hname => ?_, .inr rfl⟩
  have hrest := h.has name hname
  exact hrest

end Match

end Scopes

/-! ## Both readings of a tidy form -/

namespace Script

variable {noted lexical calls : SExpr → List String}

variable (s : Script) (htidy : s.isTidy noted calls = true)
  (hnames : ∀ tree ∈ s.trees, lexical tree = noted tree)

include s htidy hnames

theorem lexicalNames_eq : s.lexicalNames lexical = s.notedNames noted := by
  induction s with
  | done => rfl
  | visit _ tree rest ih =>
    simp only [trees, forall_mem_cons] at hnames
    rw [lexicalNames, notedNames, hnames.1, ih htidy hnames.2]
  | bind _ rest ih | act _ rest ih => rw [lexicalNames, notedNames, ih htidy hnames]
  | unnoted names rest ih =>
    rw [isTidy, Bool.and_eq_true] at htidy
    rw [lexicalNames, notedNames, ih htidy.2 hnames]
  | scope names inner rest _ ih =>
    simp only [trees, List.forall_mem_append] at hnames
    rw [isTidy, Bool.and_eq_true] at htidy
    rw [lexicalNames, notedNames, ih htidy.2 hnames.2]
  | block inner rest _ ih =>
    simp only [trees, List.forall_mem_append] at hnames
    simp only [isTidy, Bool.and_eq_true, List.isEmpty_iff] at htidy
    rw [lexicalNames, notedNames, htidy.1.1, List.nil_append, ih htidy.2 hnames.2]

theorem sites_match {around target : Scopes}
    (h : Match (s.trees.flatMap calls) (s.notedNames noted) around target) :
    ∀ site ∈ s.sites noted lexical around target, site.tree ∈ s.trees ∧
      Match (calls site.tree) (noted site.tree) site.noted site.lexical := by
  -- the scopes of both readings change along the script, so both are generalized
  induction s generalizing around target with
  | done => nofun
  | visit _ tree rest ih =>
    simp only [trees, forall_mem_cons] at hnames
    simp only [sites, forall_mem_cons]
    refine ⟨⟨.head _, h.mono (fun name => mem_append_left _) fun hnone =>
      (append_eq_nil_iff.mp hnone).1⟩, fun site hsite => ?_⟩
    rw [hnames.1] at hsite
    have hrest : Match (rest.trees.flatMap calls) (rest.notedNames noted)
        (around.extend (noted tree)) (target.extend (noted tree)) :=
      h.extend.mono (fun name => mem_append_right _) id
    obtain ⟨htree, hmatch⟩ := ih htidy hnames.2 hrest site hsite
    exact ⟨.tail _ htree, hmatch⟩
  | bind names rest ih => exact ih htidy hnames h.extend
  | act _ rest ih => exact ih htidy hnames h
  | unnoted names rest ih =>
    rw [isTidy, Bool.and_eq_true] at htidy
    refine ih htidy.2 hnames (h.extendLexical fun name hname => ?_)
    obtain ⟨tree, htree, hcall⟩ := mem_flatMap.mp hname
    have hfree := all_eq_true.mp (all_eq_true.mp htidy.1 tree htree) name hcall
    simpa using hfree
  | scope names inner rest ihInner ihRest =>
    rw [isTidy, Bool.and_eq_true] at htidy
    simp only [trees, List.forall_mem_append] at hnames
    simp only [trees, notedNames, flatMap_append] at h
    simp only [sites, List.forall_mem_append]
    refine ⟨fun site hsite => ?_, fun site hsite => ?_⟩
    · have hinner : Match (inner.trees.flatMap calls) (inner.notedNames noted)
          (names :: around) (names :: target) :=
        (h.scope names _).mono (fun _ => mem_append_left _) id
      obtain ⟨htree, hmatch⟩ := ihInner htidy.1 hnames.1 hinner site hsite
      exact ⟨mem_append_left _ htree, hmatch⟩
    · have hrest : Match (rest.trees.flatMap calls) (rest.notedNames noted) around target :=
        h.mono (fun _ => mem_append_right _) id
      obtain ⟨htree, hmatch⟩ := ihRest htidy.2 hnames.2 hrest site hsite
      exact ⟨mem_append_right _ htree, hmatch⟩
  | block inner rest ihInner ihRest =>
    simp only [isTidy, Bool.and_eq_true, List.isEmpty_iff] at htidy
    obtain ⟨⟨hnone, htidyInner⟩, htidyRest⟩ := htidy
    simp only [trees, List.forall_mem_append] at hnames
    simp only [trees, notedNames, flatMap_append, hnone, List.nil_append] at h
    simp only [sites, hnone, extend_nil, List.forall_mem_append]
    refine ⟨fun site hsite => ?_, fun site hsite => ?_⟩
    · have hinner : Match (inner.trees.flatMap calls) (inner.notedNames noted) around
          ([] :: target) := h.block.mono (fun _ => mem_append_left _) fun _ => hnone
      obtain ⟨htree, hmatch⟩ := ihInner htidyInner hnames.1 hinner site hsite
      exact ⟨mem_append_left _ htree, hmatch⟩
    · have hrest : Match (rest.trees.flatMap calls) (rest.notedNames noted) around target :=
        h.mono (fun _ => mem_append_right _) id
      obtain ⟨htree, hmatch⟩ := ihRest htidyRest hnames.2 hrest site hsite
      exact ⟨mem_append_right _ htree, hmatch⟩

end Script

namespace SExpr

theorem lexicalWithin_eq (fuel : Nat) (htidy : tree.isTidyWithin fuel = true) :
    tree.lexicalWithin fuel = tree.notedWithin fuel := by
  induction fuel generalizing tree with
  | zero => rfl
  | succ fuel ih =>
    rw [isTidyWithin, Bool.and_eq_true] at htidy
    exact Script.lexicalNames_eq _ htidy.1 fun inner hinner => ih (all_eq_true.mp htidy.2 inner hinner)

theorem sitesWithin_agree (fuel : Nat) (htidy : tree.isTidyWithin fuel = true)
    {noted lexical : Scopes}
    (h : Match (tree.callsWithin fuel) (tree.notedWithin fuel) noted lexical) :
    ∀ site ∈ tree.sitesWithin fuel noted lexical, ∀ name, site.tree.callee? = some name →
      site.AgreesOn name := by
  induction fuel generalizing tree noted lexical with
  | zero =>
    intro site hsite name hname
    obtain rfl := mem_singleton.mp hsite
    exact h.has _ (by rw [callsWithin, hname]; exact mem_singleton.mpr rfl)
  | succ fuel ih =>
    intro site hsite name hname
    rw [isTidyWithin, Bool.and_eq_true] at htidy
    have htrees := all_eq_true.mp htidy.2
    rcases mem_cons.mp hsite with rfl | hinside
    -- the tree itself, and what is lowered with it
    · refine h.has _ ?_
      rw [callsWithin, hname]
      exact .head _
    · obtain ⟨start, hstart, hsite⟩ := mem_flatMap.mp hinside
      have hscript : Match (tree.script.trees.flatMap (callsWithin fuel))
          (tree.notedWithin (fuel + 1)) noted lexical := h.mono (fun name => mem_append_right _) id
      obtain ⟨htree, hmatch⟩ := Script.sites_match tree.script htidy.1
        (fun inner hinner => lexicalWithin_eq fuel (htrees inner hinner)) hscript start hstart
      exact ih (htrees _ htree) hmatch site hsite name hname

theorem sites_agree (htidy : tree.isTidy = true) :
    ∀ site ∈ tree.sites, ∀ name, site.tree.callee? = some name → site.AgreesOn name :=
  sitesWithin_agree tree.depth htidy ⟨fun _ _ => rfl, .inl Iff.rfl⟩

end SExpr

/-! ## Programs -/

/-- While the forms of a program are lowered from the state `c`, the tree is lowered in the state `e` as a
part of the form. -/
def ReachedIn (c : Context) (forms : List SExpr) (form tree : SExpr) (e : Context) : Prop :=
  ∃ before after program d, forms = before ++ form :: after ∧ lowerProgram before c = .ok program d ∧
    Reaches form.depth form d tree e

theorem lowerProgram_scopes {forms : List SExpr} {d : Context} {program : Program}
    (hc : c.scopes = []) (hrun : lowerProgram forms c = .ok program d) : d.scopes = [] := by
  obtain ⟨nodes, d', heach, hpure⟩ := bind_ok hrun
  obtain ⟨-, rfl⟩ := pure_ok hpure
  clear hrun hpure
  induction forms generalizing c nodes with
  | nil =>
    obtain ⟨-, rfl⟩ := pure_ok heach
    exact hc
  | cons form rest ih =>
    obtain ⟨node, between, hform, hrest⟩ := bind_ok heach
    obtain ⟨others, e, hothers, hend⟩ := bind_ok hrest
    obtain ⟨-, rfl⟩ := pure_ok hend
    obtain ⟨result, e, hlower, hnode⟩ := bind_ok hform
    obtain ⟨-, rfl⟩ := pure_ok hnode
    refine ih ?_ others hothers
    rw [(lowerWithin_notes form.depth).scopes hlower, hc]
    rfl

/-- Every call of a program stands at a site of its form, and it is resolved by the scopes of which note is
taken there. This is what the scopes of the target say if and only if both agree on the name of the call,
or no function has the name. They agree if the form is tidy. -/
theorem call_resolution (c e : Context) (forms : List SExpr) (form call : SExpr) (name : String)
    (hc : c.scopes = []) (hcall : call.callee? = some name) (hreached : ReachedIn c forms form call e) :
    (∃ site ∈ form.sites, site.tree = call ∧ site.noted = e.scopes) ∧
    ∀ site ∈ form.sites, site.tree = call → site.noted = e.scopes →
      declaredFunction? name e = .ok (e.registry.resolve site.noted name) e ∧
      (declaredFunction? name e = .ok (e.registry.resolve site.lexical name) e ↔
        site.AgreesOn name ∨ e.registry.resolve [] name = none) ∧
      (form.isTidy = true → site.AgreesOn name) := by
  obtain ⟨before, after, program, d, -, hrun, hreaches⟩ := hreached
  -- the form starts with no scope open, in both readings
  obtain ⟨names, hsite⟩ := hreaches.site []
  rw [lowerProgram_scopes hc hrun] at hsite
  refine ⟨⟨_, hsite, rfl, rfl⟩, fun site hmem htree hnoted => ⟨?_, ?_, fun htidy => ?_⟩⟩
  · rw [declaredFunction?_eq, hnoted]
  · rw [declaredFunction?_eq, EStateM.Result.ok.injEq, ← hnoted]
    simp only [and_true]
    exact e.registry.resolve_eq_iff _ _ _
  · exact SExpr.sites_agree htidy site hmem name (htree ▸ hcall)

/-! ## A parameter that hides a function -/

section Failing

variable {α β : Type} {m : Lower α} {k : α → Lower β} {c d : Context} {e : Diagnostic}

theorem bind_of_ok {a : α} (h : m c = .ok a d) : (m >>= k) c = k a d := by
  simp only [bind, EStateM.bind, h]

theorem bind_of_error (h : m c = .error e d) : (m >>= k) c = .error e d := by
  simp only [bind, EStateM.bind, h]

theorem within_of_error {enter : Context → Context} {leave : Context → Context → Context}
    {result : Context → α → β} {after : Context} (h : m (enter c) = .error e d)
    (hleave : leave c d = after) : Lower.within enter leave result m c = .error e after := by
  simp only [Lower.within, h, hleave]

end Failing

/-- `(f)`. -/
def emptyCall : SExpr := .list [.symbol "f" none] none

/-- `(fn f (vector x) x)`. -/
def unaryFunction : SExpr :=
  .list [.symbol "fn" none, .symbol "f" none, .list [.symbol "vector" none, .symbol "x" none] none,
    .symbol "x" none] none

/-- `(=> (vector f) (f))`. -/
def callingArrow : SExpr :=
  .list [.symbol "=>" none, .list [.symbol "vector" none, .symbol "f" none] none, emptyCall] none

/-- The state in which the body of the arrow function is lowered. -/
def Context.inCallingArrow (c : Context) : Context :=
  { c with
    wrapperDepth := 0, functionDepth := c.functionDepth + 1, earlyReturn := false, loops := []
    suspension := {}, scopes := ["f"] :: c.scopes }

theorem lowerList_callingArrow (lower : Lowerer)
    (h : lower emptyCall c.inCallingArrow = .error e c.inCallingArrow) :
    ∃ e' d, lowerList lower callingArrow.children none c = .error e' d := by
  have hbody : lowerReturningBody lower [emptyCall] c.inCallingArrow = .error e c.inCallingArrow :=
    bind_of_error (bind_of_error (bind_of_error h))
  have hscope : Lower.inScope ["f"] (lowerReturningBody lower [emptyCall])
      { c.inCallingArrow with scopes := c.scopes } = .error e { c.inCallingArrow with scopes := c.scopes } :=
    within_of_error hbody rfl
  have hinside : Lower.inFunction (Lower.inScope ["f"] (lowerReturningBody lower [emptyCall])) c =
      .error e c := within_of_error hscope rfl
  have harrow : arrowOf lower ⟨callingArrow, "=>", callingArrow.children.tail⟩ false
      ⟨[⟨.identifier "f" none, none, none⟩], false⟩ [emptyCall] c = .error e c := by
    refine bind_of_error ?_
    rw [buildFunction_eq]
    exact (bind_of_ok rfl).trans (bind_of_error hinside)
  have hnamed : lowerNamed lower callingArrow "=>" none callingArrow.children.tail c = .error e c :=
    bind_of_error harrow
  refine ⟨e.inForm "=>" none, c, ?_⟩
  show inForm "=>" none (lowerNamed lower callingArrow "=>" none callingArrow.children.tail) c = _
  simp only [inForm, hnamed]

theorem reaches_callingArrow (c : Context) : Reaches 2 callingArrow c emptyCall c.inCallingArrow := by
  classical
  -- the other way of lowering refuses the call in the body, and only there
  let refused : Diagnostic := Fault.loopUnderflow.place none
  let other : Lowerer := fun t d =>
    if t = emptyCall ∧ d = c.inCallingArrow then .error refused d else lowerWithin 1 t d
  refine .inside ⟨other, fun t d hne => if_neg hne, ?_⟩ (.here 1 emptyCall _)
  obtain ⟨e, d, hother⟩ := lowerList_callingArrow other (if_pos ⟨rfl, rfl⟩)
  have hok : ∃ result d, lowerList (lowerWithin 1) callingArrow.children none c = .ok result d :=
    ⟨_, _, rfl⟩
  obtain ⟨result, d', hok⟩ := hok
  intro heq
  cases hother.symm.trans (heq.trans hok)

/-- The call in the body of the arrow function is no call of the declared function, which its parameter
hides. -/
theorem call_resolution_parameter :
    ∃ e, ReachedIn (Context.start "" {}) [unaryFunction, callingArrow] callingArrow emptyCall e ∧
      (e.registry.get? "f").isSome = true ∧ declaredFunction? "f" e = .ok none e ∧
      ∀ site ∈ callingArrow.sites, site.tree = emptyCall → site.noted = e.scopes → site.AgreesOn "f" := by
  have hreached : ReachedIn (Context.start "" {}) [unaryFunction, callingArrow] callingArrow emptyCall
      (Context.inCallingArrow _) :=
    ⟨[unaryFunction], [], _, _, rfl, rfl, reaches_callingArrow _⟩
  refine ⟨_, hreached, rfl, rfl, fun site hsite htree hnoted => ?_⟩
  exact ((call_resolution _ _ _ _ _ "f" rfl rfl hreached).2 site hsite htree hnoted).2.2 rfl

/-! ## Where the readings differ -/

/-- `(fn h (vector) (try (let name g) (catch e e)) (f))`. -/
def callBehindTry (name : String) : SExpr :=
  .list [.symbol "fn" none, .symbol "h" none, .list [.symbol "vector" none] none,
    .list [.symbol "try" none, .list [.symbol "let" none, .symbol name none, .symbol "g" none] none,
      .list [.symbol "catch" none, .symbol "e" none, .symbol "e" none] none] none,
    emptyCall] none

/-- `(fn h (vector f b = (f)) b)`. -/
def callInDefault : SExpr :=
  .list [.symbol "fn" none, .symbol "h" none,
    .list [.symbol "vector" none, .symbol "f" none, .symbol "b" none, .symbol "=" none, emptyCall] none,
    .symbol "b" none] none

/-- The forms can be lowered as a program. -/
def lowersAsProgram (forms : List SExpr) : Bool :=
  match lowerProgram forms (Context.start "" {}) with
  | .ok _ _ => true
  | .error _ _ => false

/-- A name that is bound in the body of a `try` statement hides a function behind the statement, where it
is not in scope: that the call lacks an argument is noticed only if another name is bound. And a parameter
does not hide a function in the default behind it, where it is in scope: the call is refused. -/
theorem resolution_not_lexical : (lowersAsProgram [unaryFunction, callBehindTry "f"] = true ∧
      lowersAsProgram [unaryFunction, callBehindTry "k"] = false ∧
      ∃ site ∈ (callBehindTry "f").sites, site.tree = emptyCall ∧ site.noted.has "f" = true ∧
        site.lexical.has "f" = false) ∧ lowersAsProgram [unaryFunction, callInDefault] = false ∧
      ∃ site ∈ callInDefault.sites, site.tree = emptyCall ∧ site.noted.has "f" = false ∧
        site.lexical.has "f" = true := by
  refine ⟨⟨by decide +kernel, by decide +kernel, ?_⟩, by decide +kernel, ?_⟩
  · exact ⟨⟨emptyCall, [["f"]], [[]]⟩, mem_of_getElem? (i := 5) rfl, rfl, rfl, rfl⟩
  · exact ⟨⟨emptyCall, [], [[], ["f"]]⟩, mem_of_getElem? (i := 1) rfl, rfl, rfl, rfl⟩

end LispLowering
