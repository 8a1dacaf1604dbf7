import LispLowering.Proofs.Chains
import LispLowering.Proofs.Recur.Forms

/-!
# Targets of assignments
-/

namespace LispLowering

open Lowering Node SExpr

variable {items : List SExpr}

/-! ## Accesses -/

/-- An optional access is met on the way from a node through the objects that are accessed. -/
def Node.optionalSpine : Node → Bool
  | ⟨.member object _ _, _⟩ => object.optionalSpine
  | ⟨.optionalMember _ _ _ _, _⟩ => true
  | _ => false

/-- The symbol is a chain in which a name stands after `?.`. -/
def Symbol.HasOptional (name : String) : Prop :=
  isChain name = true ∧ Text.stripStart? "js/" name = none ∧ keyword? name = none ∧
    ∃ root segments, chain? name = some (root :: segments) ∧
      ∃ segment ∈ segments, segment.optional = true ∧ segment.isIndex = false

/-- The part of a form that is accessed, or that the form stands for. -/
def SpecialForm.inner? : SpecialForm → List SExpr → Option SExpr
  | .get, [object, _] | .propertyGet, [object, _] => some object
  | .sequence, [tree] => some tree
  | .cond, args => headed? isElse args
  | .quasiquote, args => unquoted? args
  | .operator op, args => only? op args
  | _, _ => none

def SExpr.inner? : SExpr → Option SExpr
  | .list (.symbol name _ :: args) _ =>
    match HeadMeaning.ofName name with
    | .special special => special.inner? args
    | _ => none
  | _ => none

/-- The tree has an optional access at the root of its accesses. -/
inductive SExpr.OptionalChain : SExpr → Prop where
  | symbol {name : String} {p : Option Position} (h : Symbol.HasOptional name) : OptionalChain (.symbol name p)
  | inner {t u : SExpr} (hinner : t.inner? = some u) (h : OptionalChain u) : OptionalChain t

theorem SExpr.optionalChain_symbol {name : String} :
    (SExpr.symbol name p).OptionalChain ↔ Symbol.HasOptional name := by
  refine ⟨fun h => ?_, .symbol⟩
  cases h with
  | symbol h => exact h
  | inner hinner => cases hinner

theorem SExpr.optionalChain_list :
    (SExpr.list items p).OptionalChain ↔ ∃ u ∈ (SExpr.list items p).inner?, u.OptionalChain := by
  constructor
  · intro h
    cases h with
    | inner hinner h => exact ⟨_, hinner, h⟩
  · rintro ⟨u, hinner, h⟩
    exact .inner hinner h

/-- The node is no statement around an expression, and whether an optional access is met in it is known. -/
structure Node.Carries (optional : Prop) (node : Node) : Prop where
  plain : ∀ expression, node.kind ≠ .expressionStatement expression
  spine : node.optionalSpine = true ↔ optional

namespace Node.Carries

variable {optional : Prop} {node : Node}

theorem root (hroot : node.kind.isRoot = true) (h : ¬optional) : node.Carries optional := by
  obtain ⟨kind, p⟩ := node
  cases kind with
  | member | optionalMember | expressionStatement => cases hroot
  | _ => exact ⟨fun _ => NodeKind.noConfusion, by simpa [optionalSpine] using h⟩

theorem access (h : node.Carries optional) (property : Node) (computed : Bool) (p : Option Position) :
    Carries optional ⟨.member node property computed, p⟩ :=
  ⟨fun _ => NodeKind.noConfusion, by rw [optionalSpine, h.spine]⟩

theorem orPlace (h : node.Carries optional) (p : Option Position) : (node.orPlace p).Carries optional := by
  obtain ⟨kind, q⟩ := node
  refine ⟨h.plain, ?_⟩
  rw [← h.spine]
  cases kind <;> rfl

theorem asExpression (h : node.Carries optional) (suspension : Suspension) :
    (node.asExpression suspension).Carries optional := by
  obtain ⟨kind, p⟩ := node
  cases kind with
  | expressionStatement expression => exact absurd rfl (h.plain expression)
  | functionDeclaration f => exact root rfl (by simp [← h.spine, optionalSpine])
  | _ => first | exact h | exact root (Settled.wrapped _ suspension p).root (by simp [← h.spine, optionalSpine])

end Node.Carries

namespace Lowering

variable {lower : Lowerer} {form : Form} {special : SpecialForm} {t : SExpr}

/-- How a tree is lowered: whether its node has an optional access can be told from the tree. -/
def Carried (lower : Lowerer) (t : SExpr) : Prop :=
  Ensures (lower t) fun result => (result.getD (null.place t.position)).Carries t.OptionalChain

theorem lowerBranch_carries (h : Carried lower t) : Ensures (lowerBranch lower t) (Carries t.OptionalChain) :=
  .bind h fun _ hresult => .pure hresult

theorem carries_valueOf {result : Option Node} {optional : Prop}
    (h : (result.getD (null.place p)).Carries optional) (suspension : Suspension) :
    (valueOf p suspension result).Carries optional := by
  cases result with
  | none => exact h
  | some node => exact h.asExpression suspension

theorem lowerValue_carries (h : Carried lower t) : Ensures (lowerValue lower t) (Carries t.OptionalChain) := by
  have hatom (hitems : t.items? = none) : Ensures (lowerValue lower t) (Carries t.OptionalChain) := by
    rw [lowerValue_atom hitems]
    exact .bind h fun _ hresult => .pure (carries_valueOf hresult {})
  cases t with
  | symbol | literal => exact hatom rfl
  | list items p =>
    rw [lowerValue_list]
    refine .bind (U := fun result => (result.1.getD (null.place p)).Carries (SExpr.list items p).OptionalChain)
      (fun c _ d hrun => ?_) fun _ hresult => .pure (carries_valueOf hresult _)
    obtain ⟨tracked, e, htracked, rfl, -⟩ := within_ok hrun
    obtain ⟨lowered, e, hlowered, rfl, -⟩ := within_ok htracked
    exact h _ _ _ hlowered

/-! ## Symbols -/

variable {name : String} {p : Option Position} {node : Node}

theorem optionalSpine_foldl (segments : List Symbol.Segment) (object : Node) :
    (segments.foldl (accessSegment p) object).optionalSpine =
      (object.optionalSpine || segments.any fun segment => segment.optional && !segment.isIndex) := by
  induction segments generalizing object with
  | nil => simp
  | cons segment rest ih =>
    have hfirst : (accessSegment p object segment).optionalSpine =
        (object.optionalSpine || (segment.optional && !segment.isIndex)) := by
      unfold accessSegment Symbol.Segment.isIndex
      split
      · next hindex => simp [index, of, Node.place, Node.optionalSpine, hindex]
      · next hindex =>
        split <;> simp_all [member, of, Node.place, Node.optionalSpine]
    rw [List.foldl_cons, ih, hfirst, List.any_cons, Bool.or_assoc]

theorem optionalSpine_foreignReference (h : foreignReference name p = .ok node) : node.optionalSpine = false := by
  have hfold (members : List String) (object : Node) :
      (members.foldl (fun object part => (member object part).place p) object).optionalSpine =
        object.optionalSpine := by
    induction members generalizing object with
    | nil => rfl
    | cons part rest ih => exact ih _
  unfold foreignReference at h
  split at h
  · split at h <;> cases h
    exact hfold _ _
  · cases h

theorem isChain_of_optionalSpine (h : reference name p = .ok node) (hspine : node.optionalSpine = true) :
    Symbol.isChain name = true ∧ Text.stripStart? "js/" name = none ∧ Symbol.keyword? name = none := by
  have hconstants : ∀ entry ∈ constants, (mk entry.2 p).optionalSpine = false := by
    simp [constants, Node.optionalSpine]
  unfold reference referenceChars at h
  split at h
  · split at h
    · cases h
      cases hspine
    · cases hrest : referenceChars p _ <;> rw [hrest] at h <;> cases h
      cases hspine
  · rw [String.ofList_toList] at h
    unfold plainReference at h
    split at h
    · next kind hkind =>
      cases h
      obtain ⟨_, _, hentry, -⟩ := List.lookup_eq_some_iff.mp hkind
      rw [hconstants (name, kind) (by simp [hentry])] at hspine
      cases hspine
    · split at h
      · rw [optionalSpine_foreignReference h] at hspine
        cases hspine
      · next hforeign =>
        split at h
        · cases h
          cases hspine
        · next hkeyword =>
          split at h
          · next hchain => exact ⟨hchain, hforeign, hkeyword⟩
          · cases h
            cases hspine

theorem reference_carries (h : reference name p = .ok node) : node.Carries (Symbol.HasOptional name) := by
  have hplain : ∀ expression, node.kind ≠ .expressionStatement expression := by
    cases reference_referred h <;> exact fun _ => NodeKind.noConfusion
  have hchain (hchain : Symbol.isChain name = true) (hforeign : Text.stripStart? "js/" name = none)
      (hkeyword : Symbol.keyword? name = none) : ∃ root segments, Symbol.chain? name = some (root :: segments) ∧
        node.optionalSpine = segments.any fun segment => segment.optional && !segment.isIndex := by
    rw [reference_chain hchain hforeign hkeyword] at h
    unfold memberChain at h
    split at h
    · next root segments hsegments =>
      cases h
      have hroot : ((chainRoot root.name).place p).optionalSpine = false := by
        unfold chainRoot
        split <;> rfl
      exact ⟨root, segments, hsegments, by rw [optionalSpine_foldl, hroot, Bool.false_or]⟩
    · cases h
  refine ⟨hplain, fun hspine => ?_, ?_⟩
  · obtain ⟨hischain, hforeign, hkeyword⟩ := isChain_of_optionalSpine h hspine
    obtain ⟨root, segments, hsegments, hany⟩ := hchain hischain hforeign hkeyword
    refine ⟨hischain, hforeign, hkeyword, root, segments, hsegments, ?_⟩
    simpa [hspine] using hany
  · rintro ⟨hischain, hforeign, hkeyword, root, segments, hsegments, hoptional⟩
    obtain ⟨root', segments', hsegments', hany⟩ := hchain hischain hforeign hkeyword
    rw [hsegments] at hsegments'
    cases hsegments'
    rw [hany]
    simpa using hoptional

/-! ## Forms -/

theorem root_choose (test consequent : Node) (alternate : Option Node) :
    (choose test consequent alternate).kind.isRoot = true := by
  unfold choose
  split <;> rfl

theorem root_quoted (t : SExpr) : (quoted t).kind.isRoot = true := by
  cases t <;> rfl

theorem lowerCond_root (h : SpecialForm.cond.inner? form.args = none) :
    Ensures (lowerCond lower form) fun node => node.kind.isRoot = true := by
  obtain ⟨tree, name, args⟩ := form
  refine .bind (U := fun clauses => ((chooseClause clauses).getD undefined).kind.isRoot = true) ?_
    fun _ hclauses => .pure hclauses
  cases args with
  | nil => exact .pure rfl
  | cons clause rest =>
    unfold lowerCondClauses
    split
    · next test first more q =>
      split
      · next helse =>
        split
        · exact .refuse _
        · next hlast =>
          obtain rfl : rest = [] := by simpa using hlast
          cases more with
          | nil => simp [SpecialForm.inner?, headed?, items?, helse] at h
          | cons second more =>
            exact .bind (U := fun value => value.kind.isRoot = true) (.after fun _ => .pure rfl)
              fun _ hvalue => .pure hvalue
      · exact .after fun _ => .after fun _ => .after fun _ => .pure (root_choose _ _ _)
    · exact .refuse _

theorem lowerSpecial_root (h : special.inner? form.args = none) :
    Ensures (lowerSpecial lower form special) fun node => node.kind.isRoot = true := by
  obtain ⟨tree, name, args⟩ := form
  have hsettled {m : Lower Node} {part : Option SExpr} (hm : SettledOr lower m part) (hpart : part = none) :
      Ensures m fun node => node.kind.isRoot = true := by
    subst hpart
    exact Ensures.imp hm fun _ => Settled.root
  cases special with
  | operator op => exact hsettled (lowerOperator_settledOr op) h
  | quasiquote => exact hsettled lowerQuasiquote_settledOr h
  | cond => exact lowerCond_root h
  | binding | branch | sequence | recur | returning | switching | label | loop | methodCall | getInvoke | quote
  | get | propertyGet =>
    simp only [lowerSpecial, lowerBinding, lowerDeclaration, lowerScopedBindings, lowerIf, lowerDo, lowerSequence,
      lowerRecur, lowerReturn, lowerReturnOf, lowerSwitch, lowerLabel, lowerLoop, lowerPropertyCall,
      lowerGetInvoke, lowerQuote, lowerGet, lowerPropertyGet]
    repeat' first
      | exact .refuse _
      | exact .pure rfl
      | exact .pure (root_choose _ _ _)
      | exact .pure (root_quoted _)
      | exact .pure (Settled.wrapped _ _ _).root
      -- the other ways access a part, or stand for it
      | exact absurd h (Option.some_ne_none _)
      | refine .ite ?_ ?_
      | refine .after fun _ => ?_
      | split
  | _ => exact (lowerSpecial_settled rfl).imp fun _ => Settled.root

theorem lowerSpecial_carries (hinner : special.inner? form.args = some t) (h : Carried lower t) :
    Ensures (lowerSpecial lower form special) (Carries t.OptionalChain) := by
  obtain ⟨tree, name, args⟩ := form
  have hvalue {m : Lower Node} {part : Option SExpr} (hm : SettledOr lower m part) (hpart : part = some t) :
      Ensures m (Carries t.OptionalChain) := by
    subst hpart
    rw [show m = lowerValue lower t from hm]
    exact lowerValue_carries h
  cases special with
  | operator op => exact hvalue (lowerOperator_settledOr op) hinner
  | quasiquote => exact hvalue lowerQuasiquote_settledOr hinner
  | cond =>
    obtain ⟨head, p, rfl, helse⟩ := headed?_eq_some hinner
    refine .bind (U := fun clauses => ((chooseClause clauses).getD undefined).Carries t.OptionalChain) ?_
      fun _ hclauses => .pure hclauses
    simp only [lowerCondClauses, helse]
    exact .bind (lowerBranch_carries h) fun _ hvalue => .pure hvalue
  | sequence =>
    rcases args with _ | ⟨first, _ | ⟨second, rest⟩⟩ <;> cases hinner
    exact lowerBranch_carries h
  | get =>
    rcases args with _ | ⟨object, _ | ⟨key, _ | ⟨_, _⟩⟩⟩ <;> cases hinner
    exact .bind (lowerValue_carries h) fun _ hobject => .after fun _ => .pure (hobject.access _ _ _)
  | propertyGet =>
    rcases args with _ | ⟨object, _ | ⟨key, _ | ⟨_, _⟩⟩⟩ <;> cases hinner
    refine .bind (lowerValue_carries h) fun _ hobject => .after fun _ => .pure ?_
    unfold propertyAccess
    split <;> exact hobject.access _ _ _
  | _ => cases hinner

/-! ## Trees -/

theorem lowerCallOf_root (tree : SExpr) (callee : Node) (args : List SExpr) :
    Ensures (lowerCallOf lower tree callee args) fun node => node.kind.isRoot = true := by
  unfold lowerCallOf
  split
  · exact .after fun _ => .pure rfl
  · exact .after fun _ => .pure rfl

theorem lowerNamedCall_root (tree : SExpr) (name : String) (head : Option Position) (args : List SExpr) :
    Ensures (lowerNamedCall lower tree name head args) fun node => node.kind.isRoot = true := by
  simp only [lowerNamedCall, lowerMethodCall]
  repeat' first
    | exact .refuse _
    | exact .pure rfl
    | exact lowerCallOf_root _ _ _
    | refine .after fun _ => ?_
    | split

theorem lowerList_carries (h : ∀ u ∈ (SExpr.list items p).inner?, Carried lower u) :
    Ensures (lowerList lower items p) fun result =>
      (result.getD (null.place p)).Carries (SExpr.list items p).OptionalChain := by
  have hnone {node : Node} (hinner : (SExpr.list items p).inner? = none) (hroot : node.kind.isRoot = true) :
      node.Carries (SExpr.list items p).OptionalChain :=
    .root hroot (by simp [optionalChain_list, hinner])
  rcases items with _ | ⟨⟨name, q⟩ | ⟨value, q⟩ | ⟨inner, q⟩, args⟩
  · exact .pure (hnone rfl rfl)
  · suffices hnamed : Ensures (lowerNamed lower (.list (.symbol name q :: args) p) name q args) fun result =>
        (result.getD (null.place p)).Carries (SExpr.list (.symbol name q :: args) p).OptionalChain by
      exact fun c result d hrun => hnamed c result d (inForm_ok hrun)
    unfold lowerNamed
    simp only [optionalChain_list, inner?] at h hnone ⊢
    generalize HeadMeaning.ofName name = meaning at h hnone ⊢
    cases meaning with
    | dropped => exact .pure (hnone rfl rfl)
    | called => exact .bind (lowerNamedCall_root _ _ _ _) fun _ hroot => .pure ((hnone rfl hroot).orPlace _)
    | special special =>
      cases hinner : special.inner? args with
      | none =>
        exact .bind (lowerSpecial_root hinner) fun _ hroot => .pure ((hnone hinner hroot).orPlace _)
      | some u =>
        refine .bind (lowerSpecial_carries hinner (h u hinner)) fun _ hcarries => .pure ?_
        simpa [hinner, SExpr.position] using hcarries.orPlace p
  · exact .refuse _
  · have happlied : Ensures (lowerApplied lower (.list (.list inner q :: args) p) (.list inner q) args) fun node =>
        node.kind.isRoot = true := .after fun _ => lowerCallOf_root _ _ _
    exact .bind happlied fun _ hroot => .pure (hnone rfl hroot)

theorem depth_specialInner? {args : List SExpr} (h : special.inner? args = some t) :
    t.depth ≤ depthItems args := by
  have hheaded {test : SExpr → Bool} (h : headed? test args = some t) : t.depth ≤ depthItems args := by
    obtain ⟨head, p, rfl, -⟩ := headed?_eq_some h
    simp only [depthItems, depth]
    omega
  unfold SpecialForm.inner? at h
  split at h
  · cases h
    exact depth_le_depthItems (.head _)
  · cases h
    exact depth_le_depthItems (.head _)
  · cases h
    exact depth_le_depthItems (.head _)
  · exact hheaded h
  · exact hheaded h
  · unfold only? at h
    split at h <;> cases h <;> exact depth_le_depthItems (.head _)
  · cases h

theorem depth_inner? {u : SExpr} (h : t.inner? = some u) : u.depth < t.depth := by
  unfold inner? at h
  split at h
  · split at h
    · have hle := depth_specialInner? h
      simp only [depth, depthItems]
      omega
    · cases h
  · cases h

theorem lower_carries (t : SExpr) : Carried Lowering.lower t := by
  induction hdepth : t.depth using Nat.strong_induction_on generalizing t with
  | _ n ih =>
    cases t with
    | symbol name p =>
      intro c result d hrun
      obtain ⟨node, hnode, rfl⟩ := map_ok hrun
      cases href : reference name p <;> rw [href] at hnode <;> cases hnode
      obtain ⟨hplain, hspine⟩ := reference_carries href
      exact ⟨hplain, hspine.trans optionalChain_symbol.symm⟩
    | literal value p =>
      refine .pure (.root rfl fun h => ?_)
      cases h with
      | inner hinner => cases hinner
    | list items p =>
      unfold Carried
      rw [lower_list]
      -- the part is lowered as a tree of its own, which is smaller
      exact lowerList_carries fun u hu => ih u.depth (hdepth ▸ depth_inner? hu) u rfl

/-! ## Assignments -/

theorem lowerTarget_root (tree : SExpr) : Ensures (lowerTarget lower tree) fun node => node.kind.isRoot = true := by
  have hkind (p : Option Position) (kind : PatternKind) :
      Ensures (Pattern.lowerKind (lowerValue lower) p kind) fun result =>
        result.all (fun node => node.kind.isRoot) = true := by
    cases kind with
    | skip | identifier => exact .pure rfl
    | array => exact .after fun _ => .pure rfl
    | object | rest => exact .after fun _ => .after fun _ => .pure rfl
  refine .after fun pattern => .bind (U := fun result => result.all (fun node => node.kind.isRoot) = true) ?_
    fun result hroot => ?_
  · obtain ⟨kind, default, p⟩ := pattern
    refine .bind (hkind p kind) fun result hroot => ?_
    cases result with
    | none => exact .pure rfl
    | some node =>
      cases default with
      | none => exact .pure hroot
      | some value => exact .after fun _ => .pure rfl
  · cases result with
    | none => exact .refuse _
    | some node => exact .pure hroot

theorem not_optionalChain_of_isDestructuring (h : isDestructuring t = true) : ¬t.OptionalChain := by
  have hmeaning : HeadMeaning.ofName "vector" = .special .vector ∧ HeadMeaning.ofName "hash-map" = .special .map ∧
      HeadMeaning.ofName "empty-array" = .special .emptyArray ∧
      HeadMeaning.ofName "empty-map" = .special .emptyMap := by
    decide
  have hinner : t.inner? = none := by
    unfold inner?
    split
    · next name q args p =>
      have hname : name = "vector" ∨ name = "hash-map" ∨ name = "empty-array" ∨ name = "empty-map" := by
        simpa [isDestructuring, isForm, head?] using h
      rcases hname with rfl | rfl | rfl | rfl <;> simp [hmeaning, SpecialForm.inner?]
    · rfl
  intro hchain
  cases hchain with
  | symbol => simp [isDestructuring, isForm, head?] at h
  | inner hsome => simp [hinner] at hsome

theorem lowerAssignment_spine : Ensures (lowerAssignment Lowering.lower form) fun node =>
    ∃ target value left right, form.args = [target, value] ∧ node = .assign left right ∧
      isAssignable left = true ∧ (left.optionalSpine = true ↔ target.OptionalChain) := by
  unfold lowerAssignment
  split
  · next target value hargs =>
    have hnext (left : Node) (hleft : left.Carries target.OptionalChain) :
        Ensures (if isAssignable left then do return assign left (← lowerValue Lowering.lower value)
          else form.refusePart target (.assignmentTarget target)) fun node =>
            ∃ target value left right, form.args = [target, value] ∧ node = .assign left right ∧
              isAssignable left = true ∧ (left.optionalSpine = true ↔ target.OptionalChain) := by
      split
      · next h => exact .after fun right => .pure ⟨target, value, left, right, hargs, rfl, h, hleft.spine⟩
      · exact .refuse _
    split
    · next hpattern =>
      refine .bind ((lowerTarget_root target).imp fun _ hroot => ?_) hnext
      exact .root hroot (not_optionalChain_of_isDestructuring hpattern)
    · exact .bind (lowerValue_carries (lower_carries target)) hnext
  · exact .refuse _

end Lowering

/-- An assignment has a name, an access or a pattern as its target, and the last access is never optional. One
further inside is kept: there is an optional access on the way to the root exactly where a symbol has one, with
forms around it that access it or stand for it. -/
theorem assignment_target_spine {head : String} {args : List SExpr} {p q : Option Position} {c d : Context}
    {lowered : Option Node} (hhead : head = "=" ∨ head = "set!")
    (h : Lowering.lower (.list (.symbol head q :: args) p) c = .ok lowered d) :
    ∃ target value left right, args = [target, value] ∧ lowered = some ((assign left right).orPlace p) ∧
      isAssignable left = true ∧ (left.optionalSpine = true ↔ target.OptionalChain) := by
  have hmeaning : HeadMeaning.ofName head = .special .assignment := by
    rcases hhead with rfl | rfl <;> decide
  rw [lower_list] at h
  have hnamed := inForm_ok h
  simp only [lowerNamed, hmeaning] at hnamed
  obtain ⟨node, hnode, rfl⟩ := map_ok hnamed
  obtain ⟨target, value, left, right, hargs, rfl, hassignable, hspine⟩ := lowerAssignment_spine _ _ _ hnode
  exact ⟨target, value, left, right, hargs, rfl, hassignable, hspine⟩

/-- A form accesses what a symbol accesses if it is there. -/
theorem assignment_target_spine_get :
    Lowering.lower (.list [.symbol "set!" none, .list [.symbol "get" none, .symbol "a?.b" none,
        .symbol "k" none] none, .literal .null none] none) (.start "" {}) =
      .ok (some (.assign (.index ⟨.optionalMember (.ident "a") (.ident "b") false true, none⟩ (.ident "k")) .null))
        (.start "" {}) ∧
    (SExpr.list [.symbol "get" none, .symbol "a?.b" none, .symbol "k" none] none).OptionalChain := by
  refine ⟨rfl, ?_⟩
  obtain ⟨target, value, left, right, hargs, hlowered, -, hspine⟩ :=
    assignment_target_spine (p := none) (q := none) (.inr rfl) (rfl : Lowering.lower (.list [.symbol "set!" none,
      .list [.symbol "get" none, .symbol "a?.b" none, .symbol "k" none] none, .literal .null none] none)
        (.start "" {}) = _)
  cases hargs
  cases hlowered
  exact hspine.mp rfl

/-- An optional access that is not the last is assigned through. -/
theorem optional_access_assigned :
    ∃ left, left.optionalSpine = true ∧ Lowering.lower (.list [.symbol "=" none, .symbol "a?.b.c" none,
      .literal .null none] none) (.start "" {}) = .ok (some (.assign left .null)) (.start "" {}) :=
  ⟨.member ⟨.optionalMember (.ident "a") (.ident "b") false true, none⟩ "c", rfl, rfl⟩

end LispLowering
