import LispLowering.Proofs.Provenance.Names
import LispLowering.Proofs.Provenance.Sites

/-!
# Watching a node
-/

namespace LispLowering

open Lowering List

variable {ascribed : Option TypeExpr} {values : List Node}

/-! ## Gaps -/

/-- The nodes that lowering leaves without a position. -/
inductive Gap where
  /-- The block of a `try` statement, of its handler or of a label. -/
  | block
  /-- The statement that leaves a `switch` at the end of a clause. -/
  | exit
  /-- The value of a branch that is not there. -/
  | fallback
  /-- A choice that is the last branch of another one. -/
  | choice
  /-- The class and the elements of a new set. -/
  | set
  /-- A name that is imported or exported. -/
  | specifier
  /-- The object that stands in for a missing parameter map. -/
  | noArguments
  /-- A parameter that is not written. -/
  | implicit
  deriving DecidableEq

/-- The shapes of a gap. -/
def Gap.covers : Gap → NodeKind → Bool
  | .block, .block _ => true
  | .exit, .breakStatement none => true
  | .fallback, .identifier name none => name = "undefined"
  | .choice, .conditional _ _ _ => true
  | .choice, .ifStatement _ _ _ => true
  | .set, .identifier name none => name = "Set"
  | .set, .array _ => true
  | .specifier, .importSpecifier _ _ => true
  | .specifier, .exportSpecifier _ _ => true
  | .noArguments, .object [] => true
  | .implicit, .identifier name none => name.toList.head? = some '$'
  | _, _ => false

/-- The value of a statement that takes its position from it. -/
def NodeKind.stated? : NodeKind → Option Node
  | .expressionStatement value => some value
  | .returnStatement value => value
  | _ => none

def Gap.all : List Gap := [.block, .exit, .fallback, .choice, .set, .specifier, .noArguments, .implicit]

/-- A node of this shape can be without a position. -/
def NodeKind.mayBeLost (kind : NodeKind) : Bool := Gap.all.any (·.covers kind) || kind.stated?.isSome

/-- A node of this shape has neither a name nor a label. -/
def NodeKind.isPlain (kind : NodeKind) : Bool := kind.name?.isNone && kind.labels.isEmpty

/-- A node of this shape has neither a name nor a label, and it is no statement around a value. -/
def NodeKind.isBare (kind : NodeKind) : Bool :=
  kind.isPlain && match kind with
    | .expressionStatement _ => false
    | _ => true

theorem NodeKind.isPlain_of_isBare {kind : NodeKind} (h : kind.isBare = true) : kind.isPlain = true :=
  (Bool.and_eq_true_iff.mp h).1

theorem NodeKind.plain_of_isBare {kind : NodeKind} (h : kind.isBare = true) (value : Node) :
    kind ≠ .expressionStatement value := by
  rintro rfl
  cases h

/-! ## Watches -/

/-- The names that lowering uses without a symbol for them: for missing values, for sets, for what is
caught, and for parameters that are skipped or not written. -/
def IsOwnName (name : String) : Prop :=
  name = "undefined" ∨ name = "Set" ∨ name = caughtName ∨
    (∃ index, name = "__unused_" ++ Text.decimal index) ∨
    ∃ index, name = Symbol.identifier ("$" ++ Text.decimal index)

theorem head?_implicit (index : Nat) :
    (Symbol.identifier ("$" ++ Text.decimal index)).toList.head? = some '$' := by
  have hdollar : Symbol.spell '$' = ['$'] := by decide
  have hhead : (Symbol.property ("$" ++ Text.decimal index)).toList.head? = some '$' := by
    simp [Symbol.property, hdollar]
  have hdigit : Symbol.startsWithDigit (Symbol.property ("$" ++ Text.decimal index)) = false := by
    simp [Symbol.startsWithDigit, Symbol.property, hdollar]
  have hreserved : Symbol.isReserved (Symbol.property ("$" ++ Text.decimal index)) = false := by
    have hwords : ∀ word ∈ Symbol.reserved, word.toList.head? ≠ some '$' := by decide
    rw [Symbol.isReserved, contains_eq_mem, decide_eq_false_iff_not]
    exact fun hmem => hwords _ hmem hhead
  rw [Symbol.identifier, hdigit, hreserved]
  exact hhead

variable {name : String}

theorem not_isOwnName (h : name.toList.head? ∉ [some 'u', some 'S', some '$', some '_']) :
    ¬IsOwnName name := by
  intro hown
  apply h
  rcases hown with hname | hname | hname | ⟨index, hname⟩ | ⟨index, hname⟩
  · simp [hname]
  · simp [hname]
  · simp [hname, caughtName]
  · simp [hname]
  · rw [hname]
    simp [head?_implicit index]

/-- What to watch in a node: names that must not occur, sites that all positions are taken from, and gaps
that may occur. If it is free, positions may be missing anywhere. Of what is remembered, it watches the
defaults that are found, or if it is strict all that are kept. -/
structure Watch where
  names : List String
  sites : Position → Prop
  free : Prop
  gaps : Gap → Prop
  trees : SExpr → Prop
  strict : Prop
  /-- What is inside of arrow functions with parameters is not watched. -/
  shut : Bool
  /-- The names that lowering uses itself are not watched, except for those of parameters that are not
  written, if their functions are shut. -/
  foreign : ∀ name ∈ names, IsOwnName name → shut = true ∧ name.toList.head? = some '$'

namespace Watch

variable (w : Watch)

/-- The position is a site, if it is there. -/
def Sited (p : Option Position) : Prop := ∀ q ∈ p, w.sites q

/-- The position is a site, and it is there or may be missing. -/
def Known (p : Option Position) : Prop := w.Sited p ∧ (w.free ∨ p.isSome = true)

def Spares (kind : NodeKind) : Prop := ∀ name ∈ w.names, kind.Spares name

/-- The node has a position, or it may be without one. -/
def Placed (node : Node) : Prop :=
  w.Known node.position ∨ node.position = none ∧ ((∃ gap, w.gaps gap ∧ gap.covers node.kind = true) ∨
    ∃ value, node.kind.stated? = some value ∧ value.position = none)

/-- What is asked of a single node. -/
structure Allows (node : Node) : Prop where
  spares : w.Spares node.kind
  placed : w.Placed node
  labels : ∀ q ∈ node.kind.labels, w.sites q

variable {w} {p q : Option Position} {kind : NodeKind}

theorem sited_none : w.Sited none := nofun

theorem Known.or (h : w.Known p) (hq : w.Sited q) : w.Known (q.or p) := by
  cases q with
  | none => exact h
  | some q => exact ⟨hq, .inr rfl⟩

theorem Known.or_left (h : w.Known q) (hp : w.Sited p) : w.Known (q.or p) := by
  cases q with
  | none => exact ⟨hp, h.2.imp_right nofun⟩
  | some q => exact h

theorem Sited.known_or_none (h : w.Sited p) : w.Known p ∨ p = none := by
  cases p with
  | none => exact .inr rfl
  | some p => exact .inl ⟨h, .inr rfl⟩

theorem spares (h : kind.name? = none) : w.Spares kind := fun _ _ => by
  rw [NodeKind.spares_iff, h]
  nofun

theorem allows (hkind : kind.isPlain = true) (hp : w.Placed ⟨kind, p⟩) : w.Allows ⟨kind, p⟩ := by
  obtain ⟨hname, hlabels⟩ := Bool.and_eq_true_iff.mp hkind
  refine ⟨spares (Option.isNone_iff_eq_none.mp hname), hp, ?_⟩
  rw [isEmpty_iff.mp hlabels]
  exact by simp

theorem spares_identifier (h : name ∉ w.names) : w.Spares (.identifier name ascribed) :=
  fun _ hname heq => h (heq ▸ hname)

theorem not_own (h : IsOwnName name) (hhead : name.toList.head? ≠ some '$') : name ∉ w.names :=
  fun hname => hhead (w.foreign name hname h).2

theorem not_implicit (hshut : w.shut = false) (index : Nat) :
    Symbol.identifier ("$" ++ Text.decimal index) ∉ w.names := by
  intro hname
  have hown := w.foreign _ hname (.inr (.inr (.inr (.inr ⟨index, rfl⟩))))
  exact Bool.false_ne_true (hshut.symm.trans hown.1)

theorem Placed.known (h : w.Placed ⟨kind, p⟩) (hkind : kind.mayBeLost = false) : w.Known p := by
  simp only [NodeKind.mayBeLost, Bool.or_eq_false_iff, any_eq_false] at hkind
  rcases h with h | ⟨-, ⟨gap, -, hcovers⟩ | ⟨value, hvalue, -⟩⟩
  · exact h
  · have hgap : gap ∈ Gap.all := by cases gap <;> decide
    exact absurd hcovers (hkind.1 gap hgap)
  · have hstated : kind.stated? = some value := hvalue
    simp [hstated] at hkind

theorem Placed.sited {node : Node} (h : w.Placed node) : w.Sited node.position := by
  rcases h with h | ⟨hnone, -⟩
  · exact h.1
  · rw [hnone]
    exact sited_none

theorem Placed.block {body body' : List Node} (h : w.Placed ⟨.block body, p⟩) :
    w.Placed ⟨.block body', p⟩ := by
  rcases h with h | ⟨hnone, ⟨gap, hgap, hcovers⟩ | ⟨value, hvalue, -⟩⟩
  · exact .inl h
  · cases gap with
    | block => exact .inr ⟨hnone, .inl ⟨.block, hgap, rfl⟩⟩
    | _ => cases hcovers
  · cases hvalue

theorem Placed.choice {test test' consequent consequent' : Node} {alternate alternate' : Option Node}
    (h : w.Placed ⟨.ifStatement test consequent alternate, p⟩) :
    w.Placed ⟨.ifStatement test' consequent' alternate', p⟩ := by
  rcases h with h | ⟨hnone, ⟨gap, hgap, hcovers⟩ | ⟨value, hvalue, -⟩⟩
  · exact .inl h
  · cases gap with
    | choice => exact .inr ⟨hnone, .inl ⟨.choice, hgap, rfl⟩⟩
    | _ => cases hcovers
  · cases hvalue

theorem Placed.branch {test test' consequent consequent' alternate : Node} {alternate' : Option Node}
    (h : w.Placed ⟨.conditional test consequent alternate, q⟩) (hp : w.Sited p) :
    w.Placed ⟨.ifStatement test' consequent' alternate', q.or p⟩ := by
  rcases h with h | ⟨rfl, ⟨gap, hgap, hcovers⟩ | ⟨value, hvalue, -⟩⟩
  · exact .inl (h.or_left hp)
  · cases gap with
    | choice => exact hp.known_or_none.imp_right fun hnone => ⟨hnone, .inl ⟨.choice, hgap, rfl⟩⟩
    | _ => cases hcovers
  · cases hvalue

theorem placed_return {value : Node} (h : w.Sited value.position) :
    w.Placed ⟨.returnStatement (some value), value.position⟩ :=
  h.known_or_none.imp_right fun hnone => ⟨hnone, .inr ⟨value, rfl, hnone⟩⟩

theorem placed_statementOf {value : Node} (h : w.Sited value.position) :
    w.Placed (Node.statementOf value) :=
  h.known_or_none.imp_right fun hnone => ⟨hnone, .inr ⟨value, rfl, hnone⟩⟩

end Watch

/-! ## Nodes -/

namespace Node

variable {w : Watch} {node : Node} {nodes : List Node} {kind : NodeKind} {p : Option Position}

abbrev Allowed (w : Watch) (node : Node) : Prop := node.Every w.shut w.Allows

abbrev AllowedIn (w : Watch) (nodes : List Node) : Prop := EveryIn w.shut w.Allows nodes

abbrev AllowedOption (w : Watch) (node : Option Node) : Prop := EveryOption w.shut w.Allows node

/-- The watch allows the node at its position, and it is no statement around a value. -/
structure Anchored (w : Watch) (node : Node) : Prop where
  allowed : node.Allowed w
  known : w.Known node.position
  plain : ∀ value, node.kind ≠ .expressionStatement value

/-- The watch allows everything in the node, and the node too as soon as it has a position. -/
structure Pending (w : Watch) (node : Node) : Prop where
  spares : w.Spares node.kind
  inner : node.kind.fold w.shut True And w.Allows
  plain : ∀ value, node.kind ≠ .expressionStatement value
  sited : w.Sited node.position
  labels : ∀ q ∈ node.kind.labels, w.sites q

theorem Allowed.sited (h : node.Allowed w) : w.Sited node.position := h.self.placed.sited

theorem allowed (hkind : kind.isPlain = true) (hp : w.Known p) (h : kind.fold w.shut True And w.Allows) :
    Allowed w ⟨kind, p⟩ :=
  ⟨Watch.allows hkind (.inl hp), h⟩

variable (hkind : kind.isBare = true) (hname : name ∉ w.names) (hp : w.Known p)
  (h : kind.fold w.shut True And w.Allows)

include hkind hp h in
theorem anchored : Anchored w ⟨kind, p⟩ :=
  ⟨allowed (kind.isPlain_of_isBare hkind) hp h, hp, kind.plain_of_isBare hkind⟩

include hkind h in
theorem pending : Pending w ⟨kind, none⟩ := by
  obtain ⟨hname, hlabels⟩ := Bool.and_eq_true_iff.mp (kind.isPlain_of_isBare hkind)
  refine ⟨Watch.spares (Option.isNone_iff_eq_none.mp hname), h, kind.plain_of_isBare hkind,
    Watch.sited_none, ?_⟩
  rw [isEmpty_iff.mp hlabels]
  exact by simp

theorem Anchored.pending (h : node.Anchored w) : node.Pending w := by
  obtain ⟨kind, p⟩ := node
  exact ⟨h.allowed.1.spares, h.allowed.2, h.plain, h.known.1, h.allowed.1.labels⟩

include hkind hp h in
theorem pending_at : Pending w ⟨kind, p⟩ :=
  (anchored hkind hp h).pending

theorem Pending.place (h : node.Pending w) (hp : w.Known p) : (node.place p).Anchored w := by
  exact ⟨⟨⟨h.spares, .inl hp, h.labels⟩, h.inner⟩, hp, h.plain⟩

theorem Pending.orPlace (h : node.Pending w) (hp : w.Known p) : (node.orPlace p).Anchored w := by
  exact ⟨⟨⟨h.spares, .inl (hp.or h.sited), h.labels⟩, h.inner⟩, hp.or h.sited, h.plain⟩

theorem allowed_gap {gap : Gap} (hkind : kind.isPlain = true) (hcovers : gap.covers kind = true)
    (hgap : w.gaps gap) (h : kind.fold w.shut True And w.Allows) : Allowed w (of kind) :=
  ⟨Watch.allows hkind (.inr ⟨rfl, .inl ⟨gap, hgap, hcovers⟩⟩), h⟩

include hname in
theorem allowed_typedIdent
    (hp : w.Placed ⟨.identifier name ascribed, p⟩) : Allowed w ⟨.identifier name ascribed, p⟩ :=
  ⟨⟨Watch.spares_identifier hname, hp, forall_mem_nil _⟩, trivial⟩

include hname hp in
theorem anchored_ident : ((ident name).place p).Anchored w :=
  ⟨allowed_typedIdent hname (.inl hp), hp, nofun⟩

include hname hp in
theorem allowed_ident : ((ident name).place p).Allowed w := (anchored_ident hname hp).allowed

include hname in
theorem pending_ident : (ident name).Pending w :=
  ⟨Watch.spares_identifier hname, trivial, nofun, Watch.sited_none, forall_mem_nil _⟩

theorem allowed_literal {value : Literal} (hp : w.Known p) : ((literal value).place p).Allowed w :=
  allowed rfl hp trivial

theorem AllowedIn.single (h : node.Allowed w) : AllowedIn w [node] := ⟨h, trivial⟩

theorem Allowed.asStatement (h : node.Allowed w) : node.asStatement.Allowed w := by
  unfold Node.asStatement
  split
  · exact h
  · exact ⟨Watch.allows rfl (Watch.placed_statementOf h.sited), h⟩

theorem Allowed.keyed (h : node.Allowed w) (hp : w.Known node.position) (key : String) :
    (Node.keyed key node).Anchored w := by
  have hlabels : ∀ q ∈ (Node.keyed key node).kind.labels, w.sites q := by
    intro q hq
    have hkey : ((if isPropertyName key then ident key else string key).place node.position).positions =
        node.position.toList := by
      split <;> exact append_nil _
    exact hp.1 q (Option.mem_toList.mp (hkey ▸ hq))
  exact ⟨⟨⟨Watch.spares rfl, .inl hp, hlabels⟩, h, trivial⟩, hp, nofun⟩

/-! ## Returning -/

theorem allowedIn_thenReturn {name : Option String} (h : node.Allowed w)
    (hp : w.Known node.position) (hname : ∀ x ∈ name, x ∉ w.names) :
    AllowedIn w (thenReturn node name) := by
  cases name with
  | none => exact .single h
  | some name => exact ⟨h, allowed rfl hp (allowed_ident (hname name rfl) hp), trivial⟩

theorem onlyVariable?_spared {declarations : List Node} (h : AllowedIn w declarations) :
    ∀ x ∈ onlyVariable? declarations, x ∉ w.names := by
  match declarations, h with
  | [⟨kind, p⟩], h =>
    cases kind with
    | variableDeclarator id init =>
      obtain ⟨kind, q⟩ := id
      cases kind with
      | identifier name ascribed =>
        rintro x ⟨⟩ hx
        exact h.1.2.1.1.spares _ hx rfl
      | _ => simp [onlyVariable?, Node.identifier?]
    | _ => simp [onlyVariable?]
  | [], _ | _ :: _ :: _, _ => simp [onlyVariable?]

theorem returning_single (h : w.Placed node) (hp : ¬w.Known node.position) :
    ∃ one, node.returning = [one] := by
  obtain ⟨kind, p⟩ := node
  cases kind with
  | functionDeclaration | classDeclaration | enumDeclaration | variableDeclaration =>
    exact absurd (h.known rfl) hp
  | _ => exact ⟨_, rfl⟩

theorem allowed_joined_returning (h : node.Allowed w) (hreturning : AllowedIn w node.returning) :
    (joined node.position node.returning).Allowed w := by
  have hplaced : w.Placed node := by
    obtain ⟨kind, p⟩ := node
    exact h.1.placed
  by_cases hp : w.Known node.position
  · unfold joined
    split
    · next heq =>
      rw [heq] at hreturning
      exact hreturning.1
    · exact allowed rfl hp hreturning
  · obtain ⟨one, hone⟩ := returning_single hplaced hp
    rw [hone] at hreturning ⊢
    exact hreturning.1

mutual

theorem Allowed.returning : (node : Node) → node.Allowed w → AllowedIn w node.returning
  | ⟨kind, p⟩, h => by
    cases kind with
    | block body => exact .single ⟨Watch.allows rfl h.1.placed.block, AllowedIn.returningAll body h.2⟩
    | ifStatement test consequent alternate =>
      exact .single ⟨Watch.allows rfl h.1.placed.choice, h.2.1,
        allowed_joined_returning h.2.2.1 (Allowed.returning consequent h.2.2.1),
        AllowedOption.returningOption alternate h.2.2.2⟩
    | tryStatement block handler finalizer =>
      exact .single (allowed rfl (h.1.placed.known rfl)
        ⟨allowed_joined_returning h.2.1 (Allowed.returning block h.2.1),
          AllowedOption.returningHandler handler h.2.2.1, h.2.2.2⟩)
    | expressionStatement expression =>
      refine .single ⟨Watch.allows rfl ?_, h.2⟩
      rcases h.1.placed with hp | ⟨hnone, ⟨gap, -, hcovers⟩ | hstated⟩
      · exact .inl hp
      · cases gap <;> cases hcovers
      · exact .inr ⟨hnone, .inr hstated⟩
    | functionDeclaration f =>
      exact allowedIn_thenReturn h (h.1.placed.known rfl) fun x hx hwatched => h.1.spares x hwatched hx
    | classDeclaration name parent body =>
      exact allowedIn_thenReturn h (h.1.placed.known rfl) fun x hx hwatched =>
        h.1.spares x hwatched (Option.some.inj hx)
    | enumDeclaration name rawType cases =>
      exact allowedIn_thenReturn h (h.1.placed.known rfl) fun x hx hwatched =>
        h.1.spares x hwatched (Option.some.inj hx)
    | variableDeclaration kind declarations =>
      exact allowedIn_thenReturn h (h.1.placed.known rfl) (onlyVariable?_spared h.2)
    | _ =>
      first
        | exact .single h
        | exact .single ⟨Watch.allows rfl (Watch.placed_return (Allowed.sited h)), h⟩

theorem AllowedIn.returningAll : (body : List Node) → AllowedIn w body → AllowedIn w (returningAll body)
  | [], _ => trivial
  | [last], h => Allowed.returning last h.1
  | _ :: next :: rest, h => ⟨h.1, AllowedIn.returningAll (next :: rest) h.2⟩

theorem AllowedOption.returningOption : (branch : Option Node) → AllowedOption w branch →
    AllowedOption w (returningOption branch)
  | none, _ => trivial
  | some branch, h => allowed_joined_returning h (Allowed.returning branch h)

theorem AllowedOption.returningHandler : (handler : Option Node) → AllowedOption w handler →
    AllowedOption w (returningHandler handler)
  | none, _ => trivial
  | some ⟨kind, p⟩, h => by
    cases kind with
    | catchClause param body =>
      exact allowed rfl (h.1.placed.known rfl)
        ⟨h.2.1, allowed_joined_returning h.2.2 (Allowed.returning body h.2.2)⟩
    | _ => exact h

end

/-! ## Values -/

theorem anchored_wrapped {body : List Node} (h : AllowedIn w body) (suspension : Suspension)
    (hp : w.Known p) : (wrapped body suspension p).Anchored w := by
  unfold wrapped
  split
  · exact anchored rfl hp (allowed rfl hp ⟨allowed rfl hp ⟨allowed rfl hp (every_function trivial h),
      trivial⟩, allowed rfl hp trivial, trivial⟩)
  · have hresult : Anchored w ⟨.call ⟨.function { Function.arrow [] body with
        isAsync := suspension.awaits }, p⟩ [] false, p⟩ :=
      anchored rfl hp ⟨allowed rfl hp (every_function trivial h), trivial⟩
    split
    · exact anchored rfl hp hresult.allowed
    · exact hresult

theorem Anchored.asExpression (h : node.Anchored w) (suspension : Suspension) :
    (node.asExpression suspension).Anchored w := by
  obtain ⟨hallowed, hp, hplain⟩ := h
  obtain ⟨kind, p⟩ := node
  cases kind with
  | expressionStatement expression => exact absurd rfl (hplain expression)
  | functionDeclaration f => exact anchored rfl hp hallowed.2
  | _ =>
    first
      | exact ⟨hallowed, hp, hplain⟩
      | exact anchored_wrapped (Allowed.returning _ hallowed) suspension hp

/-! ## Jumps -/

section Jumps

variable {label : String} {params : List Node}

theorem allowedIn_rebinding
    (hparams : ∀ param ∈ params, param.Allowed w ∧ w.Known param.position)
    (hvalues : AllowedIn w values) (hp : w.Known p) : AllowedIn w (rebinding params values p) := by
  have hassignable : AllowedIn w (params.map assignable) := by
    refine everyIn_iff.mpr fun _ htarget => ?_
    obtain ⟨param, hparam, rfl⟩ := mem_map.mp htarget
    obtain ⟨hallowed, hknown⟩ := hparams param hparam
    obtain ⟨kind, q⟩ := param
    cases kind with
    | identifier name ascribed => exact ⟨⟨hallowed.1.spares, .inl hknown, forall_mem_nil _⟩, trivial⟩
    | _ => exact hallowed
  have hslots : foldSlots w.shut True And w.Allows ((params.map assignable).map some) := by
    rwa [foldSlots_map_some]
  unfold rebinding
  split
  · trivial
  · next heq =>
    rw [heq] at hassignable
    exact AllowedIn.single (allowed rfl hp (allowed rfl hp ⟨hassignable.1, hvalues.1⟩))
  · exact AllowedIn.single
      (allowed rfl hp (allowed rfl hp ⟨allowed rfl hp hslots, allowed rfl hp hvalues⟩))

variable (hlabel : label ∉ w.names) (hparams : ∀ param ∈ params, param.Allowed w ∧ w.Known param.position)

include hlabel hparams

theorem allowed_jumpTo
    (hvalues : AllowedIn w values) (hp : w.Known p) : (jumpTo label params values p).Allowed w := by
  have hjump : Allowed w ⟨.continueStatement (some label), p⟩ :=
    ⟨⟨fun _ hname heq => hlabel (Option.some.inj heq ▸ hname), .inl hp, forall_mem_nil _⟩, trivial⟩
  exact allowed rfl hp (everyIn_append.mpr ⟨allowedIn_rebinding hparams hvalues hp, hjump, trivial⟩)

theorem allowed_returnOrJump : (value : Node) →
    (p : Option Position) → value.Allowed w → w.Placed ⟨.returnStatement (some value), p⟩ →
    (returnOrJump label params p value).Allowed w
  | ⟨kind, q⟩, p, h, hp => by
    have hreturn : Allowed w ⟨.returnStatement (some ⟨kind, q⟩), p⟩ := ⟨Watch.allows rfl hp, h⟩
    -- A value that has no position gives its statement none.
    have hor {value : Node} (h : value.Allowed w) :
        w.Placed ⟨.returnStatement (some value), value.position.or p⟩ := by
      rcases h.sited.known_or_none with hvalue | hvalue
      · exact .inl (hvalue.or_left hp.sited)
      · rw [hvalue]
        exact hp.sited.known_or_none.imp_right fun hnone => ⟨hnone, .inr ⟨value, rfl, hvalue⟩⟩
    cases kind with
    | call callee arguments optional =>
      unfold returnOrJump
      split
      · exact allowed_jumpTo hlabel hparams h.2.2 ((h.1.placed.known rfl).or_left hp.sited)
      · exact hreturn
    | conditional test consequent alternate =>
      unfold returnOrJump
      split
      · exact hreturn
      · exact ⟨Watch.allows rfl (h.1.placed.branch hp.sited), h.2.1,
          allowed_returnOrJump consequent _ h.2.2.1 (hor h.2.2.1),
          allowed_returnOrJump alternate _ h.2.2.2 (hor h.2.2.2)⟩
    | _ => exact hreturn

set_option linter.unusedSectionVars false in
mutual

theorem Allowed.withJumps : (node : Node) → node.Allowed w → (withJumps label params node).Allowed w
  | ⟨kind, p⟩, h => by
    cases kind with
    | returnStatement value =>
      cases value with
      | none => exact h
      | some value => exact allowed_returnOrJump hlabel hparams value p h.2 h.1.placed
    | ifStatement test consequent alternate =>
      exact ⟨Watch.allows rfl h.1.placed.choice, h.2.1, Allowed.withJumps consequent h.2.2.1,
        AllowedOption.withJumps alternate h.2.2.2⟩
    | block body =>
      exact ⟨Watch.allows rfl h.1.placed.block, AllowedIn.withJumps body h.2⟩
    | labeled name body =>
      exact allowed rfl (h.1.placed.known rfl) (Allowed.withJumps body h.2)
    | switchStatement discriminant cases =>
      exact allowed rfl (h.1.placed.known rfl) ⟨h.2.1, AllowedIn.withJumps cases h.2.2⟩
    | switchCase test consequent =>
      exact allowed rfl (h.1.placed.known rfl) ⟨h.2.1, AllowedIn.withJumps consequent h.2.2⟩
    | _ => exact h

theorem AllowedIn.withJumps : (body : List Node) →
    AllowedIn w body → AllowedIn w (bodyWithJumps label params body)
  | [], _ => trivial
  | node :: rest, h => ⟨Allowed.withJumps node h.1, AllowedIn.withJumps rest h.2⟩

theorem AllowedOption.withJumps : (node : Option Node) →
    AllowedOption w node → AllowedOption w (optionWithJumps label params node)
  | none, _ => trivial
  | some node, h => Allowed.withJumps node h

end

end Jumps

end Node

end LispLowering
