import LispLowering.Proofs.Linking
import LispLowering.Proofs.Recur.Tally

/-!
# Jumps in the place of calls
-/

namespace LispLowering

open Lowering Node

/-- The shape is a jump to the label. -/
def NodeKind.isJumpTo (label : String) : NodeKind → Bool
  | .continueStatement target => target = some label
  | _ => false

/-- The shape is not the label as an identifier. -/
def NodeKind.Unnamed (label : String) (kind : NodeKind) : Prop :=
  ∀ ascribed, kind ≠ .identifier label ascribed

/-- A jump to the label that stands directly in the shape comes right behind the assignment of a value to
each of the variables, and nothing else is there. -/
def NodeKind.Rebinds (label : String) (params : List Node) (kind : NodeKind) : Prop :=
  ∀ child ∈ kind.children, child.kind.isJumpTo label = true →
    ∃ values p, values.length = params.length ∧
      kind = .block (rebinding params values p ++ [⟨.continueStatement (some label), p⟩])

/-- The shape does not name the label, and it jumps there only behind an assignment. -/
def NodeKind.Settled (label : String) (params : List Node) (kind : NodeKind) : Prop :=
  kind.Unnamed label ∧ kind.Rebinds label params

/-- The node declares none of the names. -/
def Node.DeclaresNone (names : List String) (node : Node) : Prop :=
  ∀ name ∈ node.declaredNames, name ∉ names

/-- The shape is not a block that has the label inside and in which one of the names is declared. -/
def NodeKind.Exposes (label : String) (names : List String) : NodeKind → Prop
  | .block body => ¬LackIn label body → ∀ statement ∈ body, statement.DeclaresNone names
  | _ => True

/-- The shape is not a block in which there is a jump to the label and one of the names is declared. -/
def NodeKind.Unshadowed (label : String) (names : List String) : NodeKind → Prop
  | .block body => countIn (NodeKind.isJumpTo label) body ≠ 0 →
    ∀ statement ∈ body, statement.DeclaresNone names
  | _ => True

namespace Node

/-- No block that has the label of the loop inside declares one of the names. -/
abbrev Exposed (n : Nat) (names : List String) (node : Node) : Prop :=
  node.All (NodeKind.Exposes (loopLabel n) names)

abbrev ExposedIn (n : Nat) (names : List String) (body : List Node) : Prop :=
  AllIn (NodeKind.Exposes (loopLabel n) names) body

abbrev Unshadowed (n : Nat) (names : List String) (node : Node) : Prop :=
  node.All (NodeKind.Unshadowed (loopLabel n) names)

abbrev UnshadowedIn (n : Nat) (names : List String) (body : List Node) : Prop :=
  AllIn (NodeKind.Unshadowed (loopLabel n) names) body

end Node

namespace Lowering

variable {n : Nat} {names : List String} {params : List Node} {node : Node} {body : List Node}

/-! ## Statements without calls in tail position -/

theorem valueJumps_of_lacks (value : Node) (h : value.Lacks (loopLabel n)) :
    valueJumps (loopLabel n) value = 0 := by
  obtain ⟨kind, p⟩ := value
  cases kind with
  | call callee arguments optional =>
    have hcallee := Lacks.identifier?_ne h.2.1
    simp [valueJumps, Lowering.isJumpTo, hcallee]
  | conditional test consequent alternate =>
    simp only [valueJumps, valueJumps_of_lacks consequent h.2.2.1, valueJumps_of_lacks alternate h.2.2.2]
  | _ => rfl

variable {label : String} {values : List Node}

theorem returnOrJump_eq_self {p : Option Position} {value : Node} (h : valueJumps label value = 0) :
    returnOrJump label params p value = ⟨.returnStatement (some value), p⟩ := by
  obtain ⟨kind, q⟩ := value
  cases kind with
  | call callee arguments optional =>
    unfold returnOrJump
    split
    · next hjump => simp [valueJumps, hjump] at h
    · rfl
  | conditional test consequent alternate =>
    have hbranches : valueJumps label consequent + valueJumps label alternate = 0 := h
    unfold returnOrJump
    rw [if_pos hbranches]
  | _ => rfl

mutual

theorem withJumps_of_lacks : (node : Node) → node.Lacks (loopLabel n) →
    withJumps (loopLabel n) params node = node ∧ tailJumps (loopLabel n) node = 0
  | ⟨kind, p⟩, h => by
    cases kind with
    | returnStatement value =>
      cases value with
      | none => exact ⟨rfl, rfl⟩
      | some value =>
        have hzero := valueJumps_of_lacks value h.2
        exact ⟨returnOrJump_eq_self hzero, hzero⟩
    | ifStatement test consequent alternate =>
      obtain ⟨hthen, hzero⟩ := withJumps_of_lacks consequent h.2.2.1
      obtain ⟨helse, hzero'⟩ := optionWithJumps_of_lacks alternate h.2.2.2
      simp only [withJumps, tailJumps, hthen, helse, hzero, hzero', and_self]
    | block body =>
      obtain ⟨hbody, hzero⟩ := bodyWithJumps_of_lacks body h.2
      simp only [withJumps, tailJumps, hbody, hzero, and_self]
    | labeled name body =>
      obtain ⟨hbody, hzero⟩ := withJumps_of_lacks body h.2
      simp only [withJumps, tailJumps, hbody, hzero, and_self]
    | switchStatement discriminant cases =>
      obtain ⟨hcases, hzero⟩ := bodyWithJumps_of_lacks cases h.2.2
      simp only [withJumps, tailJumps, hcases, hzero, and_self]
    | switchCase test consequent =>
      obtain ⟨hbody, hzero⟩ := bodyWithJumps_of_lacks consequent h.2.2
      simp only [withJumps, tailJumps, hbody, hzero, and_self]
    | _ => exact ⟨rfl, rfl⟩

theorem bodyWithJumps_of_lacks : (body : List Node) → LackIn (loopLabel n) body →
    bodyWithJumps (loopLabel n) params body = body ∧ bodyJumps (loopLabel n) body = 0
  | [], _ => ⟨rfl, rfl⟩
  | node :: rest, h => by
    obtain ⟨hnode, hzero⟩ := withJumps_of_lacks node h.1
    obtain ⟨hrest, hzero'⟩ := bodyWithJumps_of_lacks rest h.2
    simp only [bodyWithJumps, bodyJumps, hnode, hrest, hzero, hzero', and_self]

theorem optionWithJumps_of_lacks : (node : Option Node) → LackOption (loopLabel n) node →
    optionWithJumps (loopLabel n) params node = node ∧ optionJumps (loopLabel n) node = 0
  | none, _ => ⟨rfl, rfl⟩
  | some node, h => by
    obtain ⟨hnode, hzero⟩ := withJumps_of_lacks node h
    simp only [optionWithJumps, optionJumps, hnode, hzero, and_self]

end

theorem bodyWithJumps_append (label : String) (params body after : List Node) :
    bodyWithJumps label params (body ++ after) =
      bodyWithJumps label params body ++ bodyWithJumps label params after := by
  induction body with
  | nil => rfl
  | cons node rest ih => simp only [List.cons_append, bodyWithJumps, ih]

/-! ## Declarations -/

theorem declaredNames_returnOrJump (label : String) (p : Option Position) (value : Node) :
    (returnOrJump label params p value).declaredNames = [] := by
  unfold returnOrJump
  split
  · split <;> rfl
  · split <;> rfl
  · rfl

theorem declaredNames_withJumps (label : String) (node : Node) :
    (withJumps label params node).declaredNames = node.declaredNames := by
  obtain ⟨kind, q⟩ := node
  cases kind with
  | returnStatement value =>
    cases value with
    | none => rfl
    | some value => exact declaredNames_returnOrJump label q value
  | _ => rfl

theorem forall_mem_bodyWithJumps :
    (∀ statement ∈ bodyWithJumps label params body, statement.DeclaresNone names) ↔
      ∀ statement ∈ body, statement.DeclaresNone names := by
  induction body with
  | nil => exact Iff.rfl
  | cons node rest ih =>
    rw [bodyWithJumps, List.forall_mem_cons, List.forall_mem_cons, ih, DeclaresNone,
      declaredNames_withJumps, DeclaresNone]

theorem exposed_of_lacks (h : node.Lacks (loopLabel n)) : node.Exposed n names := by
  refine h.imp fun m hm => ?_
  obtain ⟨kind, p⟩ := m
  cases kind with
  | block body => exact fun hinside => absurd hm.2 hinside
  | _ => trivial

variable (h : LackIn (loopLabel n) body) (hparams : LackIn (loopLabel n) params)

include h in
theorem exposedIn_of_lacks : ExposedIn n names body :=
  allIn_iff.mpr fun node hnode => exposed_of_lacks (allIn_iff.mp h node hnode)

theorem exposed_of_identifier {name : String} (h : node.identifier? = some name) : node.Exposed n names := by
  obtain ⟨kind, p⟩ := node
  cases kind with
  | identifier name ascribed => exact ⟨trivial, trivial⟩
  | _ => cases h

/-! ## Settled nodes -/

theorem isJumpTo_of_spares {kind : NodeKind} (h : kind.Spares label) : kind.isJumpTo label = false := by
  cases kind with
  | continueStatement target => exact decide_eq_false h
  | _ => rfl

theorem settled_of_quiet {kind : NodeKind} (hname : kind.Unnamed label)
    (h : ∀ child ∈ kind.children, child.kind.isJumpTo label = false) : kind.Settled label params := by
  refine ⟨hname, fun child hchild hjump => ?_⟩
  rw [h child hchild] at hjump
  cases hjump

theorem settled_of_lacks (h : node.Lacks (loopLabel n)) :
    node.All (NodeKind.Settled (loopLabel n) params) := by
  refine h.imp fun m hm => settled_of_quiet ?_ fun child hchild => ?_
  · intro ascribed heq
    have hspares := hm.self
    rw [heq] at hspares
    exact hspares rfl
  · exact isJumpTo_of_spares (allIn_iff.mp hm.children child hchild).self

include h in
theorem settledIn_of_lacks : AllIn (NodeKind.Settled (loopLabel n) params) body :=
  allIn_iff.mpr fun _ hnode => settled_of_lacks (allIn_iff.mp h _ hnode)

theorem count_of_lacks (h : node.Lacks (loopLabel n)) : node.count (NodeKind.isJumpTo (loopLabel n)) = 0 :=
  h.count_eq_zero fun _ => isJumpTo_of_spares

include h in
theorem countIn_of_lacks : countIn (NodeKind.isJumpTo (loopLabel n)) body = 0 :=
  countIn_eq_zero h fun _ => isJumpTo_of_spares

theorem lackIn_rebinding (p : Option Position) (hparams : LackIn (loopLabel n) params)
    (hvalues : LackIn (loopLabel n) values) : LackIn (loopLabel n) (rebinding params values p) := by
  have htargets : ∀ param ∈ params, param.Allowed (.loop n) ∧ (Watch.loop n).Known param.position :=
    fun param hparam => ⟨Lacks.allowed (allIn_iff.mp hparams param hparam), Watch.known_only⟩
  exact (allowedIn_rebinding htargets hvalues.allowedIn Watch.known_only).lackIn

include hparams in
theorem settled_jumpTo
    (hvalues : LackIn (loopLabel n) values) (hcount : values.length = params.length) (p : Option Position) :
    (jumpTo (loopLabel n) params values p).All (NodeKind.Settled (loopLabel n) params) := by
  have hcontinue : All (NodeKind.Settled (loopLabel n) params)
      ⟨.continueStatement (some (loopLabel n)), p⟩ :=
    ⟨settled_of_quiet (fun _ => NodeKind.noConfusion) (by simp [NodeKind.children]), trivial⟩
  refine ⟨⟨fun _ => NodeKind.noConfusion, fun _ _ _ => ⟨values, p, hcount, rfl⟩⟩,
    allIn_append.mpr ⟨?_, hcontinue, trivial⟩⟩
  exact settledIn_of_lacks (lackIn_rebinding p hparams hvalues)

include hparams in
theorem count_jumpTo
    (hvalues : LackIn (loopLabel n) values) (p : Option Position) :
    (jumpTo (loopLabel n) params values p).count (NodeKind.isJumpTo (loopLabel n)) = 1 := by
  have hbefore := countIn_of_lacks (lackIn_rebinding p hparams hvalues)
  have hcontinue : countIn (NodeKind.isJumpTo (loopLabel n))
      [⟨.continueStatement (some (loopLabel n)), p⟩] = 1 := by
    simp [countIn, foldAll, fold, NodeKind.fold, NodeKind.isJumpTo]
  change 0 + countIn _ (rebinding params values p ++ _) = 1
  rw [countIn_append, hbefore, hcontinue]

/-! ## Tailed bodies -/

/-- With jumps in the place of calls, the statements are settled, have a jump for each call in tail
position, and are no jumps themselves. The label was in tail position only, so the blocks around it are those
around a jump. -/
structure Settles (n : Nat) (params body : List Node) : Prop where
  settled : AllIn (NodeKind.Settled (loopLabel n) params)
    (bodyWithJumps (loopLabel n) params body)
  count : countIn (NodeKind.isJumpTo (loopLabel n)) (bodyWithJumps (loopLabel n) params body) =
    bodyJumps (loopLabel n) body
  quiet : ∀ statement ∈ bodyWithJumps (loopLabel n) params body,
    statement.kind.isJumpTo (loopLabel n) = false
  lacks : bodyJumps (loopLabel n) body = 0 → LackIn (loopLabel n) body
  exposes : ∀ names, UnshadowedIn n names (bodyWithJumps (loopLabel n) params body) →
    ExposedIn n names body

namespace Settles

theorem of_lacks (h : LackIn (loopLabel n) body) : Settles n params body := by
  obtain ⟨hsame, hzero⟩ : bodyWithJumps (loopLabel n) params body = body ∧ _ :=
    bodyWithJumps_of_lacks body h
  refine ⟨?_, ?_, ?_, fun _ => h, fun _ _ => exposedIn_of_lacks h⟩
  · rw [hsame]
    exact settledIn_of_lacks h
  · rw [hsame, hzero, countIn_of_lacks h]
  · rw [hsame]
    exact fun statement hmem => isJumpTo_of_spares (allIn_iff.mp h statement hmem).self

theorem append {after : List Node} (h : Settles n params body) (h' : Settles n params after) :
    Settles n params (body ++ after) := by
  have hjumps := bodyWithJumps_append (loopLabel n) params body after
  refine ⟨?_, ?_, ?_, fun hzero => ?_, fun names hnames => ?_⟩
  · rw [hjumps]
    exact allIn_append.mpr ⟨h.settled, h'.settled⟩
  · rw [hjumps, countIn_append, h.count, h'.count, bodyJumps_append]
  · rw [hjumps]
    exact List.forall_mem_append.mpr ⟨h.quiet, h'.quiet⟩
  · rw [bodyJumps_append, Nat.add_eq_zero_iff] at hzero
    exact allIn_append.mpr ⟨h.lacks hzero.1, h'.lacks hzero.2⟩
  · rw [hjumps] at hnames
    obtain ⟨hbody, hafter⟩ := allIn_append.mp hnames
    exact allIn_append.mpr ⟨h.exposes names hbody, h'.exposes names hafter⟩

theorem single (hsettled : (withJumps (loopLabel n) params node).All
      (NodeKind.Settled (loopLabel n) params))
    (hcount : (withJumps (loopLabel n) params node).count (NodeKind.isJumpTo (loopLabel n)) =
      tailJumps (loopLabel n) node)
    (hquiet : (withJumps (loopLabel n) params node).kind.isJumpTo (loopLabel n) = false)
    (hlacks : tailJumps (loopLabel n) node = 0 → node.Lacks (loopLabel n))
    (hexposes : ∀ names, (withJumps (loopLabel n) params node).Unshadowed n names → node.Exposed n names) :
    Settles n params [node] := by
  refine ⟨⟨hsettled, trivial⟩, ?_, by simpa [bodyWithJumps] using hquiet,
    fun hzero => ⟨hlacks hzero, trivial⟩, fun names h => ⟨hexposes names h.1, trivial⟩⟩
  change Node.count _ _ + 0 = tailJumps _ _ + 0
  rw [hcount]

theorem block (h : Settles n params body) (p : Option Position) : Settles n params [⟨.block body, p⟩] := by
  refine .single ⟨settled_of_quiet nofun h.quiet, h.settled⟩ ((Nat.zero_add _).trans h.count) rfl
    (fun hzero => ⟨trivial, h.lacks hzero⟩) fun names hjumps => ⟨fun hinside => ?_, h.exposes names hjumps.2⟩
  have hcount := mt h.lacks hinside
  rw [← h.count] at hcount
  exact forall_mem_bodyWithJumps.mp (hjumps.1 hcount)

theorem joined (h : Settles n params body) (p : Option Position) :
    Settles n params [Node.joined p body] := by
  unfold Node.joined
  split
  · exact h
  · exact h.block p

theorem branch {test consequent : Node} {alternate : Option Node} (htest : test.Lacks (loopLabel n))
    (hthen : Settles n params [consequent])
    (helse : ∀ node ∈ alternate, Settles n params [node]) (p : Option Position) :
    Settles n params [⟨.ifStatement test consequent alternate, p⟩] := by
  have hquiet := isJumpTo_of_spares htest.self
  have hquiet' := hthen.quiet _ (.head _)
  have hcount' : Node.count _ (withJumps (loopLabel n) params consequent) = _ := hthen.count
  cases alternate with
  | none =>
    refine .single ⟨settled_of_quiet (fun _ => NodeKind.noConfusion) ?_, settled_of_lacks htest,
      hthen.settled.1, trivial⟩ ?_ rfl
      (fun hzero => ⟨trivial, htest, (hthen.lacks hzero).1, trivial⟩) fun names hjumps =>
        ⟨trivial, exposed_of_lacks htest, (hthen.exposes names ⟨hjumps.2.2.1, trivial⟩).1, trivial⟩
    · simpa [NodeKind.children, optionWithJumps] using ⟨hquiet, hquiet'⟩
    · change 0 + (Node.count _ test + (Node.count _ _ + 0)) = tailJumps _ consequent + 0
      rw [count_of_lacks htest, hcount']
      simp [bodyJumps]
  | some node =>
    have hnode := helse node rfl
    have hcount'' : Node.count _ (withJumps (loopLabel n) params node) = _ := hnode.count
    refine .single ⟨settled_of_quiet (fun _ => NodeKind.noConfusion) ?_, settled_of_lacks htest,
      hthen.settled.1, hnode.settled.1⟩ ?_ rfl (fun hzero => ?_) fun names hjumps =>
        ⟨trivial, exposed_of_lacks htest, (hthen.exposes names ⟨hjumps.2.2.1, trivial⟩).1,
          (hnode.exposes names ⟨hjumps.2.2.2, trivial⟩).1⟩
    · simpa [NodeKind.children, optionWithJumps] using
        ⟨hquiet, hquiet', hnode.quiet _ (.head _)⟩
    · change 0 + (Node.count _ test + (Node.count _ _ + Node.count _ _)) =
        tailJumps _ consequent + tailJumps _ node
      rw [count_of_lacks htest, hcount', hcount'']
      simp [bodyJumps]
    · obtain ⟨hzero, hzero'⟩ := Nat.add_eq_zero_iff.mp hzero
      exact ⟨trivial, htest, (hthen.lacks hzero).1, (hnode.lacks hzero').1⟩

theorem returningAll (hbefore : LackIn (loopLabel n) body.dropLast)
    (hlast : ∀ last ∈ body.getLast?, Settles n params last.returning) :
    Settles n params (returningAll body) := by
  rw [returningAll_eq]
  refine (of_lacks hbefore).append ?_
  cases hcase : body.getLast? with
  | none => exact .of_lacks trivial
  | some last => exact hlast last hcase

theorem congr {body' : List Node} (h : Settles n params body')
    (hjumps : bodyWithJumps (loopLabel n) params body = bodyWithJumps (loopLabel n) params body')
    (hcount : bodyJumps (loopLabel n) body = bodyJumps (loopLabel n) body')
    (hlacks : LackIn (loopLabel n) body' → LackIn (loopLabel n) body)
    (hexposes : ∀ names, ExposedIn n names body' → ExposedIn n names body) :
    Settles n params body := by
  obtain ⟨hsettled, hsame, hquiet, hlacks', hexposes'⟩ := h
  exact ⟨hjumps ▸ hsettled, hjumps ▸ hcount ▸ hsame, hjumps ▸ hquiet,
    fun hzero => hlacks (hlacks' (hcount ▸ hzero)),
    fun names hnames => hexposes names (hexposes' names (hjumps ▸ hnames))⟩

end Settles

theorem lacks_of_valueJumps (h : node.Tailed (loopLabel n) params.length)
    (hexpr : node.isStatement = false) (hzero : valueJumps (loopLabel n) node = 0) :
    node.Lacks (loopLabel n) := by
  induction h with
  | lacks h => exact h
  | jump hcallee hcount hgiven => simp [valueJumps, Lowering.isJumpTo, hcallee] at hzero
  | choice htest hc ha hthen helse ih ih' =>
    simp only [valueJumps, Nat.add_eq_zero_iff] at hzero
    exact ⟨trivial, htest, ih hc hzero.1, ih' ha hzero.2⟩
  | statement he hexpr => cases hexpr
  | branch | block => cases hexpr

include hparams in
theorem settles_tailed
    (h : node.Tailed (loopLabel n) params.length) : Settles n params node.returning ∧
      (node.isStatement = false → ∀ p, Settles n params [⟨.returnStatement (some node), p⟩]) := by
  -- The first part follows from the second one for expressions.
  have hexpr {node : Node} (hnode : node.isStatement = false)
      (h : ∀ p, Settles n params [⟨.returnStatement (some node), p⟩]) :
      Settles n params node.returning ∧
        (node.isStatement = false → ∀ p, Settles n params [⟨.returnStatement (some node), p⟩]) := by
    rw [returning_of_expression hnode]
    exact ⟨h _, fun _ => h⟩
  induction h with
  | @lacks node h =>
    have hnode : node.Allowed (.loop n) := h.allowed
    exact ⟨.of_lacks (Allowed.returning node hnode).lackIn, fun _ p => .of_lacks ⟨⟨trivial, h⟩, trivial⟩⟩
  | @jump callee arguments optional q hcallee hcount hgiven =>
    refine hexpr rfl fun p => ?_
    have hjump : withJumps (loopLabel n) params
        ⟨.returnStatement (some ⟨.call callee arguments optional, q⟩), p⟩ =
        jumpTo (loopLabel n) params arguments (q.or p) := by
      change returnOrJump _ _ _ _ = _
      simp [returnOrJump, Lowering.isJumpTo, hcallee]
    have hone : tailJumps (loopLabel n)
        ⟨.returnStatement (some ⟨.call callee arguments optional, q⟩), p⟩ = 1 := by
      simp [tailJumps, optionValueJumps, valueJumps, Lowering.isJumpTo, hcallee]
    refine .single ?_ ?_ ?_ (fun hzero => ?_) fun _ _ =>
      ⟨trivial, trivial, exposed_of_identifier hcallee, exposedIn_of_lacks hgiven⟩
    · rw [hjump]
      exact settled_jumpTo hparams hgiven hcount _
    · rw [hjump, count_jumpTo hparams hgiven, hone]
    · rw [hjump]
      rfl
    · rw [hone] at hzero
      cases hzero
  | @choice test consequent alternate q htest hc ha hthen helse ih ih' =>
    refine hexpr rfl fun p => ?_
    by_cases hzero : valueJumps (loopLabel n) consequent + valueJumps (loopLabel n) alternate = 0
    · have hlacks := lacks_of_valueJumps (.choice (p := q) htest hc ha hthen helse) rfl hzero
      exact .of_lacks ⟨⟨trivial, hlacks⟩, trivial⟩
    · have hbranch : Settles n params [⟨.ifStatement test
          ⟨.returnStatement (some consequent), consequent.position.or p⟩
          (some ⟨.returnStatement (some alternate), alternate.position.or p⟩), q.or p⟩] := by
        refine .branch htest (ih.2 hc _) ?_ _
        rintro _ ⟨⟩
        exact ih'.2 ha _
      refine hbranch.congr ?_ rfl (fun h => ⟨⟨trivial, trivial, h.1.2.1, h.1.2.2.1.2, h.1.2.2.2.2⟩, trivial⟩)
        fun _ h => ⟨⟨trivial, trivial, h.1.2.1, h.1.2.2.1.2, h.1.2.2.2.2⟩, trivial⟩
      change [returnOrJump _ _ _ _] = _
      rw [returnOrJump, if_neg hzero]
      rfl
  | statement he hexpr ih => exact ⟨ih.2 he _, Bool.noConfusion⟩
  | @branch test consequent alternate q htest hthen helse ih ih' =>
    refine ⟨.branch htest (ih.1.joined _) (fun _ hnode => ?_) q, Bool.noConfusion⟩
    cases alternate with
    | none => cases hnode
    | some branch =>
      cases hnode
      exact (ih' branch rfl).1.joined _
  | block hbefore hlast ih =>
    exact ⟨(Settles.returningAll hbefore fun last hmem => (ih last hmem).1).block _, Bool.noConfusion⟩

include hparams in
theorem settles_tailedIn
    (h : TailedIn (loopLabel n) params.length body) : Settles n params (returningAll body) :=
  .returningAll h.1 fun last hlast => (settles_tailed hparams (h.2 last hlast)).1

end Lowering

end LispLowering
