import LispLowering.Proofs.Recur.Steps

/-!
# Shapes of nodes and bodies
-/

namespace LispLowering

open Lowering Node SExpr Option

variable {label : String} {body : List Node}

/-! ## Nodes -/

/-- A node of this shape has no call in tail position, whatever it contains. -/
def NodeKind.isInert : NodeKind → Bool
  | .identifier _ _ | .call _ _ _ | .conditional _ _ _ | .expressionStatement _ | .block _
  | .ifStatement _ _ _ | .labeled _ _ | .switchStatement _ _ | .switchCase _ _
  | .returnStatement _ => false
  | _ => true

namespace Node

variable {n : Nat} {node : Node}

/-- The node is not the label, it is no statement around an expression, and it has no call of the label in
tail position. -/
structure Sound (n : Nat) (node : Node) : Prop where
  unnamed : node.identifier? ≠ some (loopLabel n)
  plain : ∀ expression, node.kind ≠ .expressionStatement expression
  tail : tailJumps (loopLabel n) node = 0

/-- The node has no call of the label in tail position when it returns its value. -/
structure Flat (n : Nat) (node : Node) : Prop extends Sound n node where
  ending : bodyJumps (loopLabel n) node.returning = 0

theorem bodyJumps_thenReturn (h : tailJumps label node = 0) (name : Option String) :
    bodyJumps label (thenReturn node name) = 0 := by
  cases name with
  | none => simp [thenReturn, bodyJumps, h]
  | some name => simp [thenReturn, bodyJumps, h, tailJumps, optionValueJumps, ident, typedIdent, of,
      place, valueJumps]

theorem Flat.inert (h : node.kind.isInert = true) : node.Flat n := by
  obtain ⟨kind, p⟩ := node
  cases kind with
  | identifier | call | conditional | expressionStatement | block | ifStatement | labeled
  | switchStatement | switchCase | returnStatement => cases h
  | functionDeclaration | classDeclaration | enumDeclaration | variableDeclaration =>
    exact ⟨⟨(some_ne_none _).symm, fun _ => NodeKind.noConfusion, rfl⟩, bodyJumps_thenReturn rfl _⟩
  | _ => exact ⟨⟨(some_ne_none _).symm, fun _ => NodeKind.noConfusion, rfl⟩, rfl⟩

theorem unnamed_ident {name : String} (h : name ≠ loopLabel n) (p : Option Position) :
    ((ident name).place p).identifier? ≠ some (loopLabel n) :=
  fun heq => h (Option.some.inj heq)

theorem Flat.call {callee : Node} (h : callee.identifier? ≠ some (loopLabel n)) (arguments : List Node)
    (optional : Bool) (p : Option Position) : Flat n ⟨.call callee arguments optional, p⟩ := by
  refine ⟨⟨(some_ne_none _).symm, fun _ => NodeKind.noConfusion, rfl⟩, ?_⟩
  simp [returning, isStatement, bodyJumps, tailJumps, optionValueJumps, valueJumps, isJumpTo, h]

theorem Flat.wrapped (body : List Node) (suspension : Suspension) (p : Option Position) :
    (wrapped body suspension p).Flat n := by
  unfold Node.wrapped
  split
  · exact .inert rfl
  · dsimp only
    split
    · exact .inert rfl
    · apply Flat.call
      exact (some_ne_none _).symm

theorem Sound.orPlace (h : node.Sound n) (p : Option Position) : (node.orPlace p).Sound n := by
  obtain ⟨kind, q⟩ := node
  obtain ⟨hunnamed, hplain, htail⟩ := h
  refine ⟨hunnamed, hplain, ?_⟩
  rw [← htail]
  cases kind <;> rfl

theorem Sound.asExpression (h : node.Sound n) (suspension : Suspension) :
    (node.asExpression suspension).Sound n := by
  obtain ⟨kind, p⟩ := node
  cases kind with
  | expressionStatement expression => exact absurd rfl (h.plain expression)
  | functionDeclaration f => exact (Flat.inert rfl).toSound
  | _ => first | exact h | exact (Flat.wrapped _ suspension p).toSound

theorem tailJumps_asStatement (h : tailJumps label node = 0) : tailJumps label node.asStatement = 0 := by
  unfold asStatement
  split
  · exact h
  · rfl

end Node

def Node.SoundOption (n : Nat) : Option Node → Prop
  | none => True
  | some node => node.Sound n

/-- How trees are lowered: from a tree that avoids the label, the node is sound, and it lacks the label if
no jump was met. -/
structure LowersClear (n : Nat) (lower : Lowerer) : Prop where
  sourced : LowersSourced (.loop n) lower
  shaped : ∀ t : SExpr, t.Suits (.loop n) → Shaped n (lower t) (SoundOption n)

namespace Lowering

variable {n : Nat} {lower : Lowerer} {form : Form} {t : SExpr} {trees : List SExpr}

/-! ## Values and bodies -/

/-- Statements without a call of the label in tail position. -/
def Still (n : Nat) (body : List Node) : Prop := bodyJumps (loopLabel n) body = 0

theorem bodyJumps_append (label : String) (body body' : List Node) :
    bodyJumps label (body ++ body') = bodyJumps label body + bodyJumps label body' := by
  induction body with
  | nil => simp [bodyJumps]
  | cons node rest ih => simp only [List.cons_append, bodyJumps, ih, Nat.add_assoc]

theorem Still.append {body' : List Node} (h : Still n body) (h' : Still n body') :
    Still n (body ++ body') := by
  rw [Still, bodyJumps_append, h, h']

theorem Still.single {node : Node} (h : tailJumps (loopLabel n) node = 0) : Still n [node] := by
  rw [Still, bodyJumps, h, bodyJumps]

theorem sound_null (p : Option Position) : (null.place p).Sound n := (Flat.inert rfl).toSound

/-- A node that may be absent as a value. -/
def valueOf (p : Option Position) (suspension : Suspension) : Option Node → Node
  | some node => node.asExpression suspension
  | none => null.place p

theorem lowerValue_list (items : List SExpr) (p : Option Position) : lowerValue lower (.list items p) =
      Lower.inExpression (lower (.list items p)) >>= fun result => pure (valueOf p result.2 result.1) := by
  refine bind_congr fun result => ?_
  obtain ⟨lowered, suspension⟩ := result
  cases lowered <;> rfl

theorem lowerValue_atom (h : t.items? = none) :
    lowerValue lower t = lower t >>= fun result => pure (valueOf t.position {} result) := by
  cases t with
  | list items p => cases h
  | symbol name p =>
    refine bind_congr fun result => ?_
    cases result <;> rfl
  | literal value p =>
    refine bind_congr fun result => ?_
    cases result <;> rfl

theorem sound_valueOf {result : Option Node} (h : SoundOption n result) (p : Option Position)
    (suspension : Suspension) : (valueOf p suspension result).Sound n := by
  cases result with
  | none => exact sound_null p
  | some node => exact Sound.asExpression h suspension

variable (h : LowersClear n lower)

include h in
theorem lowerValue_shaped (ht : t.Suits (.loop n)) : Shaped n (lowerValue lower t) (Sound n) := by
  have hatom (hitems : t.items? = none) : Shaped n (lowerValue lower t) (Sound n) := by
    rw [lowerValue_atom hitems]
    exact .map (h.shaped t ht) fun _ hsound => sound_valueOf hsound _ _
  cases t with
  | literal | symbol => exact hatom rfl
  | list items p =>
    -- only a list may be wrapped, so only a list is lowered as an expression
    rw [lowerValue_list]
    exact .map (.inExpression (h.sourced.lowers True _ ht) (h.shaped _ ht)) fun _ hsound => sound_valueOf hsound _ _

include h in
theorem lowerStatement_shaped (ht : t.Suits (.loop n)) :
    Shaped n (lowerStatement lower t) fun first => Still n first.toList := by
  refine .map (h.shaped t ht) fun result hsound => ?_
  cases result with
  | none => rfl
  | some node => exact .single (tailJumps_asStatement (Sound.tail hsound))

include h in
theorem lowerBody_shaped (ht : SuitIn (.loop n) trees) :
    Shaped n (lowerBody lower trees) (Still n) := by
  induction trees with
  | nil => exact .pure rfl
  | cons t rest ih =>
    exact .bind (lowerStatement_shaped h ht.1) fun _ hfirst =>
      .map (ih ht.2) fun _ hothers => hfirst.append hothers

theorem sound_block (h : Still n body) (p : Option Position) : Sound n ⟨.block body, p⟩ :=
  ⟨(some_ne_none _).symm, fun _ => NodeKind.noConfusion, h⟩

/-! ## Bindings -/

theorem lowerDeclaration_ensures (kind : VariableKind) (target : SExpr) (value : Option SExpr) :
    Ensures (lowerDeclaration lower kind target value) fun node => node.kind.isInert = true :=
  .after fun _ => .after fun _ => .after fun _ => .pure rfl

theorem lowerPairs_ensures (kind : VariableKind) (pairs : List SExpr) :
    Ensures (lowerPairs lower kind pairs) fun nodes => ∀ node ∈ nodes, node.kind.isInert = true := by
  induction pairs using List.twoStepInduction with
  | nil | singleton => exact .pure (by simp)
  | cons_cons target value rest ih _ =>
    exact .bind (lowerDeclaration_ensures kind target (some value)) fun _ hdecl =>
      .bind ih fun _ hothers => .pure (List.forall_mem_cons.mpr ⟨hdecl, hothers⟩)

theorem still_of_inert {nodes : List Node} (h : ∀ node ∈ nodes, node.kind.isInert = true) :
    Still n nodes := by
  induction nodes with
  | nil => rfl
  | cons node rest ih =>
    rw [List.forall_mem_cons] at h
    rw [Still, bodyJumps, (Flat.inert h.1).tail, ih h.2]

/-! ## Branches and sequences -/

theorem lacks_undefined (p : Option Position) : (undefined.place p).Lacks (loopLabel n) :=
  ⟨ne_loopLabel (by decide) n, trivial⟩

theorem flat_undefined (p : Option Position) : (undefined.place p).Flat n :=
  ⟨⟨Lacks.identifier?_ne (lacks_undefined p), fun _ => NodeKind.noConfusion, rfl⟩, rfl⟩

theorem tailJumps_choose {test consequent : Node} {alternate : Option Node}
    (hthen : tailJumps label consequent = 0) (helse : ∀ node ∈ alternate, tailJumps label node = 0) :
    tailJumps label (choose test consequent alternate) = 0 := by
  unfold choose
  split
  · have hbranch := tailJumps_asStatement hthen
    cases alternate with
    | none => simp [branch, of, tailJumps, optionJumps, hbranch]
    | some node =>
      simp [branch, of, tailJumps, optionJumps, hbranch, tailJumps_asStatement (helse node rfl)]
  · rfl

theorem sound_choose (test : Node) {consequent : Node} {alternate : Option Node}
    (hthen : consequent.Sound n) (helse : SoundOption n alternate) :
    (choose test consequent alternate).Sound n := by
  refine ⟨?_, ?_, tailJumps_choose hthen.tail fun _ hnode => ?_⟩
  · unfold choose
    split <;> exact (some_ne_none _).symm
  · unfold choose
    split <;> exact fun _ => NodeKind.noConfusion
  · cases hnode
    exact helse.tail

/-! ## Switches and labels -/

theorem tailJumps_switchCase (h : Still n body) (p : Option Position)
    (test : Option Node) : tailJumps (loopLabel n) (switchCase p test body) = 0 := by
  unfold switchCase
  dsimp only
  split
  · exact h
  · exact h.append rfl

include h in
theorem lowerSwitchClauses_shaped (seenDefault : Bool) {clauses : List SExpr}
    (hclauses : SuitIn (.loop n) clauses) :
    Shaped n (lowerSwitchClauses lower form seenDefault clauses) (Still n) := by
  induction clauses generalizing seenDefault with
  | nil => exact .pure rfl
  | cons clause rest ih =>
    unfold lowerSwitchClauses
    split
    · have hclause := hclauses.1.itemsIn
      exact .bind (lowerValue_shaped h hclause.2.1) fun _ _ =>
        .bind (lowerBody_shaped h hclause.2.2) fun _ hbody =>
          .map (ih seenDefault hclauses.2) fun _ hcases =>
            (Still.single (tailJumps_switchCase hbody _ _)).append hcases
    · exact .ite (.refuse _) <| .bind (lowerBody_shaped h hclauses.1.itemsIn.2) fun _ hbody =>
        .map (ih true hclauses.2) fun _ hcases =>
          (Still.single (tailJumps_switchCase hbody _ _)).append hcases
    · exact .refuse _

include h in
theorem lowerSwitch_shaped (hargs : SuitIn (.loop n) form.args) :
    Shaped n (lowerSwitch lower form) (Flat n) := by
  obtain ⟨node, name, args⟩ := form
  cases args with
  | nil => exact .refuse _
  | cons discriminant clauses =>
    refine .bind (lowerValue_shaped h hargs.1) fun discriminant _ =>
      .map (lowerSwitchClauses_shaped h false hargs.2) fun cases hcases =>
        ⟨⟨(some_ne_none _).symm, fun _ => NodeKind.noConfusion, hcases⟩, ?_⟩
    show Still n [of (.switchStatement discriminant cases)]
    exact .single hcases

include h in
theorem lowerLabelBody_shaped (ht : SuitIn (.loop n) trees) :
    Shaped n (lowerLabelBody lower trees) fun body => tailJumps (loopLabel n) body = 0 := by
  have hblock : Shaped n (lowerBody lower trees >>= fun body => pure (block body))
      fun body => tailJumps (loopLabel n) body = 0 :=
    .map (lowerBody_shaped h ht) fun _ hbody => hbody
  rcases trees with _ | ⟨single, _ | ⟨_, _⟩⟩
  · exact hblock
  · refine .map (h.shaped single ht.1) fun result hsound => ?_
    cases result with
    | none => rfl
    | some node => exact tailJumps_asStatement (Sound.tail hsound)
  · exact hblock

include h in
theorem lowerLabel_shaped (hargs : SuitIn (.loop n) form.args) :
    Shaped n (lowerLabel lower form) (Flat n) := by
  obtain ⟨node, name, args⟩ := form
  rcases args with _ | ⟨label, _ | ⟨first, more⟩⟩
  · exact .refuse _
  · exact .refuse _
  · have hname (form : Form) (part : String) :
        Shaped n (form.symbolIn part (some label)) fun _ => True := by
      cases label with
      | symbol text p => exact .pure trivial
      | literal | list => exact .refuse _
    refine .bind (hname _ _) fun name _ => .map (lowerLabelBody_shaped h hargs.2) fun body hbody =>
      ⟨⟨(some_ne_none _).symm, fun _ => NodeKind.noConfusion, hbody⟩, ?_⟩
    show Still n [of (.labeled name body)]
    exact .single hbody

end Lowering

end LispLowering
