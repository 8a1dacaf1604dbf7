import LispLowering.Proofs.Erasure.Steps
import LispLowering.Proofs.References
import LispLowering.Proofs.Stages

/-!
# The parts of forms without positions
-/

namespace LispLowering

open Node SExpr Option

variable {body : List Node} {key : String} {node value : Node} {p : Option Position}
  {parts : List SExpr} {t : SExpr}
  {head : String}

theorem Node.erase_keyed : (keyed key value).erase = keyed key value.erase := by
  unfold keyed
  split <;> simp [NodeKind.erase, place, ident, string, literal, typedIdent, of]

namespace Lowering

variable {lower : Lowerer}

/-! ## Control flow -/

@[simp] theorem isDestructuring_erase : isDestructuring t.erase = isDestructuring t := by
  simp only [isDestructuring, isForm_erase]

@[simp] theorem isAssignable_erase : isAssignable node.erase = isAssignable node := by
  obtain ⟨kind, p⟩ := node
  cases kind <;> rfl

theorem erase_choose (test consequent : Node) (alternate : Option Node) :
    (choose test consequent alternate).erase =
      choose test.erase consequent.erase (eraseOption alternate) := by
  unfold choose
  cases alternate with
  | none =>
    simp only [isStatement_erase, eraseOption, map_none]
    split
    · simp [branch, Node.of, NodeKind.erase]
    · rfl
  | some alternate =>
    simp only [isStatement_erase, eraseOption, map_some]
    split
    · simp [branch, Node.of, NodeKind.erase]
    · rfl

@[simp] theorem isElse_erase : isElse t.erase = isElse t := by
  simp only [isElse, isSymbol_erase]

def CondClause.erase (clause : CondClause) : CondClause := ⟨eraseOption clause.test, clause.value.erase⟩

theorem chooseClause_erase : (clauses : List CondClause) →
    chooseClause (clauses.map CondClause.erase) = eraseOption (chooseClause clauses)
  | [] => rfl
  | ⟨none, value⟩ :: _ => rfl
  | ⟨some test, value⟩ :: rest => by
    have ih := chooseClause_erase rest
    simp only [List.map_cons, CondClause.erase, eraseOption, chooseClause, ih, erase_choose]

theorem isTerminator_last_erase : ((eraseAll body).getLast?.map isTerminator).getD false =
      (body.getLast?.map isTerminator).getD false := by
  rw [eraseAll_eq_map, List.getLast?_map]
  cases body.getLast? <;> simp

theorem erase_switchCase (test : Option Node) :
    (switchCase p test body).erase = switchCase none (eraseOption test) (eraseAll body) := by
  unfold switchCase
  simp only [isTerminator_last_erase]
  split <;> simp [NodeKind.erase, Node.of]

theorem lowerSwitchClauses_other (form : Form) (seenDefault : Bool)
    (hcase : head ≠ "case") (hdefault : head ≠ "default") (q p : Option Position)
    (parts rest : List SExpr) :
    ∃ fault, lowerSwitchClauses lower form seenDefault (.list (.symbol head q :: parts) p :: rest) =
      form.refusePart (.list (.symbol head q :: parts) p) fault := by
  rw [lowerSwitchClauses]
  · exact ⟨_, rfl⟩
  · intro position test body p' heq
    cases heq
    exact hcase rfl
  · intro position body p' heq
    cases heq
    exact hdefault rfl

@[simp] theorem isTryClause_erase : isTryClause t.erase = isTryClause t := by
  simp only [isTryClause, isForm_erase]

def TryClauses.erase (clauses : TryClauses) : TryClauses :=
  ⟨eraseOption clauses.handler, eraseOption clauses.finalizer⟩

@[simp] theorem TryClauses.erase_handler_isSome (clauses : TryClauses) :
    clauses.erase.handler.isSome = clauses.handler.isSome := by
  simp [erase]

@[simp] theorem TryClauses.erase_finalizer_isSome (clauses : TryClauses) :
    clauses.erase.finalizer.isSome = clauses.finalizer.isSome := by
  simp [erase]

theorem lowerTryClauses_other (form : Form) (clauses : TryClauses)
    (hcatch : head ≠ "catch") (hfinally : head ≠ "finally") (q p : Option Position)
    (parts rest : List SExpr) :
    ∃ fault, lowerTryClauses lower form clauses (.list (.symbol head q :: parts) p :: rest) =
      form.refusePart (.list (.symbol head q :: parts) p) fault := by
  rw [lowerTryClauses]
  · exact ⟨_, rfl⟩
  · intro position parts p' heq
    cases heq
    exact hcatch rfl
  · intro position body p' heq
    cases heq
    exact hfinally rfl

def ForRange.erase (range : ForRange) : ForRange :=
  ⟨range.counter.erase, range.start.map SExpr.erase, range.stop.erase, range.step.map SExpr.erase⟩

theorem ForRange.ofItems?_erase (items : List SExpr) :
    ofItems? (items.map SExpr.erase) = (ofItems? items).map erase := by
  match items with
  | [] | [_] | [_, _] | [_, _, _] | [_, _, _, _] | _ :: _ :: _ :: _ :: _ :: _ => rfl

theorem countsDown?_erase (step : Node) : countsDown? step.erase = countsDown? step := by
  obtain ⟨kind, p⟩ := step
  cases kind with
  | unary operator argument =>
    obtain ⟨kind, q⟩ := argument
    cases kind with
    | literal value => cases operator <;> cases value <;> rfl
    | _ => cases operator <;> rfl
  | _ => rfl

def ForHead.erase (head : ForHead) : ForHead :=
  ⟨eraseAll head.declarators, head.test.erase, head.step.erase⟩

def IterationParts.erase (parts : IterationParts) : IterationParts :=
  ⟨parts.left.erase, parts.right.erase, parts.body.erase⟩

/-! ## References -/

theorem reference_erases (name : String) (p : Option Position) :
    ReadsErased Node.erase (reference name p) (reference name none) := by
  have halike := reference_alike name p none
  generalize reference name p = x, reference name none = y at halike
  cases halike with
  | error => exact .error _ _
  | ok hreferred =>
    refine .pure ?_
    induction hreferred with
    | literal | identifier | thisValue => rfl
    | member _ _ ih | optionalMember _ _ ih | index _ _ ih | spread _ ih =>
      rw [← ih]
      rfl

/-! ## Calls -/

def SpreadTarget.erase : SpreadTarget → SpreadTarget
  | .symbol name => .symbol name
  | .form node => .form node.erase

theorem spreadTarget?_erase (arg : SExpr) :
    spreadTarget? arg.erase = (spreadTarget? arg).map SpreadTarget.erase := by
  match arg with
  | .symbol name p =>
    simp only [erase_symbol, spreadTarget?, map_map]
    rfl
  | .literal _ _ | .list [] _ | .list [_] _ => rfl
  | .list [mark, target] p =>
    simp only [erase_list, List.map_cons, List.map_nil, spreadTarget?, isSymbol_erase]
    split <;> rfl
  | .list (_ :: _ :: _ :: _) _ => rfl

@[simp] theorem isSpread_erase (arg : SExpr) : isSpread arg.erase = isSpread arg := by
  simp only [isSpread, spreadTarget?_erase, isSome_map]

@[simp] theorem isPlaceholder_erase (arg : SExpr) : isPlaceholder arg.erase = isPlaceholder arg :=
  isSymbol_erase _ arg

def DeclaredCall.erase (call : DeclaredCall) : DeclaredCall :=
  ⟨call.name, call.entry.erase, call.node.erase⟩

/-! ## Operators -/

section

variable (join : Node → Node → Node)
  (hjoin : ∀ left right, (join left right).erase = join left.erase right.erase)
  (p : Option Position) (operands : List Node)

include hjoin

theorem erase_joinLeft :
    joinLeft join none (eraseAll operands) = eraseOption (joinLeft join p operands) := by
  cases operands with
  | nil => rfl
  | cons first rest =>
    have hstep : ∀ left right, (join left.erase right.erase).place none =
        ((join left right).place p).erase := by
      intro left right
      rw [← hjoin, place_none_erase, erase_place]
    simp only [eraseAll, joinLeft, eraseOption, eraseAll_eq_map, List.foldl_map]
    exact congrArg some (List.foldl_hom Node.erase hstep)

theorem erase_joinRight :
    joinRight join none (eraseAll operands) = eraseOption (joinRight join p operands) := by
  induction operands with
  | nil => rfl
  | cons first rest ih =>
    simp only [eraseAll, joinRight, ih]
    cases joinRight join p rest with
    | none => rfl
    | some right =>
      simp only [eraseOption, erase_place, hjoin]
      rw [← hjoin, place_none_erase]

end

@[simp] theorem isRepeatable_erase : isRepeatable node.erase = isRepeatable node := by
  obtain ⟨kind, p⟩ := node
  cases kind <;> rfl

def Comparisons.erase (chain : Comparisons) : Comparisons :=
  ⟨eraseAll chain.declarations, eraseAll chain.tests⟩

theorem erase_comparisonValue (suspension : Suspension) (chain : Comparisons) :
    (comparisonValue p suspension chain).erase = comparisonValue none suspension chain.erase := by
  obtain ⟨declarations, tests⟩ := chain
  have hempty : (eraseAll declarations).isEmpty = declarations.isEmpty := by
    cases declarations <;> rfl
  have hvalue : ((joinLeft (logical .and) p tests).getD ((Node.bool true).place p)).erase =
      (joinLeft (logical .and) none (eraseAll tests)).getD
        ((Node.bool true).place none) := by
    rw [erase_joinLeft (logical .and) (fun _ _ => rfl) p]
    cases joinLeft (logical .and) p tests <;> rfl
  simp only [comparisonValue, Comparisons.erase, hempty, ← hvalue]
  split
  · rfl
  · rw [erase_wrapped]
    simp [NodeKind.erase]

/-! ## Collections and templates -/

@[simp] theorem directKey?_erase (key : SExpr) : directKey? key.erase = directKey? key := by
  match key with
  | .symbol _ _ | .list _ _ | .literal (.string _) _ | .literal (.number _) _
  | .literal (.bool _) _ | .literal .null _ => rfl

def Template.erase (template : Template) : Template :=
  ⟨template.start, template.rest.map (Prod.map Node.erase id)⟩

theorem Template.erase_node (template : Template) : template.node.erase = template.erase.node := by
  simp [node, erase, Node.of, NodeKind.erase, Function.comp_def]

/-! ## Access to the host -/

theorem erase_propertyAccess (object : Node) (name : String) (p : Option Position) :
    (propertyAccess object name p).erase = propertyAccess object.erase name none := by
  unfold propertyAccess
  split <;> rfl

theorem erase_getInvokeStatements (object : Node) (name receiverName memberName : String) : eraseAll
    (getInvokeStatements object name receiverName memberName p) =
      getInvokeStatements object.erase name receiverName memberName none := by
  have haccess : (propertyAccess ((ident receiverName).place p) name p).erase =
      propertyAccess ((ident receiverName).place none) name none :=
    erase_propertyAccess ..
  simp only [getInvokeStatements, ← haccess]
  rfl

/-! ## Quotation -/

mutual

theorem erase_quoted : (t : SExpr) → (quoted t).erase = quoted t.erase
  | .symbol _ _ | .literal _ _ => rfl
  | .list items p => by
    have hitems := erase_quotedItems items
    rw [erase_list, quoted, quoted, ← hitems]
    rfl

theorem erase_quotedItems : (items : List SExpr) →
    eraseAll (quotedItems items) = quotedItems (items.map SExpr.erase)
  | [] => rfl
  | item :: rest => by
    rw [quotedItems, eraseAll, erase_quoted item, erase_quotedItems rest]
    rfl

end

theorem spliced?_erase : spliced? t.erase = (spliced? t).map SExpr.erase := by
  match t with
  | .symbol _ _ | .literal _ _ | .list [] _ | .list [_] _ => rfl
  | .list (_ :: _ :: _ :: _) _ => rfl
  | .list [head, tree] p =>
    simp only [erase_list, List.map_cons, List.map_nil, spliced?, isSymbol_erase]
    split <;> rfl

@[simp] theorem QuoteMark.ofHead_erase (head : SExpr) : ofHead head.erase = ofHead head := by
  simp only [ofHead, isSymbol_erase]

/-! ## Building a function -/

@[simp] theorem defaultOf?_erase (target : Node) :
    defaultOf? target.erase = eraseOption (defaultOf? target) := by
  obtain ⟨kind, p⟩ := target
  cases kind <;> rfl

theorem defaultsFrom_erase : (index : Nat) → (params : List (Pattern × Node)) → (table : Table Node) →
    defaultsFrom index (params.map (Prod.map Pattern.erase Node.erase)) (table.mapValues Node.erase) =
      Table.mapValues Node.erase (defaultsFrom index params table)
  | _, [], _ => rfl
  | index, (param, target) :: rest, table => by
    simp only [List.map_cons, Prod.map, defaultsFrom, defaultOf?_erase, Pattern.key_erase]
    cases defaultOf? target with
    | none => exact defaultsFrom_erase (index + 1) rest table
    | some default =>
      simp only [eraseOption, Table.insert_mapValues]
      exact defaultsFrom_erase (index + 1) rest _

theorem declareFunction_erases (name : String) (entry : FunctionEntry) :
    Erases id (declareFunction name entry) (declareFunction name entry.erase) := by
  intro c
  have h := c.registry.declare_erase name entry
  unfold declareFunction
  generalize c.registry.declare name entry = declared,
    hdeclared : c.registry.erase.declare name entry.erase = declared' at h
  have hdeclared' : c.erase.registry.declare name entry.erase = declared' := hdeclared
  let tried := { c with declarations := c.declarations ++ [(name, entry)] }
  have htried : c.erase.declarations ++ [(name, entry.erase)] = tried.erase.declarations :=
    (@List.map_append _ _ _ c.declarations [(name, entry)]).symm
  rw [hdeclared', htried]
  cases h with
  | ok registry => exact .ok () { tried with registry }
  | error d d' => exact .error d d' tried

def FunctionSpec.erase (spec : FunctionSpec) : FunctionSpec :=
  { spec with params := spec.params.erase, body := spec.body.map SExpr.erase, position := none }

namespace FunctionSpec

theorem entry_erase (spec : FunctionSpec) (targets : List Node) :
    spec.erase.entry (eraseAll targets) = (spec.entry targets).erase := by
  have hzip : (spec.params.params.map Pattern.erase).zip (eraseAll targets) =
      (spec.params.params.zip targets).map (Prod.map Pattern.erase Node.erase) := by
    rw [eraseAll_eq_map, List.zip_map]
  have hdefaults := defaultsFrom_erase 0 (spec.params.params.zip targets) []
  simp only [entry, erase, ParamList.erase, FunctionEntry.erase, hzip, ← hdefaults]
  rfl

theorem remember_erases (spec : FunctionSpec) (targets : List Node) :
    Erases id (spec.remember targets) (spec.erase.remember (eraseAll targets)) := by
  unfold remember
  rw [entry_erase]
  have hname : spec.erase.name = spec.name := rfl
  rw [hname]
  cases spec.name with
  | none => exact .pure rfl
  | some name => exact .ite Iff.rfl (declareFunction_erases _ _) (.pure rfl)

end FunctionSpec

theorem splitReturnType_erase (body : List SExpr) : splitReturnType (body.map SExpr.erase) =
      Prod.map id (List.map SExpr.erase) (splitReturnType body) := by
  match body with
  | [] | .literal _ _ :: _ => rfl
  | .list items p :: rest => simp [splitReturnType]
  | .symbol name p :: rest =>
    simp only [List.map_cons, erase_symbol, splitReturnType]
    cases (Text.stripStart? ":" name).filter fun type => type ≠ "" <;> rfl

@[simp] theorem isArrowList_erase (items : List SExpr) :
    isArrowList (items.map SExpr.erase) = isArrowList items := by
  cases items with
  | nil => rfl
  | cons head rest => exact isSymbol_erase _ head

mutual

@[simp] theorem implicitCount_erase : (t : SExpr) → implicitCount t.erase = implicitCount t
  | .symbol _ _ | .literal _ _ => rfl
  | .list items _ => by
    simp only [erase_list, implicitCount, isArrowList_erase, implicitCounts_erase items]

@[simp] theorem implicitCounts_erase : (items : List SExpr) →
    implicitCounts (items.map SExpr.erase) = implicitCounts items
  | [] => rfl
  | item :: rest => by
    simp only [List.map_cons, implicitCounts, implicitCount_erase item, implicitCounts_erase rest]

end

theorem implicitArity_erase (items : List SExpr) :
    implicitArity (items.map SExpr.erase) = implicitArity items := by
  rw [implicitArity, implicitCounts_erase, implicitArity]

theorem implicitParams_erase (count : Nat) :
    (implicitParams count).map Pattern.erase = implicitParams count := by
  simp [implicitParams, PatternKind.erase]

@[simp] theorem hasParamVector_erase :
    hasParamVector (parts.map SExpr.erase) = hasParamVector parts := by
  rcases parts with _ | ⟨first, _ | ⟨second, rest⟩⟩
  · rfl
  · rfl
  · simp [hasParamVector]

/-! ## Leaving and suspending -/

theorem erase_earlyReturnMarker :
    (earlyReturnMarker key value p).erase = earlyReturnMarker key value.erase none := by
  have hvalue : (property "value" value).erase = property "value" value.erase := by
    simp [property, Node.of, ident, typedIdent, NodeKind.erase]
  change object [property key (Node.bool true), (property "value" value).erase] = _
  rw [hvalue]
  rfl

theorem leaveWith_erases (form : Form) (value : Option Node) :
    Erases Node.erase (leaveWith form value) (leaveWith form.erase (eraseOption value)) := by
  unfold leaveWith
  rw [Form.position_erase]
  refine .get fun c => .ite Iff.rfl (.pure rfl) ?_
  refine .bind (.set { c with earlyReturn := true }) fun _ => .pure ?_
  cases value with
  | none => rfl
  | some value => exact congrArg throw (erase_earlyReturnMarker ..)

/-! ## Jumps -/

@[simp] theorem isJumpTo_erase (label : String) (callee : Node) :
    isJumpTo label callee.erase = isJumpTo label callee := by
  simp only [isJumpTo, identifier?_erase]

@[simp] theorem valueJumps_erase (label : String) (value : Node) :
    valueJumps label value.erase = valueJumps label value := by
  obtain ⟨kind, p⟩ := value
  cases kind with
  | call callee arguments optional => simp [NodeKind.erase, valueJumps]
  | conditional test consequent alternate =>
    simp [NodeKind.erase, valueJumps, valueJumps_erase label consequent, valueJumps_erase label alternate]
  | _ => rfl

theorem optionValueJumps_erase (label : String) (value : Option Node) :
    optionValueJumps label (eraseOption value) = optionValueJumps label value := by
  cases value with
  | none => rfl
  | some value => exact valueJumps_erase label value

mutual

theorem tailJumps_erase (label : String) : (node : Node) →
    tailJumps label node.erase = tailJumps label node
  | ⟨kind, p⟩ => by
    cases kind with
    | returnStatement value => exact optionValueJumps_erase label value
    | ifStatement test consequent alternate =>
      simp only [erase_mk, NodeKind.erase, tailJumps, tailJumps_erase label consequent,
        optionJumps_erase label alternate]
    | block body => exact bodyJumps_erase label body
    | labeled name body => exact tailJumps_erase label body
    | switchStatement discriminant cases => exact bodyJumps_erase label cases
    | switchCase test consequent => exact bodyJumps_erase label consequent
    | _ => rfl

theorem bodyJumps_erase (label : String) : (body : List Node) →
    bodyJumps label (eraseAll body) = bodyJumps label body
  | [] => rfl
  | node :: rest => by
    simp only [eraseAll, bodyJumps, tailJumps_erase label node, bodyJumps_erase label rest]

theorem optionJumps_erase (label : String) : (node : Option Node) →
    optionJumps label (eraseOption node) = optionJumps label node
  | none => rfl
  | some node => tailJumps_erase label node

end

@[simp] theorem erase_assignable (param : Node) : (assignable param).erase = assignable param.erase := by
  obtain ⟨kind, p⟩ := param
  cases kind <;> rfl

theorem erase_rebinding (params values : List Node) (p : Option Position) :
    (rebinding params values p).map Node.erase = rebinding (eraseAll params) (eraseAll values) none := by
  have htargets : (eraseAll params).map assignable = (params.map assignable).map Node.erase := by
    simp
  unfold rebinding
  rw [htargets]
  match params.map assignable, values with
  | [], _ => rfl
  | [target], [value] => rfl
  | [_], [] | [_], _ :: _ :: _ | _ :: _ :: _, _ =>
    simp [NodeKind.erase, assign, array, Node.of, Node.place, Function.comp_def]

theorem erase_jumpTo (label : String) (params values : List Node) (p : Option Position) :
    (jumpTo label params values p).erase = jumpTo label (eraseAll params) (eraseAll values) none := by
  unfold jumpTo
  rw [← erase_rebinding params values p]
  simp [Node.block, Node.of, Node.place, NodeKind.erase]

section

variable (label : String) (params : List Node)

include label params

theorem erase_returnOrJump : (p : Option Position) →
    (value : Node) → (returnOrJump label params p value).erase =
      returnOrJump label (eraseAll params) none value.erase
  | p, ⟨kind, q⟩ => by
    cases kind with
    | call callee arguments optional =>
      simp only [erase_mk, NodeKind.erase, returnOrJump, isJumpTo_erase]
      split
      · exact erase_jumpTo label params arguments (q.or p)
      · rfl
    | conditional test consequent alternate =>
      simp only [erase_mk, NodeKind.erase, returnOrJump, valueJumps_erase, Node.position_erase]
      split
      · rfl
      · simp only [erase_mk, NodeKind.erase, eraseOption,
          erase_returnOrJump _ consequent, erase_returnOrJump _ alternate,
          or_none]
    | _ => rfl

theorem erase_returnOptionOrJump (p : Option Position)
    (value : Option Node) : (returnOptionOrJump label params p value).erase =
      returnOptionOrJump label (eraseAll params) none (eraseOption value) := by
  cases value with
  | none => rfl
  | some value => exact erase_returnOrJump label params p value

mutual

theorem erase_withJumps : (node : Node) →
    (withJumps label params node).erase = withJumps label (eraseAll params) node.erase
  | ⟨kind, p⟩ => by
    cases kind with
    | returnStatement value => exact erase_returnOptionOrJump label params p value
    | ifStatement test consequent alternate =>
      simp only [erase_mk, NodeKind.erase, withJumps, erase_withJumps consequent,
        erase_optionWithJumps alternate]
    | block body =>
      simp only [erase_mk, NodeKind.erase, withJumps, erase_bodyWithJumps body]
    | labeled name body =>
      simp only [erase_mk, NodeKind.erase, withJumps, erase_withJumps body]
    | switchStatement discriminant cases =>
      simp only [erase_mk, NodeKind.erase, withJumps, erase_bodyWithJumps cases]
    | switchCase test consequent =>
      simp only [erase_mk, NodeKind.erase, withJumps, erase_bodyWithJumps consequent]
    | _ => rfl

theorem erase_bodyWithJumps : (body : List Node) → eraseAll (bodyWithJumps label params body) =
      bodyWithJumps label (eraseAll params) (eraseAll body)
  | [] => rfl
  | node :: rest => by
    simp only [eraseAll, bodyWithJumps, erase_withJumps node, erase_bodyWithJumps rest]

theorem erase_optionWithJumps : (node : Option Node) → eraseOption (optionWithJumps label params node) =
      optionWithJumps label (eraseAll params) (eraseOption node)
  | none => rfl
  | some node => congrArg some (erase_withJumps node)

end

end

/-! ## Loops with `recur` -/

def LoopVariable.erase (bound : LoopVariable) : LoopVariable :=
  ⟨bound.declaration.erase, bound.target.erase⟩

def LoweredLoop.erase (parts : LoweredLoop) : LoweredLoop :=
  ⟨parts.bindings.map LoopVariable.erase, eraseAll parts.body, parts.frame.erase⟩

theorem erase_closedBody : eraseAll (closedBody p body) = closedBody none (eraseAll body) := by
  unfold closedBody
  rw [isTerminator_last_erase]
  split <;> simp [NodeKind.erase]

theorem erase_loopStatements (label : String) (declarations : List Node) :
    eraseAll (loopStatements label p declarations body) =
      loopStatements label none (eraseAll declarations) (eraseAll body) := by
  simp [loopStatements, NodeKind.erase, Node.bool, Node.literal, Node.block, Node.of, Node.place]

theorem countRecur_erase (loops : List LoopFrame) :
    (countRecur p loops).map LoopFrame.erase = countRecur none (loops.map LoopFrame.erase) := by
  cases loops <;> rfl

/-! ## Classes -/

def MethodShape.erase (shape : MethodShape) : MethodShape :=
  { shape with params := shape.params.erase, body := shape.body.map SExpr.erase }

theorem namedMethod?_erase (kind : MethodKind) (isAsync isGenerator : Bool) :
    namedMethod? kind isAsync isGenerator (parts.map SExpr.erase) =
      (namedMethod? kind isAsync isGenerator parts).map MethodShape.erase := by
  match parts with
  | [] | [.symbol _ _] | .symbol _ _ :: _ :: _ | .literal _ _ :: _ | .list _ _ :: _ => rfl

theorem methodShape?_async_other {word : String} (hfn : word ≠ "fn") (hgenerator : word ≠ "fn*")
    (p : Option Position) (parts : List SExpr) : methodShape? "async" (.symbol word p :: parts) = none := by
  rw [methodShape?]
  · intro position parts' heq
    cases heq
    exact hfn rfl
  · intro position parts' heq
    cases heq
    exact hgenerator rfl

theorem methodShape?_erase (head : String) :
    methodShape? head (parts.map SExpr.erase) = (methodShape? head parts).map MethodShape.erase := by
  unfold methodShape?
  split
  · cases parts <;> rfl
  · exact namedMethod?_erase ..
  · exact namedMethod?_erase ..
  · match parts with
    | [] | .literal _ _ :: _ | .list _ _ :: _ => rfl
    | .symbol word p :: parts =>
      by_cases hfn : word = "fn"
      · subst hfn
        exact namedMethod?_erase ..
      · by_cases hgenerator : word = "fn*"
        · subst hgenerator
          exact namedMethod?_erase ..
        · exact (methodShape?_async_other hfn hgenerator none _).trans
            (congrArg (Option.map _) (methodShape?_async_other hfn hgenerator p parts)).symm
  · exact namedMethod?_erase ..
  · exact namedMethod?_erase ..
  · rfl

def FieldShape.erase (field : FieldShape) : FieldShape :=
  { field with value := field.value.map SExpr.erase }

theorem fieldShape?_erase (head : String) :
    fieldShape? head (parts.map SExpr.erase) = (fieldShape? head parts).map FieldShape.erase := by
  match parts with
  | [] | [.literal _ _] | [.list _ _] | [.literal _ _, _] | [.list _ _, _] => rfl
  | [.symbol name p] =>
    simp only [List.map_cons, List.map_nil, erase_symbol, fieldShape?]
    split <;> rfl
  | [.symbol name p, value] => rfl
  | .symbol _ _ :: _ :: _ :: _ | .literal _ _ :: _ :: _ :: _ | .list _ _ :: _ :: _ :: _ => rfl

theorem staticMember?_erase : staticMember? t.erase = (staticMember? t).map SExpr.erase := by
  match t with
  | .symbol _ _ | .literal _ _ | .list [] _ | .list [_] _ | .list (_ :: _ :: _ :: _) _ => rfl
  | .list [head, inner] p =>
    simp only [erase_list, List.map_cons, List.map_nil, staticMember?, isSymbol_erase]
    split <;> rfl

@[simp] theorem isConstructor_erase : isConstructor node.erase = isConstructor node := by
  obtain ⟨kind, p⟩ := node
  cases kind with
  | methodDefinition key function kind static => cases kind <;> rfl
  | _ => rfl

def ClassParts.erase (parts : ClassParts) : ClassParts :=
  { parts with parent := eraseOption parts.parent, members := eraseAll parts.members }

/-! ## Enumerations -/

def CaseValues.erase (values : CaseValues) : CaseValues :=
  ⟨eraseOption values.raw, eraseAll values.associated⟩

theorem lowerCase_other (form : Form) (hcase : head ≠ "case")
    (q p : Option Position) (parts : List SExpr) :
    ∃ fault, lowerCase lower form (.list (.symbol head q :: parts) p) =
      form.refusePart (.list (.symbol head q :: parts) p) fault := by
  unfold lowerCase
  split
  · rename_i heq
    cases heq
    exact absurd rfl hcase
  · exact ⟨_, rfl⟩

theorem isMixed_erase (cases : List EnumCase) : isMixed (eraseCases cases) = isMixed cases := by
  have hraw : ∀ one : EnumCase, one.erase.rawValue.isSome = one.rawValue.isSome := by
    intro one
    cases one
    simp [EnumCase.erase]
  have hassoc : ∀ one : EnumCase, one.erase.associated.isEmpty = one.associated.isEmpty := by
    intro one
    cases one
    simp [EnumCase.erase]
  simp only [isMixed, eraseCases_eq_map, List.any_map, Function.comp_def, hraw, hassoc]

/-! ## Imports and exports -/

@[simp] theorem isNameList_erase : isNameList t.erase = isNameList t := by
  simp only [isNameList, isForm_erase]
  match t with
  | .symbol _ _ | .literal _ _ | .list [] _ | .list (.literal _ _ :: _) _
  | .list (.list _ _ :: _) _ => simp
  | .list (.symbol head q :: rest) p => simp [List.all_map, Function.comp_def]

@[simp] theorem isDeclaration_erase : isDeclaration node.erase = isDeclaration node := by
  obtain ⟨kind, p⟩ := node
  cases kind <;> rfl

end Lowering

end LispLowering
