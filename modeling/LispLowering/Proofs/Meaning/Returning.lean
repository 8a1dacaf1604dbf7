import LispLowering.Lowering.Placement
import LispLowering.Proofs.Meaning.Command

/-!
# Statements that return their value
-/

namespace LispLowering

open Command Completion List Node

variable {body rest : List Node} {node : Node}

/-! ## The shape of a body that returns its value -/

namespace Node

theorem thenReturn_ne_nil (node : Node) (name : Option String) : node.thenReturn name ≠ [] := by
  cases name <;> exact cons_ne_nil _ _

theorem returning_ne_nil (node : Node) : node.returning ≠ [] := by
  obtain ⟨kind, p⟩ := node
  cases kind with
  | functionDeclaration | classDeclaration | enumDeclaration | variableDeclaration =>
    exact thenReturn_ne_nil _ _
  | _ => exact cons_ne_nil _ _

theorem returningAll_ne_nil (h : body ≠ []) : returningAll body ≠ [] := by
  rcases body with _ | ⟨node, _ | ⟨after, rest⟩⟩
  · exact absurd rfl h
  · exact returning_ne_nil node
  · exact cons_ne_nil _ _

theorem returningAll_cons (node : Node) (h : rest ≠ []) :
    returningAll (node :: rest) = node :: returningAll rest := by
  cases rest with
  | nil => exact absurd rfl h
  | cons after rest => rw [returningAll]

theorem returning_joined (h : returningAll body = body) (p : Option Position) :
    (joined p body).returning = [joined p body] := by
  unfold joined
  split
  · exact h
  · rw [returning, h]

theorem returningAll_thenReturn (node : Node) (name : Option String)
    (h : node.returning = node.thenReturn name) :
    returningAll (node.thenReturn name) = node.thenReturn name := by
  cases name with
  | none => exact h
  | some name => rfl

mutual

theorem returningAll_returning : (node : Node) → returningAll node.returning = node.returning
  | ⟨kind, p⟩ => by
    cases kind with
    | block body => rw [returning, returningAll, returning, returningAll_returningAll body]
    | ifStatement test consequent alternate =>
      rw [returning, returningAll, returning, returning_joined (returningAll_returning consequent),
        joined, returningOption_returningOption alternate]
    | tryStatement block handler finalizer =>
      rw [returning, returningAll, returning, returning_joined (returningAll_returning block),
        joined, returningHandler_returningHandler handler]
    | functionDeclaration | classDeclaration | enumDeclaration | variableDeclaration =>
      exact returningAll_thenReturn _ _ rfl
    | _ => rfl

theorem returningAll_returningAll : (body : List Node) →
    returningAll (returningAll body) = returningAll body
  | [] => rfl
  | [last] => returningAll_returning last
  | node :: after :: rest => by
    rw [returningAll, returningAll_cons node (returningAll_ne_nil (cons_ne_nil _ _)),
      returningAll_returningAll (after :: rest)]

theorem returningOption_returningOption : (branch : Option Node) →
    returningOption (returningOption branch) = returningOption branch
  | none => rfl
  | some node => by
    rw [returningOption, returningOption, returning_joined (returningAll_returning node), joined]

theorem returningHandler_returningHandler : (handler : Option Node) →
    returningHandler (returningHandler handler) = returningHandler handler
  | none => rfl
  | some ⟨kind, p⟩ => by
    cases kind with
    | catchClause param body =>
      rw [returningHandler, returningHandler, returning_joined (returningAll_returning body), joined]
    | _ => rfl

end

end Node

/-! ## Statements -/

/-- The name that a declaration of one plain name declares. -/
def Node.plainName? : Node → Option String
  | ⟨.variableDeclaration _ [⟨.variableDeclarator ⟨.identifier name _, _⟩ _, _⟩], _⟩ => some name
  | ⟨.functionDeclaration f, _⟩ => f.id
  | ⟨.classDeclaration name _ _, _⟩ => some name
  | ⟨.enumDeclaration name _ _, _⟩ => some name
  | _ => none

/-- What expressions do, and statements that are not looked into. An expression may have any effect, throw,
complete in several ways or in none. Only a name is just looked up. -/
structure Machine (σ V E : Type) where
  undefined : V
  isTrue : V → Bool
  /-- The value of a name, unless it has none. -/
  look : String → σ → Except E V
  /-- The value of any other expression. -/
  eval : Node → σ → Except E V → σ → Prop
  /-- The exception that a value is thrown as. -/
  raise : V → E
  /-- The parameter of a handler takes an exception. -/
  take : Option Node → E → Command σ V E
  /-- What a statement does, apart from the value that it has. -/
  perform : Node → Command σ V E

namespace Machine

variable {σ V E : Type} (M : Machine σ V E)

/-- The value of a name, as code. -/
def named (name : String) : Command σ V E := fun s o t => o = .ofResult (M.look name s) ∧ t = s

def value : Node → Command σ V E
  | ⟨.identifier name _, _⟩ => M.named name
  | node => fun s o t => ∃ result, M.eval node s result t ∧ o = .ofResult result

/-- The value of a statement that is not looked into: that of the plain name that it declares. -/
def remaining (node : Node) : Command σ V E :=
  (M.perform node).next fun _ =>
    match node.plainName? with
    | some name => M.named name
    | none => .done (.normal M.undefined)

mutual

/-- What a statement does, and its value. An expression may stand for a statement. -/
def runs : Node → Command σ V E
  | ⟨.expressionStatement expression, _⟩ => M.value expression
  | ⟨.returnStatement none, _⟩ => .done (.returned M.undefined)
  | ⟨.returnStatement (some expression), _⟩ =>
    (M.value expression).next fun result => .done (.returned result)
  | ⟨.throwStatement expression, _⟩ =>
    (M.value expression).next fun result => .done (.thrown (M.raise result))
  | ⟨.breakStatement label, _⟩ => .done (.broken label)
  | ⟨.continueStatement label, _⟩ => .done (.continued label)
  | ⟨.block body, _⟩ => runsAll body
  | ⟨.ifStatement test consequent alternate, _⟩ =>
    (M.value test).next fun result =>
      if M.isTrue result then runs consequent else runsOption alternate
  | ⟨.tryStatement block handler finalizer, _⟩ =>
    ((runs block).catching (handles handler)).closing (runsOption finalizer)
  | node => if node.isStatement then M.remaining node else M.value node

/-- What statements do one after another. The value is that of the last one. -/
def runsAll : List Node → Command σ V E
  | [] => .done (.normal M.undefined)
  | [last] => runs last
  | node :: after :: rest => (runs node).next fun _ => runsAll (after :: rest)

def runsOption : Option Node → Command σ V E
  | none => .done (.normal M.undefined)
  | some node => runs node

/-- What a handler does with an exception. Without a handler it is thrown on. -/
def handles : Option Node → E → Command σ V E
  | none, e => .done (.thrown e)
  | some ⟨.catchClause param body, _⟩, e => (M.take param e).next fun _ => runs body
  | some other, _ => (M.perform other).next fun _ => .done (.normal M.undefined)

end

/-- What statements do as the body of a function, which returns at its end. -/
def runsBody (body : List Node) : Command σ V E := (M.runsAll body).map (.atEnd M.undefined)

/-! ## Bodies that return their value -/

theorem runsAll_cons (node : Node) (h : rest ≠ []) :
    M.runsAll (node :: rest) = (M.runs node).next fun _ => M.runsAll rest := by
  cases rest with
  | nil => exact absurd rfl h
  | cons after rest => rw [runsAll]

theorem runs_joined (p : Option Position) (body : List Node) :
    M.runs (joined p body) = M.runsAll body := by
  unfold joined
  split
  · rw [runsAll]
  · rw [runs]

theorem runs_return (expression : Node) (p : Option Position) :
    (M.runs ⟨.returnStatement (some expression), p⟩).map (.atEnd M.undefined) =
      (M.value expression).map .delivered := by
  rw [runs, map_next (delivers_atEnd _), map_delivered]
  simp only [map_done, atEnd]

theorem named_next_named (name : String) : ((M.named name).next fun _ => M.named name) = M.named name := by
  funext s o t
  apply propext
  constructor
  · rintro (⟨_, _, ⟨-, rfl⟩, hnamed⟩ | ⟨-, hnamed⟩) <;> exact hnamed
  · rintro ⟨rfl, rfl⟩
    cases hlook : M.look name t with
    | ok value => exact .inl ⟨value, t, ⟨by rw [hlook]; rfl, rfl⟩, by rw [hlook], rfl⟩
    | error e => exact .inr ⟨trivial, by rw [hlook], rfl⟩

theorem map_undefined (a : Command σ V E) :
    (a.next fun _ => .done (.normal M.undefined)).map (.atEnd M.undefined) =
      (a.next fun _ => .done (.normal M.undefined)).map .delivered := by
  rw [map_next (delivers_atEnd _), map_next delivers_delivered]
  simp only [map_done, atEnd, delivered]

theorem runsAll_valueless (hruns : M.runs node = M.remaining node)
    (hname : node.plainName? = none) :
    (M.runsAll [node]).map (.atEnd M.undefined) = (M.runs node).map .delivered := by
  rw [runsAll, hruns, remaining, hname]
  exact M.map_undefined _

theorem runsAll_thenReturn {name : Option String} (hruns : M.runs node = M.remaining node)
    (hname : node.plainName? = name) :
    (M.runsAll (node.thenReturn name)).map (.atEnd M.undefined) = (M.runs node).map .delivered := by
  cases name with
  | none => exact M.runsAll_valueless hruns hname
  | some name =>
    have hlook (p : Option Position) : M.value ((ident name).place p) = M.named name := rfl
    -- the declaration is run once, and its name is looked up once more
    have htwice : ((M.named name).next fun _ => (M.named name).map .delivered) =
        (M.named name).map .delivered := by
      rw [← map_next delivers_delivered, named_next_named]
    rw [thenReturn, runsAll_cons M node (cons_ne_nil _ _), runsAll,
      map_next (delivers_atEnd _), runs_return, hlook, hruns, remaining, hname,
      next_assoc, map_next delivers_delivered]
    simp only [htwice]

theorem plainName?_variable (kind : VariableKind) (declarations : List Node) (p : Option Position) :
    (⟨.variableDeclaration kind declarations, p⟩ : Node).plainName? = onlyVariable? declarations := by
  rcases declarations with _ | ⟨⟨kind, q⟩, rest⟩
  · rfl
  · cases kind with
    | variableDeclarator id init =>
      obtain ⟨kind, r⟩ := id
      cases kind <;> cases rest <;> rfl
    | _ => cases rest <;> rfl

theorem runsAll_terminator (h : node.isTerminator = true) :
    (M.runsAll [node]).map (.atEnd M.undefined) = (M.runs node).map .delivered := by
  have hends : (M.runs node).Ends := by
    obtain ⟨kind, p⟩ := node
    cases kind with
    | returnStatement argument =>
      cases argument with
      | none => exact ends_done trivial
      | some expression => exact ends_next fun _ => ends_done trivial
    | throwStatement expression => exact ends_next fun _ => ends_done trivial
    | breakStatement | continueStatement => exact ends_done trivial
    | _ => cases h
  rw [runsAll, hends.map_eq (delivers_atEnd _), hends.map_eq delivers_delivered]

mutual

theorem runs_returning : (node : Node) →
    (M.runsAll node.returning).map (.atEnd M.undefined) = (M.runs node).map .delivered
  | ⟨kind, p⟩ => by
    cases kind with
    | expressionStatement expression =>
      rw [returning, runsAll, runs_return, runs]
    | block body =>
      rw [returning, runsAll, runs, runs, runsAll_returningAll body]
    | ifStatement test consequent alternate =>
      rw [returning, runsAll, runs, runs, map_next (delivers_atEnd _),
        map_next delivers_delivered, runs_joined]
      congr 1
      funext result
      split
      · exact runs_returning consequent
      · exact runsOption_returning alternate
    | tryStatement block handler finalizer =>
      -- the finalizer is left as it is: it runs after the return as it ran after the value
      rw [returning, runsAll, runs, runs, map_closing (delivers_atEnd _),
        map_closing delivers_delivered,
        map_catching (delivers_atEnd _),
        map_catching delivers_delivered, runs_joined, runs_returning block]
      simp only [handles_returning handler]
    | functionDeclaration | classDeclaration | enumDeclaration => exact M.runsAll_thenReturn rfl rfl
    | variableDeclaration kind declarations =>
      exact M.runsAll_thenReturn rfl (plainName?_variable kind declarations p)
    | returnStatement | throwStatement | breakStatement | continueStatement =>
      exact M.runsAll_terminator rfl
    | whileLoop _ _ | forLoop _ _ _ _ | forOf _ _ _ _ | forIn _ _ _ | labeled _ _
    | switchStatement _ _ | importDeclaration _ _ _ | exportNamed _ _ | exportDefault _
    | typeAlias _ _ _ | interface _ _ _ _ => exact M.runsAll_valueless rfl rfl
    | _ => exact M.runs_return _ _

theorem runsAll_returningAll : (body : List Node) →
    (M.runsAll (returningAll body)).map (.atEnd M.undefined) = (M.runsAll body).map .delivered
  | [] => by rw [returningAll, runsAll, map_done, map_done]; rfl
  | [last] => by rw [returningAll, runsAll, runs_returning last]
  | node :: after :: rest => by
    rw [returningAll, runsAll_cons M node (returningAll_ne_nil (cons_ne_nil _ _)),
      runsAll_cons M node (cons_ne_nil _ _), map_next (delivers_atEnd _),
      map_next delivers_delivered, runsAll_returningAll (after :: rest)]

theorem runsOption_returning : (branch : Option Node) →
    (M.runsOption (returningOption branch)).map (.atEnd M.undefined) =
      (M.runsOption branch).map .delivered
  | none => by rw [returningOption, runsOption, map_done, map_done]; rfl
  | some node => by rw [returningOption, runsOption, runsOption, runs_joined, runs_returning node]

theorem handles_returning : (handler : Option Node) → (e : E) →
    (M.handles (returningHandler handler) e).map (.atEnd M.undefined) =
      (M.handles handler e).map .delivered
  | none, e => by rw [returningHandler, handles, map_done, map_done]; rfl
  | some ⟨kind, p⟩, e => by
    cases kind with
    | catchClause param body =>
      rw [returningHandler, handles, handles, map_next (delivers_atEnd _),
        map_next delivers_delivered, runs_joined, runs_returning body]
    | _ => exact M.map_undefined _

end

end Machine

/-- A body that returns its value, run as the body of a function, has the same effects as the body. It
returns the value of a body that completes normally, and otherwise it returns, throws, breaks or continues
as the body does. Making it return its value once more changes nothing. -/
theorem returning_preserves_meaning {σ V E : Type} (M : Machine σ V E) (body : List Node) :
    (∀ s o t, M.runsBody (returningAll body) s o t ↔ ∃ o', M.runsAll body s o' t ∧ o = o'.delivered) ∧
    returningAll (returningAll body) = returningAll body := by
  refine ⟨fun s o t => ?_, returningAll_returningAll body⟩
  rw [Machine.runsBody, M.runsAll_returningAll body]
  rfl

end LispLowering
