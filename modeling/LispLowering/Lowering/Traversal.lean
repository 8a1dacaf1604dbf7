import LispLowering.Session.Registry
import LispLowering.Target.Binding

/-!
# The state of a traversal

Lowering walks a tree with a state that survives failures: the declared functions and the supply of
fresh names are kept, and everything that describes the surroundings of a form is put back when the
form is left, whether lowering it succeeded or not.
-/

namespace LispLowering

/-- A loop that is being lowered: its label, the number of its variables, and the jumps back to it
that were met so far, with the position of the first. -/
structure LoopFrame where
  label : String
  arity : Nat
  recurs : Nat := 0
  firstRecur : Option Position := none
  deriving DecidableEq

/-- What a stretch of code waits for, not counting the functions inside it. -/
structure Suspension where
  awaits : Bool := false
  yields : Bool := false
  deriving DecidableEq

def Suspension.union (s t : Suspension) : Suspension := ⟨s.awaits || t.awaits, s.yields || t.yields⟩

structure Context where
  options : Options
  directory : String
  registry : Registry
  /-- How many wrapped expressions enclose the form within the innermost function. -/
  wrapperDepth : Nat := 0
  /-- How many functions enclose the form. -/
  functionDepth : Nat := 0
  /-- The innermost function is left from within a wrapped expression. -/
  earlyReturn : Bool := false
  /-- The enclosing loops of the innermost function, the innermost loop first. -/
  loops : List LoopFrame := []
  /-- What the code since the last wrapper or function waits for. -/
  suspension : Suspension := {}
  /-- The names that enclosing parameters and bindings introduce, the innermost scope first. -/
  scopes : List (List String) := []
  /-- The number of the next fresh name. -/
  nextFresh : Nat := 0
  /-- The declarations of functions that were tried, in their order. Nothing depends on this record. -/
  declarations : List (String × FunctionEntry) := []

/-- The state in which a session starts. -/
def Context.start (directory : String) (options : Options) : Context :=
  { options, directory, registry := { policy := options.redefinition } }

abbrev Lower := EStateM Diagnostic Context

/-- How a tree is lowered; a form that stands for nothing gives no node. -/
abbrev Lowerer := SExpr → Lower (Option Node)

namespace Lower

variable {α β : Type}

/-! ## Basic steps -/

def refuse (d : Diagnostic) : Lower α := fun c => .error d c

def ofExcept : Except Diagnostic α → Lower α
  | .ok value => pure value
  | .error d => refuse d

def ofSyntax : Except SyntaxFault α → Lower α
  | .ok value => pure value
  | .error fault => refuse (.ofSyntax fault)

/-- One step for each item, from left to right. -/
def each (step : α → Lower β) : List α → Lower (List β)
  | [] => pure []
  | item :: rest => do
    let first ← step item
    let others ← each step rest
    return first :: others

def option (step : α → Lower β) : Option α → Lower (Option β)
  | none => pure none
  | some item => do return some (← step item)

/-- A fresh name that starts with `stem`. -/
def fresh (stem : String) : Lower String := fun c =>
  .ok (stem ++ "_" ++ Text.decimal c.nextFresh) { c with nextFresh := c.nextFresh + 1 }

/-! ## Surroundings -/

/-- Runs an action in other surroundings. `enter` changes the state before it, `leave` puts back what
belongs to the surroundings whatever the outcome, and `result` may look at the state that the action
left behind. -/
def within (enter : Context → Context) (leave : Context → Context → Context)
    (result : Context → α → β) (action : Lower α) : Lower β := fun before =>
  match action (enter before) with
  | .ok value after => .ok (result after value) (leave before after)
  | .error d after => .error d (leave before after)

/-- Runs an action and tells what it waits for, which the code around it then waits for too. -/
def tracking (action : Lower α) : Lower (α × Suspension) :=
  within (fun c => { c with suspension := {} })
    (fun before after => { after with suspension := before.suspension.union after.suspension })
    (fun after value => (value, after.suspension)) action

/-- Runs an action inside an expression that may have to be wrapped. -/
def inExpression (action : Lower α) : Lower (α × Suspension) :=
  within (fun c => { c with wrapperDepth := c.wrapperDepth + 1 })
    (fun _ after => { after with wrapperDepth := after.wrapperDepth - 1 })
    (fun _ value => value) (tracking action)

/-- Runs an action as the body of a function and tells whether it was left early. -/
def inFunction (action : Lower α) : Lower (α × Bool) :=
  within
    (fun c => { c with
      wrapperDepth := 0, functionDepth := c.functionDepth + 1, earlyReturn := false, loops := [],
      suspension := {} })
    (fun before after => { after with
      wrapperDepth := before.wrapperDepth, functionDepth := after.functionDepth - 1,
      earlyReturn := before.earlyReturn, loops := before.loops, suspension := before.suspension })
    (fun after value => (value, after.earlyReturn)) action

/-- Runs an action as the body of a loop and gives the frame with the jumps that were met. -/
def inLoop (frame : LoopFrame) (action : Lower α) : Lower (α × LoopFrame) := fun before =>
  match action { before with loops := frame :: before.loops } with
  | .ok value after =>
    match after.loops with
    | top :: rest => .ok (value, top) { after with loops := rest }
    | [] => .error (Fault.loopUnderflow.place none) after
  | .error d after => .error d { after with loops := after.loops.tail }

/-- Runs an action in a scope that starts with `names`. -/
def inScope (names : List String) (action : Lower α) : Lower α :=
  within (fun c => { c with scopes := names :: c.scopes })
    (fun _ after => { after with scopes := after.scopes.tail }) (fun _ value => value) action

/-- The names that a target introduces belong to the innermost scope. Outside of every scope nothing
is noted. -/
def bind (target : Node) : Lower Unit := fun c =>
  .ok () { c with
    scopes := match c.scopes with
      | [] => []
      | scope :: rest => (scope ++ target.boundNames) :: rest }

/-- The name belongs to an enclosing scope. -/
def isLocal (name : String) : Lower Bool := do
  return (← get).scopes.any fun scope => scope.contains name

def noteAwait : Lower Unit :=
  modify fun c => { c with suspension := { c.suspension with awaits := true } }

def noteYield : Lower Unit :=
  modify fun c => { c with suspension := { c.suspension with yields := true } }

end Lower

end LispLowering
