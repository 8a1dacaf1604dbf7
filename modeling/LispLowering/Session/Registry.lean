import LispLowering.Diagnostic.Fault
import LispLowering.Session.Options
import LispLowering.Session.Table
import LispLowering.Source.Pattern
import LispLowering.Target.Node

/-!
# Declared functions

A session remembers the functions that were declared, so that later calls can be completed from their
parameters and defaults.
-/

namespace LispLowering

/-- What is remembered about a declared function. The defaults are lowered and stand under the keys of
their parameters. -/
structure FunctionEntry where
  params : List Pattern
  defaults : Table Node
  structured : Bool
  body : List SExpr
  position : Option Position

namespace Pattern

/-- The key of the parameter at `index`: its name, or its number. -/
def key (param : Pattern) (index : Nat) : String :=
  match param.name? with
  | some name => name
  | none => "#" ++ Text.decimal index

def label (param : Pattern) (index : Nat) : String :=
  match param.name? with
  | some name => name
  | none => "parameter #" ++ Text.decimal (index + 1)

end Pattern

namespace FunctionEntry

/-- The last parameter takes the remaining arguments. -/
def hasRest (entry : FunctionEntry) : Bool :=
  match entry.params.getLast? with
  | some last => last.isRest
  | none => false

def positional (entry : FunctionEntry) : List Pattern :=
  if entry.hasRest then entry.params.dropLast else entry.params

def defaultFor (entry : FunctionEntry) (index : Nat) : Option Node := do
  let param ← entry.params[index]?
  entry.defaults.find? (param.key index)

end FunctionEntry

/-- The declared functions of a session. -/
structure Registry where
  entries : Table FunctionEntry := []
  policy : Redefinition := .replace

namespace Registry

def get? (registry : Registry) (name : String) : Option FunctionEntry := registry.entries.find? name

def contains (registry : Registry) (name : String) : Bool := (registry.get? name).isSome

def size (registry : Registry) : Nat := registry.entries.length

/-- Remembers a function. A second declaration replaces the first, or is refused. -/
def declare (registry : Registry) (name : String) (entry : FunctionEntry) :
    Except Diagnostic Registry :=
  match registry.get? name, registry.policy with
  | some first, .reject => .error ((Fault.alreadyDefined name first.position).place entry.position)
  | _, _ => .ok { registry with entries := registry.entries.insert name entry }

end Registry

end LispLowering
