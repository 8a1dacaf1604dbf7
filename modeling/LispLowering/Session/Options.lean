import LispLowering.Json.Reader

/-!
# Options

The options of a session and how they are read. They are written as an object or as an array of their
values in order; what is missing keeps its default.
-/

namespace LispLowering

/-- What happens when a function is declared twice. -/
inductive Redefinition where
  | replace
  | reject
  deriving DecidableEq, Inhabited

structure Options where
  /-- What happens when a function is declared twice. -/
  redefinition : Redefinition := .replace
  /-- The function that is called for an access with a number. -/
  numericHelper : String := "__sprig_get_numeric"
  /-- The property that marks the object thrown for an early return. -/
  earlyReturnKey : String := "__sprig_early_return__"
  /-- The extension of source modules, which becomes `.js` in import paths. -/
  sourceExtension : String := ".sprig"
  deriving DecidableEq, Inhabited

namespace Redefinition

/-- The name of a policy. -/
def name : Redefinition → String
  | .replace => "replace"
  | .reject => "reject"

def ofName? (name : String) : Option Redefinition :=
  [replace, reject].find? fun policy => policy.name = name

/-- A policy is written as its name, or as an object that holds null under its name. -/
def ofJson? : Json → Option Redefinition
  | .str name => ofName? name
  | .obj [(name, .null)] => ofName? name
  | _ => none

end Redefinition

namespace Options

def names : List String :=
  ["redefinition", "numeric-access-helper", "early-return-key", "source-extension"]

/-- An option that keeps its default when it is missing. -/
def option {α : Type} (read : Json → Option α) (default : α) : Option Json → Option α
  | some value => read value
  | none => some default

/-- The options, given what each of them is set to. -/
def ofSettings? (setting : String → Option Json) : Option Options := do
  let defaults : Options := {}
  return {
    redefinition :=
      ← option Redefinition.ofJson? defaults.redefinition (setting "redefinition")
    numericHelper :=
      ← option Json.text? defaults.numericHelper (setting "numeric-access-helper")
    earlyReturnKey := ← option Json.text? defaults.earlyReturnKey (setting "early-return-key")
    sourceExtension := ← option Json.text? defaults.sourceExtension (setting "source-extension") }

def ofJson? : Json → Option Options
  | .obj members => ofSettings? fun name => Json.lookup name members
  | .arr items =>
    if items.length ≤ names.length then ofSettings? fun name => (names.zip items).lookup name
    else none
  | _ => none

/-- No option is set twice. -/
def isUnambiguous : Json → Bool
  | .obj members => names.all fun name => members.countP (fun member => member.1 = name) ≤ 1
  | _ => true

/-- The options that a JSON text denotes. Members with other names are passed over. -/
def parse? (text : String) : Option Options := do
  let value ← Json.parseSelected? names text
  if isUnambiguous value then ofJson? value else none

def toJson (options : Options) : Json :=
  .obj
    [("redefinition", .str options.redefinition.name),
     ("numeric-access-helper", .str options.numericHelper),
     ("early-return-key", .str options.earlyReturnKey),
     ("source-extension", .str options.sourceExtension)]

end Options

end LispLowering
