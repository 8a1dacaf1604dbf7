import LispLowering.Binary64.Nearest

/-!
# JSON values

A JSON value as data. A number written as an integer is kept apart from every other number, since a
line or a column has to be an integer. The members of an object stand in the order in which they were
written; a later member replaces an earlier one of the same name, so that order otherwise carries no
meaning.
-/

namespace LispLowering

inductive Json where
  | null
  | bool (value : Bool)
  | int (value : Int)
  | float (value : Binary64)
  | str (text : String)
  | arr (items : List Json)
  | obj (members : List (String × Json))
  deriving Inhabited

namespace Json

/-! ## Objects -/

def lookup (key : String) : List (String × Json) → Option Json
  | [] => none
  | (name, value) :: rest => (lookup key rest).or (if name = key then some value else none)

def get? (key : String) : Json → Option Json
  | .obj members => lookup key members
  | _ => none

/-- A name put into a list of names in increasing order, unless it is there. -/
def insertName (name : String) : List String → List String
  | [] => [name]
  | other :: rest =>
    if name = other then other :: rest
    else if name < other then name :: other :: rest
    else other :: insertName name rest

/-- The names of the members, each once, in increasing order. -/
def names (members : List (String × Json)) : List String :=
  members.foldr (fun member sorted => insertName member.1 sorted) []

/-! ## Plain values -/

def text? : Json → Option String
  | .str text => some text
  | _ => none

def bool? : Json → Option Bool
  | .bool value => some value
  | _ => none

def index? : Json → Option Nat
  | .int n => if 0 ≤ n then some n.toNat else none
  | _ => none

/-- The number, an integer as the nearest double. -/
def number? : Json → Option Binary64
  | .int n => some (Binary64.ofInt n)
  | .float x => some x
  | _ => none

def items? : Json → Option (List Json)
  | .arr items => some items
  | _ => none

/-- A double as JSON has no text for infinities and values that are not numbers: those become null. -/
def ofNumber (x : Binary64) : Json :=
  if x.isFinite then .float x else .null

def ofText? : Option String → Json
  | some text => .str text
  | none => .null

def ofTexts (texts : List String) : Json := .arr (texts.map .str)

/-! ## Nesting -/

mutual

/-- How many arrays and objects are nested in a value. -/
def depth : Json → Nat
  | .arr items => depthItems items + 1
  | .obj members => depthMembers members + 1
  | _ => 0

def depthItems : List Json → Nat
  | [] => 0
  | item :: rest => max (depth item) (depthItems rest)

def depthMembers : List (String × Json) → Nat
  | [] => 0
  | (_, value) :: rest => max (depth value) (depthMembers rest)

end

end Json

end LispLowering
