import LispLowering.Text.Cut

/-!
# Module paths

A path is an optional root and a list of parts. Paths are resolved by their parts alone.
-/

namespace LispLowering

inductive PathPart where
  | here
  | parent
  | name (text : String)
  deriving DecidableEq

structure ModulePath where
  rooted : Bool
  parts : List PathPart
  deriving DecidableEq

namespace PathPart

/-- The part that a piece of text between slashes denotes. An empty piece and a single dot denote
none. -/
def ofPiece? (piece : String) : Option PathPart :=
  if piece = "" ∨ piece = "." then none
  else if piece = ".." then some .parent
  else some (.name piece)

def text : PathPart → String
  | .here => "."
  | .parent => ".."
  | .name text => text

end PathPart

namespace ModulePath

/-- The path that a text denotes. A single dot is a part only at the beginning. -/
def ofText (text : String) : ModulePath :=
  match Text.pieces '/' text with
  | first :: rest =>
    let start := if first = "." then [PathPart.here] else (PathPart.ofPiece? first).toList
    ⟨first = "" && !rest.isEmpty, start ++ rest.filterMap PathPart.ofPiece?⟩
  | [] => ⟨false, []⟩

def text (path : ModulePath) : String :=
  (if path.rooted then "/" else "") ++ "/".intercalate (path.parts.map PathPart.text)

/-- A part added to parts in reverse order. A step up cancels a name. -/
def resolveStep (resolved : List PathPart) (part : PathPart) : List PathPart :=
  match part with
  | .here => resolved
  | .name text => .name text :: resolved
  | .parent =>
    match resolved with
    | .name _ :: rest => rest
    | _ => .parent :: resolved

/-- The path without the parts that lead nowhere. -/
def normalize (path : ModulePath) : ModulePath :=
  ⟨path.rooted, (path.parts.foldl resolveStep []).reverse⟩

def join (directory path : String) : String :=
  if directory = "" ∨ (Text.stripEnd? "/" directory).isSome then directory ++ path
  else directory ++ "/" ++ path

/-- The path is written relative to the importing module. -/
def isRelative (path : String) : Bool :=
  (Text.stripStart? "./" path).isSome || (Text.stripStart? "../" path).isSome

def resolve? (directory path : String) : Option String :=
  if isRelative path then some (ofText (join directory path)).normalize.text else none

end ModulePath

end LispLowering
