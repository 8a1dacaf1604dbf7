import LispLowering.Binary64.Shortest
import LispLowering.Json.Basic

/-!
# JSON texts

The compact text of a JSON value: no blanks, and the members of an object in increasing order of
their names.
-/

namespace LispLowering.Json

def escape (c : Char) : String :=
  match c with
  | '"' => "\\\""
  | '\\' => "\\\\"
  | '\n' => "\\n"
  | '\r' => "\\r"
  | '\t' => "\\t"
  | '\x08' => "\\b"
  | '\x0c' => "\\f"
  | c => if c.toNat < 0x20 then "\\u" ++ Text.padLeft 4 '0' (Text.lowerHex c.toNat) else c.toString

def quote (text : String) : String := "\"" ++ String.join (text.toList.map escape) ++ "\""

/-- A member put among members in increasing order of their names, unless the name is there: the
member that is there comes from further right and replaces it. -/
def insertMember (member : String × String) : List (String × String) → List (String × String)
  | [] => [member]
  | other :: rest =>
    if member.1 = other.1 then other :: rest
    else if member.1 < other.1 then member :: other :: rest
    else other :: insertMember member rest

mutual

def compact : Json → String
  | .null => "null"
  | .bool value => if value then "true" else "false"
  | .int n => Text.signedDecimal n
  | .float x => if x.isFinite then x.jsonText else "null"
  | .str text => quote text
  | .arr items => "[" ++ ",".intercalate (compactItems items) ++ "]"
  | .obj members =>
    "\x7b" ++ ",".intercalate ((compactMembers members).map fun (name, text) => quote name ++ ":" ++ text)
      ++ "\x7d"

def compactItems : List Json → List String
  | [] => []
  | item :: rest => compact item :: compactItems rest

/-- The names of the members of an object with the texts of their values, in increasing order. -/
def compactMembers : List (String × Json) → List (String × String)
  | [] => []
  | (name, value) :: rest => insertMember (name, compact value) (compactMembers rest)

end

end LispLowering.Json
