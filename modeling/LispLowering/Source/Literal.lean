import LispLowering.Binary64.Shortest

/-!
# Literal values

Literals are shared by syntax trees and by target programs.
-/

namespace LispLowering

inductive Literal where
  | null
  | bool (value : Bool)
  | number (value : Binary64)
  | string (value : String)
  deriving DecidableEq, Inhabited

namespace Literal

def escape (c : Char) : List Char :=
  match c with
  | '"' => ['\\', '"']
  | '\\' => ['\\', '\\']
  | '\n' => ['\\', 'n']
  | '\t' => ['\\', 't']
  | '\r' => ['\\', 'r']
  | c => [c]

def quote (text : String) : String := String.ofList ('"' :: text.toList.flatMap escape ++ ['"'])

def text : Literal → String
  | .null => "null"
  | .bool value => if value then "true" else "false"
  | .number value => value.sourceText
  | .string value => quote value

end Literal

end LispLowering
