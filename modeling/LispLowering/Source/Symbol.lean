import LispLowering.Text.Alphanumeric
import LispLowering.Text.Numeral

/-!
# Symbols as names

A symbol may hold characters that an identifier of the target cannot hold, and it may join several
names with `.` and `?.`.
-/

namespace LispLowering.Symbol

/-! ## Identifiers -/

/-- Words that cannot be identifiers in the target. -/
def reserved : List String :=
  ["break", "case", "catch", "class", "const", "continue", "debugger", "default", "delete", "do",
   "else", "enum", "export", "extends", "false", "finally", "for", "function", "if", "implements",
   "import", "in", "instanceof", "interface", "let", "new", "null", "package", "private",
   "protected", "public", "return", "static", "super", "switch", "this", "throw", "true", "try",
   "typeof", "var", "void", "while", "with", "yield", "await"]

def isReserved (name : String) : Bool := reserved.contains name

def isNameChar (c : Char) : Bool := c = '_' || c = '$' || Text.isAlphanumeric c

/-- The text for one character of a name. -/
def spell (c : Char) : List Char :=
  match c with
  | '-' => ['_']
  | '?' => "_QMARK_".toList
  | '!' => "_BANG_".toList
  | '*' => "_STAR_".toList
  | '+' => "_PLUS_".toList
  | '>' => "_GT_".toList
  | '<' => "_LT_".toList
  | '=' => "_EQ_".toList
  | '/' => "_SLASH_".toList
  | '\x27' => "_QUOTE_".toList
  | '%' => "_PCT_".toList
  | '&' => "_AMP_".toList
  | c => if isNameChar c then [c] else "_U".toList ++ (Text.upperHex c.toNat).toList ++ ['_']

/-- The property name for a symbol. Reserved words and leading digits are allowed. -/
def property (name : String) : String := String.ofList (name.toList.flatMap spell)

def startsWithDigit (text : String) : Bool :=
  match text.toList with
  | c :: _ => c.isDigit
  | [] => false

/-- The identifier for a symbol: its property name, with `_` in front of a digit or a reserved word. -/
def identifier (name : String) : String :=
  let spelled := property name
  if startsWithDigit spelled || isReserved spelled then "_" ++ spelled else spelled

/-! ## Member chains -/

/-- One name of a chain, and whether `?.` stands before it. -/
structure Segment where
  name : String
  optional : Bool
  deriving DecidableEq

/-- The symbol joins names: a dot stands after its first character, which is no dot. -/
def isChain (symbol : String) : Bool :=
  match symbol.toList with
  | [] => false
  | c :: rest => c != '.' && rest.contains '.'

/-- The text before the first separator, and each later piece with the kind of separator before it. -/
def chainPieces : List Char → List Char × List (Bool × List Char)
  | [] => ([], [])
  | '?' :: '.' :: rest =>
    let (first, later) := chainPieces rest
    ([], (true, first) :: later)
  | c :: rest =>
    let (first, later) := chainPieces rest
    if c = '.' then ([], (false, first) :: later) else (c :: first, later)

/-- The names that a symbol joins, unless one of them is empty. -/
def chain? (symbol : String) : Option (List Segment) :=
  let (first, later) := chainPieces symbol.toList
  let segments := (false, first) :: later
  if segments.any fun piece => piece.2.isEmpty then none
  else some (segments.map fun piece => ⟨String.ofList piece.2, piece.1⟩)

/-! ## Keywords -/

/-- The name of a keyword `name:`, which has no other colon. -/
def keyword? (symbol : String) : Option String :=
  (Text.stripEnd? ":" symbol).filter fun name => name ≠ "" && !Text.has ':' name

end LispLowering.Symbol
