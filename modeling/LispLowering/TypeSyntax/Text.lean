import LispLowering.Binary64.Nearest
import LispLowering.Target.TypeExpr
import LispLowering.Text.Blank
import LispLowering.Text.Cut

/-!
# Types written as text

An annotation such as `Array<number>` or `string|null`. Unions are divided first, then intersections;
what remains is an array, a generic type, a literal or a name. Separators count only outside
brackets, and quotation marks are looked at last. A text that fits nothing is kept as it is.
-/

namespace LispLowering.TypeExpr

/-! ## Brackets and separators -/

def isOpening (c : Char) : Bool := c = '<' || c = '(' || c = '[' || c = '\x7b'

def isClosing (c : Char) : Bool := c = '>' || c = ')' || c = ']' || c = '\x7d'

/-- A character put in front of the first piece. -/
def consPiece (c : Char) : List (List Char) → List (List Char)
  | [] => [[c]]
  | piece :: rest => (c :: piece) :: rest

/-- The pieces between the separators that stand outside brackets, when `depth` brackets are open. -/
def splitOutside (separator : Char) : Int → List Char → List (List Char)
  | _, [] => [[]]
  | depth, c :: rest =>
    if isOpening c then consPiece c (splitOutside separator (depth + 1) rest)
    else if isClosing c then consPiece c (splitOutside separator (depth - 1) rest)
    else if c = separator ∧ depth = 0 then [] :: splitOutside separator depth rest
    else consPiece c (splitOutside separator depth rest)

/-- The pieces between separators outside brackets, without the blanks around them. -/
def piecesOutside (separator : Char) (text : List Char) : List (List Char) :=
  (splitOutside separator 0 text).map Text.trimChars

/-- Every bracket that closes was open, and none stays open, when `depth` brackets are open. -/
def isBalancedAt : Nat → List Char → Bool
  | depth, [] => depth = 0
  | depth, c :: rest =>
    if isOpening c then isBalancedAt (depth + 1) rest
    else if isClosing c then
      match depth with
      | 0 => false
      | outer + 1 => isBalancedAt outer rest
    else isBalancedAt depth rest

/-- The brackets of a text match in number. -/
def isBalanced (text : List Char) : Bool := isBalancedAt 0 text

/-! ## Names and literals -/

def isNameStart (c : Char) : Bool := c.isAlpha || c = '_' || c = '$'

def isNamePart (c : Char) : Bool := c.isAlphanum || c = '_' || c = '$' || c = '.'

def isTypeName : List Char → Bool
  | [] => false
  | c :: rest => isNameStart c && rest.all isNamePart

/-- The name and the arguments of a text `name<arguments>` without line feeds in the arguments. -/
def generic? (text : List Char) : Option (List Char × List Char) :=
  match text.span isNamePart with
  | (name, '<' :: rest) =>
    match List.isSuffixOf? ['>'] rest with
    | some args =>
      if isTypeName name && !args.isEmpty && !args.contains '\n' then some (name, args) else none
    | none => none
  | _ => none

/-- The element of a text `element[]`. -/
def arrayElement? (text : List Char) : Option (List Char) :=
  (List.isSuffixOf? ['[', ']'] text).filter fun element => !element.isEmpty && isBalanced element

/-- The text between quotation marks. -/
def quotation? : List Char → Option (List Char)
  | '"' :: rest => List.isSuffixOf? ['"'] rest
  | _ => none

/-- A text that is not put together from other types. -/
def ofLeaf (text : List Char) : TypeExpr :=
  if text = "true".toList then .literal (.bool true)
  else if text = "false".toList then .literal (.bool false)
  else if isTypeName text then .named (String.ofList text)
  else
    match Binary64.ofNumeral? text with
    | some n => .literal (.number n)
    | none =>
      match quotation? text with
      | some content => .literal (.string (String.ofList content))
      | none => .raw (String.ofList text)

/-! ## Texts -/

/-- A text without blanks around it, given how the texts inside it are read. -/
def ofTrimmedWith (inner : List Char → TypeExpr) (text : List Char) : TypeExpr :=
  match piecesOutside '|' text with
  | first :: second :: rest => .union ((first :: second :: rest).map inner)
  | _ =>
    match piecesOutside '&' text with
    | first :: second :: rest => .intersection ((first :: second :: rest).map inner)
    | _ =>
      match arrayElement? text with
      | some element => .array (inner element)
      | none =>
        match generic? text with
        | some (name, args) =>
          if isBalanced args then
            .reference (String.ofList name) ((piecesOutside ',' args).map inner)
          else ofLeaf text
        | none => ofLeaf text

/-- A text with types nested at most as deep as the fuel. -/
def ofCharsWithin : Nat → List Char → TypeExpr
  | 0, text => ofLeaf (Text.trimChars text)
  | fuel + 1, text => ofTrimmedWith (ofCharsWithin fuel) (Text.trimChars text)

/-- The type that a text denotes. The texts inside it are shorter, so its length is fuel enough. -/
def ofText (text : String) : TypeExpr := ofCharsWithin text.toList.length text.toList

end LispLowering.TypeExpr
