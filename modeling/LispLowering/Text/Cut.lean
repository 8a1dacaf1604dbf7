/-!
# Cutting text

Taking a fixed beginning or end off a text, and dividing a text at a character. All of it works on
the list of characters, so that the laws of lists apply.
-/

namespace LispLowering.Text

/-! ## Fixed beginnings and ends -/

/-- What follows `start` in `text`, if `text` begins with it. -/
def stripStart? (start text : String) : Option String :=
  (List.isPrefixOf? start.toList text.toList).map String.ofList

/-- What precedes `finish` in `text`, if `text` ends with it. -/
def stripEnd? (finish text : String) : Option String :=
  (List.isSuffixOf? finish.toList text.toList).map String.ofList

/-! ## Dividing at a character -/

/-- The characters before the first `c` and those after it, if there is a `c`. -/
def divideChars (c : Char) : List Char → Option (List Char × List Char)
  | [] => none
  | d :: rest =>
    if d = c then some ([], rest)
    else (divideChars c rest).map fun (before, after) => (d :: before, after)

/-- The text before the first `c` and the text after it, if there is a `c`. -/
def divide? (c : Char) (text : String) : Option (String × String) :=
  (divideChars c text.toList).map fun (before, after) => (String.ofList before, String.ofList after)

/-- The pieces between the occurrences of `c`; a text without `c` is its own only piece. -/
def pieces (c : Char) (text : String) : List String := (text.toList.splitOn c).map String.ofList

def has (c : Char) (text : String) : Bool := text.toList.contains c

def hasWord (word : List Char) : List Char → Bool
  | [] => word.isEmpty
  | c :: rest => word.isPrefixOf (c :: rest) || hasWord word rest

/-! ## Putting together -/

def fill (n : Nat) (c : Char) : String := String.ofList (List.replicate n c)

/-- `text` filled up with `c` on the left to at least `width` characters. -/
def padLeft (width : Nat) (c : Char) (text : String) : String := fill (width - text.length) c ++ text

/-- `"s"` unless there is exactly one. -/
def pluralMark (n : Nat) : String :=
  if n = 1 then "" else "s"

end LispLowering.Text
