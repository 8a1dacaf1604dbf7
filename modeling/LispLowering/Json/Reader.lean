import LispLowering.Json.Basic

/-!
# Reading JSON texts

A text is one JSON value with blanks around it. Each reader takes the characters still to be read and
gives what it has read with the characters that follow. Nesting is bounded by the length of the text,
which serves as the fuel of the recursion.

Escapes can write half a surrogate pair, which is no character. A reader that is `exact` refuses it.
The others serve for values that are passed over, where only the form of a string counts.
-/

namespace LispLowering.Json

/-! ## Blanks and strings -/

/-- The characters after the blanks in front. -/
def skipBlanks (cs : List Char) : List Char :=
  cs.dropWhile fun c => c = ' ' || c = '\t' || c = '\n' || c = '\r'

def hexDigit? (c : Char) : Option Nat :=
  if '0' ≤ c ∧ c ≤ '9' then some (c.toNat - '0'.toNat)
  else if 'a' ≤ c ∧ c ≤ 'f' then some (c.toNat - 'a'.toNat + 10)
  else if 'A' ≤ c ∧ c ≤ 'F' then some (c.toNat - 'A'.toNat + 10)
  else none

/-- The number that four hexadecimal digits denote. -/
def hexUnit? (a b c d : Char) : Option Nat := do
  let a ← hexDigit? a
  let b ← hexDigit? b
  let c ← hexDigit? c
  let d ← hexDigit? d
  return ((a * 16 + b) * 16 + c) * 16 + d

def escaped? (c : Char) : Option Char :=
  match c with
  | '"' => some '"'
  | '\\' => some '\\'
  | '/' => some '/'
  | 'b' => some '\x08'
  | 'f' => some '\x0c'
  | 'n' => some '\n'
  | 'r' => some '\r'
  | 't' => some '\t'
  | _ => none

/-- The first half of a surrogate pair. -/
def isLeadUnit (n : Nat) : Bool := 0xD800 ≤ n && n ≤ 0xDBFF

/-- The second half of a surrogate pair. -/
def isTrailUnit (n : Nat) : Bool := 0xDC00 ≤ n && n ≤ 0xDFFF

/-- The characters of a string after its opening quotation mark. A control character is refused, and so
is half a surrogate pair by an exact reader. -/
def stringRest (exact : Bool) : List Char → Option (List Char × List Char)
  | [] => none
  | '"' :: rest => some ([], rest)
  | '\\' :: 'u' :: a :: b :: c :: d :: rest =>
    match hexUnit? a b c d with
    | none => none
    | some unit =>
      if !exact then (stringRest exact rest).map fun (cs, after) => ('\ufffd' :: cs, after)
      else if isTrailUnit unit then none
      else if isLeadUnit unit then
        match rest with
        | '\\' :: 'u' :: a' :: b' :: c' :: d' :: rest' =>
          match hexUnit? a' b' c' d' with
          | none => none
          | some trail =>
            if isTrailUnit trail then
              (stringRest exact rest').map fun (cs, after) =>
                (Char.ofNat (0x10000 + (unit - 0xD800) * 0x400 + (trail - 0xDC00)) :: cs, after)
            else none
        | _ => none
      else (stringRest exact rest).map fun (cs, after) => (Char.ofNat unit :: cs, after)
  | '\\' :: c :: rest =>
    match escaped? c with
    | none => none
    | some e => (stringRest exact rest).map fun (cs, after) => (e :: cs, after)
  | c :: rest =>
    if c = '\\' || c.toNat < 0x20 then none
    else (stringRest exact rest).map fun (cs, after) => (c :: cs, after)

/-! ## Numbers -/

/-- The digits before a fraction or an exponent: a single zero or digits that start with another. -/
def wholeDigits? : List Char → Option (List Char × List Char)
  | '0' :: rest => some (['0'], rest)
  | cs =>
    match cs.span Char.isDigit with
    | ([], _) => none
    | found => some found

/-- A point with at least one digit after it, or nothing. -/
def fractionDigits? : List Char → Option (List Char × List Char)
  | '.' :: rest =>
    match rest.span Char.isDigit with
    | ([], _) => none
    | found => some found
  | cs => some ([], cs)

/-- An exponent with at least one digit, or nothing. -/
def exponentPart? : List Char → Option (Option Int × List Char)
  | [] => some (none, [])
  | mark :: rest =>
    if mark = 'e' || mark = 'E' then
      let (negative, digits) := match rest with
        | '-' :: more => (true, more)
        | '+' :: more => (false, more)
        | more => (false, more)
      match digits.span Char.isDigit with
      | ([], _) => none
      | (found, after) =>
        let n : Int := Binary64.digitsValue found
        some (some (if negative then -n else n), after)
    else some (none, mark :: rest)

/-- The range in which a number written as an integer is kept as an integer. -/
def isKeptInteger (n : Int) : Bool := -(Nat.pow 2 63 : Int) ≤ n && n < (Nat.pow 2 64 : Int)

/-- The value of a number written as digits, a fraction and an exponent. Minus zero is a double. -/
def numberOf (negative : Bool) (whole fraction : List Char) (exponent : Option Int) : Json :=
  let digits := Binary64.digitsValue (whole ++ fraction)
  let integer : Int := if negative then -(digits : Int) else digits
  if fraction.isEmpty && exponent.isNone && isKeptInteger integer && !(negative && digits = 0) then
    .int integer
  else .float (Binary64.ofDecimal negative digits (exponent.getD 0 - fraction.length))

def number (cs : List Char) : Option (Json × List Char) := do
  let (negative, cs) := match cs with
    | '-' :: rest => (true, rest)
    | rest => (false, rest)
  let (whole, cs) ← wholeDigits? cs
  let (fraction, cs) ← fractionDigits? cs
  let (exponent, cs) ← exponentPart? cs
  return (numberOf negative whole fraction exponent, cs)

/-! ## Values -/

def memberName (exact : Bool) (cs : List Char) : Option (String × List Char) := do
  let (name, cs) ← match skipBlanks cs with
    | '"' :: rest => stringRest exact rest
    | _ => none
  match skipBlanks cs with
  | ':' :: rest => some (String.ofList name, rest)
  | _ => none

mutual

def value (exact : Bool) : Nat → List Char → Option (Json × List Char)
  | 0, _ => none
  | fuel + 1, cs =>
    match skipBlanks cs with
    | 'n' :: 'u' :: 'l' :: 'l' :: rest => some (.null, rest)
    | 't' :: 'r' :: 'u' :: 'e' :: rest => some (.bool true, rest)
    | 'f' :: 'a' :: 'l' :: 's' :: 'e' :: rest => some (.bool false, rest)
    | '"' :: rest => (stringRest exact rest).map fun (text, after) => (.str (String.ofList text), after)
    | '[' :: rest =>
      match skipBlanks rest with
      | ']' :: after => some (.arr [], after)
      | _ => (itemsRest exact fuel rest).map fun (items, after) => (.arr items, after)
    | '\x7b' :: rest =>
      match skipBlanks rest with
      | '\x7d' :: after => some (.obj [], after)
      | _ => (membersRest exact fuel rest).map fun (members, after) => (.obj members, after)
    | rest => number rest

/-- The items of an array up to its closing bracket; at least one. -/
def itemsRest (exact : Bool) : Nat → List Char → Option (List Json × List Char)
  | 0, _ => none
  | fuel + 1, cs => do
    let (item, cs) ← value exact fuel cs
    match skipBlanks cs with
    | ']' :: after => some ([item], after)
    | ',' :: rest => (itemsRest exact fuel rest).map fun (items, after) => (item :: items, after)
    | _ => none

/-- The members of an object up to its closing brace; at least one. -/
def membersRest (exact : Bool) : Nat → List Char → Option (List (String × Json) × List Char)
  | 0, _ => none
  | fuel + 1, cs => do
    let (name, cs) ← memberName exact cs
    let (item, cs) ← value exact fuel cs
    let member := (name, item)
    match skipBlanks cs with
    | '\x7d' :: after => some ([member], after)
    | ',' :: rest => (membersRest exact fuel rest).map fun (members, after) => (member :: members, after)
    | _ => none

end

/-- The members of an object up to its closing brace; at least one. The values of members that are not
among `names` are passed over. -/
def selectedRest (names : List String) : Nat → List Char → Option (List (String × Json) × List Char)
  | 0, _ => none
  | fuel + 1, cs => do
    let (name, cs) ← memberName true cs
    let (item, cs) ← value (names.contains name) fuel cs
    match skipBlanks cs with
    | '\x7d' :: after => some ([(name, item)], after)
    | ',' :: rest =>
      (selectedRest names fuel rest).map fun (members, after) => ((name, item) :: members, after)
    | _ => none

/-! ## Texts -/

/-- Fuel for the characters of a text: every second call of the recursion consumes a character. -/
def fuelFor (cs : List Char) : Nat := 2 * cs.length + 2

def complete : Option (Json × List Char) → Option Json
  | some (result, rest) => if (skipBlanks rest).isEmpty then some result else none
  | none => none

/-- The value of a text that holds one value and blanks around it. -/
def parse? (text : String) : Option Json := complete (value true (fuelFor text.toList) text.toList)

/-- The value of a text of which, if it is an object, only the members `names` matter. -/
def parseSelected? (names : List String) (text : String) : Option Json :=
  match skipBlanks text.toList with
  | '\x7b' :: rest =>
    match skipBlanks rest with
    | '\x7d' :: after => complete (some (.obj [], after))
    | _ =>
      complete ((selectedRest names (fuelFor rest) rest).map fun (members, after) =>
        (.obj members, after))
  | _ => parse? text

end LispLowering.Json
