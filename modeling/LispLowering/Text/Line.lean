/-!
# Source lines

A source text as the list of its lines. A line ends at a line feed, a carriage return directly
before that line feed belongs to the ending, and nothing follows the last ending: a text that ends
in a line feed has no empty last line, and a carriage return elsewhere is part of its line.
-/

namespace LispLowering.Text

/-- A line that a line feed closed, without a carriage return at its end. -/
def closedLine (cs : List Char) : List Char :=
  if cs.getLast? = some '\r' then cs.dropLast else cs

/-- What follows the last line feed: a line of its own unless it is empty. -/
def openLine : List Char → List (List Char)
  | [] => []
  | cs => [cs]

def lineChars (cs : List Char) : List (List Char) :=
  let parts := cs.splitOn '\n'
  parts.dropLast.map closedLine ++ (parts.getLast?.map openLine).getD []

def lines (source : String) : List String := (lineChars source.toList).map String.ofList

end LispLowering.Text
