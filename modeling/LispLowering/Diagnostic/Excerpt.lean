import LispLowering.Source.Position
import LispLowering.Text.Line

/-!
# Source excerpts

The lines around a position, with a caret below the character that it points at.
-/

namespace LispLowering

/-- One line of an excerpt. The caret is a column of the displayed text, counted from zero. -/
structure ExcerptLine where
  number : Nat
  text : String
  isErrorLine : Bool
  caret : Option Nat
  deriving DecidableEq

namespace Excerpt

/-- How many columns a tab occupies. -/
def tabWidth : Nat := 4

/-- How many lines are shown above and below the line of the position. -/
def radius : Nat := 2

def displayChar (c : Char) : List Char :=
  if c = '\t' then List.replicate tabWidth ' ' else [c]

/-- What is displayed for a line: tabs as spaces. -/
def display (line : String) : String := String.ofList (line.toList.flatMap displayChar)

/-- The displayed column of a column of the source, which is counted from one. -/
def displayColumn (line : String) (column : Nat) : Nat :=
  ((line.toList.take (column - 1)).flatMap displayChar).length

/-- The entry for the line that stands at `index`, when the position is in the line at `errorIndex`. -/
def entry (errorIndex column : Nat) (line : String × Nat) : ExcerptLine :=
  let isErrorLine := line.2 == errorIndex
  { number := line.2 + 1
    text := display line.1
    isErrorLine
    caret := if isErrorLine then some (displayColumn line.1 column) else none }

/-- The lines around a position; none if the source does not have its line. -/
def extract (source : String) (location : Position) : List ExcerptLine :=
  let lines := Text.lines source
  if location.line = 0 ∨ lines.length < location.line then []
  else
    let errorIndex := location.line - 1
    let start := errorIndex - radius
    ((lines.zipIdx.drop start).take (errorIndex + radius + 1 - start)).map
      (entry errorIndex location.column)

/-- The width of the line numbers. -/
def gutterWidth (lines : List ExcerptLine) : Nat :=
  lines.foldl (fun width line => max width (Text.decimal line.number).length) 1

/-- One line with its number, and the caret below it. -/
def renderLine (width : Nat) (line : ExcerptLine) : String :=
  Text.padLeft width ' ' (Text.decimal line.number) ++ " | " ++ line.text ++ "\n" ++
    match line.caret with
    | some caret => Text.fill width ' ' ++ " | " ++ Text.fill caret ' ' ++ "^\n"
    | none => ""

def render (lines : List ExcerptLine) : String :=
  let width := gutterWidth lines
  Text.fill width ' ' ++ " |\n" ++ String.join (lines.map (renderLine width))

end Excerpt

end LispLowering
