import LispLowering.Diagnostic.Excerpt
import LispLowering.Diagnostic.Kind
import LispLowering.Source.Fault

/-!
# Diagnostics

A diagnostic is a coded message that may have a location and a cause. The excerpt at its location is
taken from the first source that it is shown with and kept from then on, and a diagnostic is reported
at most once.
-/

namespace LispLowering

mutual

structure Diagnostic where
  kind : ErrorKind
  code : Nat
  message : String
  location : Option Position
  cause : Option Cause
  excerpt : Option (List ExcerptLine)
  reported : Bool

/-- What a diagnostic goes back to. -/
inductive Cause where
  | diagnostic (inner : Diagnostic)
  | fault (fault : SyntaxFault)

end

namespace Diagnostic

/-! ## Making diagnostics -/

def coded (kind : ErrorKind) (code : Nat) (message : String) : Diagnostic :=
  { kind, code, message, location := none, cause := none, excerpt := none, reported := false }

/-- A diagnostic whose code is inferred from its message. -/
def ofMessage (kind : ErrorKind) (message : String) : Diagnostic :=
  coded kind (kind.inferCode message) message

instance : Inhabited Diagnostic := ⟨ofMessage .transform ""⟩

def withCode (code : Nat) (d : Diagnostic) : Diagnostic := { d with code }

def place (p : Option Position) (d : Diagnostic) : Diagnostic := { d with location := p }

/-- The diagnostic at `p`, unless it has a location of its own. -/
def orPlace (p : Option Position) (d : Diagnostic) : Diagnostic :=
  { d with location := d.location.or p }

def because (cause : Cause) (d : Diagnostic) : Diagnostic := { d with cause := some cause }

/-- A diagnostic without a location becomes the cause of one for the form around it. -/
def inForm (form : String) (p : Option Position) (d : Diagnostic) : Diagnostic :=
  match d.location with
  | some _ => d
  | none =>
    ((coded .transform Code.transformFailed
      ("Failed to transform " ++ form ++ ": " ++ d.message)).place p).because (.diagnostic d)

/-- A text with a capital letter in front. Only the letters of ASCII occur there. -/
def capitalize (text : String) : String :=
  match text.toList with
  | [] => ""
  | c :: rest => String.ofList (c.toUpper :: rest)

/-- The code for a family of faults of syntax. -/
def areaCode : SyntaxArea → Nat
  | .node => Code.invalidNode
  | .position => Code.invalidPosition
  | .pattern => Code.invalidPattern
  | .params => Code.invalidParams

def ofSyntax (fault : SyntaxFault) : Diagnostic :=
  ((coded .parsing (areaCode fault.area) (capitalize fault.message)).place fault.position).because
    (.fault fault)

/-! ## Showing diagnostics -/

def label (d : Diagnostic) : String := "E" ++ Text.padLeft 4 '0' (Text.decimal d.code)

/-- The excerpt: the one taken before, or else the one that `source` gives now. -/
def excerptIn (source : String) (d : Diagnostic) : List ExcerptLine :=
  d.excerpt.getD ((d.location.map (Excerpt.extract source)).getD [])

def takeExcerpt (source : String) (d : Diagnostic) : Diagnostic :=
  { d with excerpt := some (d.excerptIn source) }

def headline (d : Diagnostic) : String := d.kind.name ++ "[" ++ d.label ++ "]: " ++ d.message ++ "\n"

def excerptText (source : Option String) (d : Diagnostic) : String :=
  match source with
  | none => ""
  | some source =>
    let lines := d.excerptIn source
    if lines.isEmpty then "" else Excerpt.render lines

def format (source : Option String) (d : Diagnostic) : String :=
  d.headline ++
    match d.location with
    | some p => "  --> " ++ p.text ++ "\n" ++ d.excerptText source
    | none => ""

/-- The diagnostic after it has been formatted: a location with a source takes the excerpt. -/
def formatted (source : Option String) (d : Diagnostic) : Diagnostic :=
  match d.location, source with
  | some _, some source => d.takeExcerpt source
  | _, _ => d

def report (source : Option String) (d : Diagnostic) : Option String :=
  if d.reported then none else some (d.format source)

def afterReport (source : Option String) (d : Diagnostic) : Diagnostic :=
  if d.reported then d else { d.formatted source with reported := true }

end Diagnostic

end LispLowering
