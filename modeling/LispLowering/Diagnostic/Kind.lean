import LispLowering.Text.Cut

/-!
# Kinds and codes of diagnostics

Every kind of diagnostic owns a range of a thousand codes. When no code is chosen, the message is
matched with the words of its kind, without regard to case: the first words that occur in it decide,
and otherwise the code is the first of the range.
-/

namespace LispLowering

inductive ErrorKind where
  | parsing
  | linking
  | validation
  | expansion
  | transform
  | runtime
  | emission
  deriving DecidableEq, Inhabited

/-! ## Codes -/

namespace Code

def unexpectedEnd : Nat := 1001
def unclosedDelimiter : Nat := 1002
def invalidNode : Nat := 1003
def invalidPattern : Nat := 1004
def invalidParams : Nat := 1005
def invalidPosition : Nat := 1006
def moduleNotFound : Nat := 2001
def circularImport : Nat := 2002
def invalidImport : Nat := 2003
def invalidExport : Nat := 2004
def missingArgument : Nat := 3001
def tooManyArguments : Nat := 3002
def placeholderWithoutDefault : Nat := 3003
def structuredArity : Nat := 3004
def structuredShape : Nat := 3005
def duplicateDefinition : Nat := 3006
def formArity : Nat := 3007
def misplacedForm : Nat := 3008
def invalidForm : Nat := 3009
def unknownForm : Nat := 5001
def notCallable : Nat := 5002
def transformFailed : Nat := 5003

end Code

namespace ErrorKind

def name : ErrorKind → String
  | .parsing => "ParseError"
  | .linking => "ImportError"
  | .validation => "ValidationError"
  | .expansion => "MacroError"
  | .transform => "TransformError"
  | .runtime => "RuntimeError"
  | .emission => "CodeGenError"

def baseCode : ErrorKind → Nat
  | .parsing => 1000
  | .linking => 2000
  | .validation => 3000
  | .expansion => 4000
  | .transform => 5000
  | .runtime => 6000
  | .emission => 7000

/-- The words of a kind, in small letters, with the codes that they stand for. -/
def keywords : ErrorKind → List (String × Nat)
  | .parsing =>
    [("unexpected end", Code.unexpectedEnd), ("unclosed", Code.unclosedDelimiter),
     ("invalid pattern", Code.invalidPattern), ("invalid parameter list", Code.invalidParams),
     ("invalid position", Code.invalidPosition), ("invalid node", Code.invalidNode)]
  | .linking =>
    [("not found", Code.moduleNotFound), ("cannot find", Code.moduleNotFound),
     ("circular", Code.circularImport), ("export", Code.invalidExport),
     ("import", Code.invalidImport)]
  | .validation =>
    [("missing required", Code.missingArgument), ("too many arguments", Code.tooManyArguments),
     ("placeholder", Code.placeholderWithoutDefault),
     ("at most one argument", Code.structuredArity), ("map literal", Code.structuredShape),
     ("already defined", Code.duplicateDefinition), ("duplicate", Code.duplicateDefinition),
     ("outside", Code.misplacedForm), ("requires", Code.formArity), ("expects", Code.formArity),
     ("invalid", Code.invalidForm)]
  | .expansion => [("not defined", 4001), ("recursion", 4003), ("expansion", 4002)]
  | .transform =>
    [("unknown", Code.unknownForm), ("cannot call", Code.notCallable),
     ("failed to transform", Code.transformFailed), ("unsupported", 5004)]
  | .runtime => [("not a function", 6002), ("undefined", 6001), ("type", 6003)]
  | .emission => [("source map", 7002), ("emit", 7001)]

/-- A character in small letters, as far as the words can tell: besides the capital letters of ASCII,
the dotted capital I and the Kelvin sign have an ASCII letter in their small form. -/
def foldChar (c : Char) : List Char :=
  if c = '\u0130' then ['i', '\u0307']
  else if c = '\u212a' then ['k']
  else [c.toLower]

/-- The code that a message gets when none is chosen. -/
def inferCode (kind : ErrorKind) (message : String) : Nat :=
  let folded := message.toList.flatMap foldChar
  match kind.keywords.find? fun entry => Text.hasWord entry.1.toList folded with
  | some (_, code) => code
  | none => kind.baseCode

end ErrorKind

end LispLowering
