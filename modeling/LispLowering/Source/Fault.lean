import LispLowering.Json.Printer
import LispLowering.Source.SExpr

/-!
# Faults of syntax

What can be wrong with a tree in its interchange form, with a binding pattern and with a parameter
list.
-/

namespace LispLowering

inductive PatternFault where
  | literalTarget (node : SExpr)
  | keywordName (text : String)
  | invalidName (name : String)
  | danglingRest
  | danglingDefault
  | restDefault
  | restNotLast
  | restNotName
  | missingTarget (key : String)
  | emptyKey
  | invalidKey (node : SExpr)

inductive ParamsFault where
  | listExpected (node : SExpr)
  | missingDefault
  | invalidName (node : SExpr)

/-- A fault of syntax. Faults of the interchange form have no position. -/
inductive SyntaxFault where
  | stringExpected
  | unexpectedObject (names : List String)
  | programExpected
  | invalidIndex (field : String)
  | invalidFile (value : Json)
  | pattern (fault : PatternFault) (position : Option Position)
  | params (fault : ParamsFault) (position : Option Position)

inductive SyntaxArea where
  | node
  | position
  | pattern
  | params
  deriving DecidableEq

def PatternFault.detail : PatternFault → String
  | .literalTarget node => "literal " ++ node.text ++ " cannot be a binding target"
  | .keywordName text => "'" ++ text ++ "' is a keyword, not a binding name"
  | .invalidName name => "'" ++ name ++ "' is not a valid binding name"
  | .danglingRest => "rest marker must be followed by a binding"
  | .danglingDefault => "'=' must be followed by a default value"
  | .restDefault => "rest element cannot have a default"
  | .restNotLast => "rest element must be last"
  | .restNotName => "object rest must bind a name"
  | .missingTarget key => "missing binding for key '" ++ key ++ "'"
  | .emptyKey => "empty property key"
  | .invalidKey node => "invalid property key " ++ node.text

def ParamsFault.detail : ParamsFault → String
  | .listExpected node => "expected a parameter list, got " ++ node.text
  | .missingDefault => "parameter map needs a default value for every key"
  | .invalidName node => "invalid parameter name " ++ node.text

namespace SyntaxFault

def area : SyntaxFault → SyntaxArea
  | .stringExpected | .unexpectedObject _ | .programExpected => .node
  | .invalidIndex _ | .invalidFile _ => .position
  | .pattern _ _ => .pattern
  | .params _ _ => .params

def detail : SyntaxFault → String
  | .stringExpected => "\"str\" must hold a string"
  | .unexpectedObject names => "unexpected object with keys [" ++ ", ".intercalate names ++ "]"
  | .programExpected => "program must be an array of forms"
  | .invalidIndex field => "missing or invalid \"" ++ field ++ "\""
  | .invalidFile value => "file must be a string, got " ++ value.compact
  | .pattern fault _ => fault.detail
  | .params fault _ => fault.detail

def position : SyntaxFault → Option Position
  | .pattern _ p => p
  | .params _ p => p
  | _ => none

/-- The message of a fault: its family and what is wrong. -/
def message (fault : SyntaxFault) : String :=
  (match fault.area with
    | .node => "invalid node: "
    | .position => "invalid position metadata: "
    | .pattern => "invalid pattern: "
    | .params => "invalid parameter list: ") ++ fault.detail

end SyntaxFault

end LispLowering
