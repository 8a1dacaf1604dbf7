import LispLowering.Diagnostic.Fault
import LispLowering.Source.Symbol
import LispLowering.Target.Build

/-!
# References

A symbol in the place of a value: a constant, a keyword, a name of the host, a spread, a chain of
members or a plain name.
-/

namespace LispLowering.Lowering

/-! ## Member chains -/

/-- One access of a chain. A segment of digits is an index. -/
def accessSegment (p : Option Position) (object : Node) (segment : Symbol.Segment) : Node :=
  if segment.name.toList.all Char.isDigit then
    let index := Node.number (Binary64.ofDecimal false (Binary64.digitsValue segment.name.toList) 0)
    (Node.index object (index.place p)).place p
  else if segment.optional then
    ⟨.optionalMember object (Node.ident (Symbol.property segment.name)) false true, p⟩
  else (Node.member object (Symbol.property segment.name)).place p

def chainRoot (name : String) : Node :=
  if name = "this" then Node.of .thisValue else Node.ident (Symbol.identifier name)

def memberChain (name : String) (p : Option Position) : Except Diagnostic Node :=
  match Symbol.chain? name with
  | some (root :: segments) => .ok (segments.foldl (accessSegment p) ((chainRoot root.name).place p))
  | _ => .error ((Fault.memberAccess name).place p)

/-- A name of the host, which is kept as it is written. -/
def foreignReference (name : String) (p : Option Position) : Except Diagnostic Node :=
  match Text.pieces '.' name with
  | root :: members =>
    if root ≠ "" ∧ members.all (· ≠ "") then
      .ok (members.foldl (fun object part => (Node.member object part).place p)
        ((Node.ident root).place p))
    else .error ((Fault.foreignReference name).place p)
  | [] => .error ((Fault.foreignReference name).place p)

/-! ## Symbols -/

def constants : List (String × NodeKind) :=
  [("true", .literal (.bool true)), ("false", .literal (.bool false)), ("null", .literal .null),
   ("nil", .literal .null), ("undefined", .identifier "undefined" none), ("this", .thisValue)]

/-- The value of a symbol that is not spread. -/
def plainReference (name : String) (p : Option Position) : Except Diagnostic Node :=
  match constants.lookup name with
  | some kind => .ok ⟨kind, p⟩
  | none =>
    match Text.stripStart? "js/" name with
    | some foreign => foreignReference foreign p
    | none =>
      match Symbol.keyword? name with
      | some keyword => .ok ((Node.string keyword).place p)
      | none =>
        if Symbol.isChain name then memberChain name p
        else .ok ((Node.ident (Symbol.identifier name)).place p)

/-- The value of a symbol, given by its characters. Three dots in front spread what follows, unless
the whole is a keyword. -/
def referenceChars (p : Option Position) : List Char → Except Diagnostic Node
  | '.' :: '.' :: '.' :: c :: rest =>
    match Symbol.keyword? (String.ofList ('.' :: '.' :: '.' :: c :: rest)) with
    | some keyword => .ok ((Node.string keyword).place p)
    | none => (referenceChars p (c :: rest)).map fun target => ⟨.spread target, p⟩
  | cs => plainReference (String.ofList cs) p

def reference (name : String) (p : Option Position) : Except Diagnostic Node :=
  referenceChars p name.toList

end LispLowering.Lowering
