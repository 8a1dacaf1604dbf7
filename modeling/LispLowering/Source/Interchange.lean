import LispLowering.Source.Fault

/-!
# Trees in their interchange form

Trees arrive as JSON values: an array is a list, a string is a symbol, a number, a boolean and null
are literals, an object with `str` is a string literal, and an object with `node`, `line` and
`column` is a tree at a position. An object is looked at for `str` first, and the inner tree is read
before the position around it.
-/

namespace LispLowering.SExpr

def indexOf (field : String) (members : List (String × Json)) : Except SyntaxFault Nat :=
  match (Json.lookup field members).bind Json.index? with
  | some n => .ok n
  | none => .error (.invalidIndex field)

/-- The file of a position; null counts as none. -/
def fileOf (members : List (String × Json)) : Except SyntaxFault (Option String) :=
  match Json.lookup "file" members with
  | none | some .null => .ok none
  | some (.str file) => .ok (some file)
  | some other => .error (.invalidFile other)

/-- The position that an object gives to the tree inside it. -/
def positionOf (members : List (String × Json)) : Except SyntaxFault Position := do
  let line ← indexOf "line" members
  let column ← indexOf "column" members
  let file ← fileOf members
  return { line, column, file }

mutual

def ofJson : Json → Except SyntaxFault SExpr
  | .null => .ok (.literal .null none)
  | .bool value => .ok (.literal (.bool value) none)
  | .int n => .ok (.literal (.number (Binary64.ofInt n)) none)
  | .float x => .ok (.literal (.number x) none)
  | .str name => .ok (.symbol name none)
  | .arr items => do return .list (← ofItems items) none
  | .obj members =>
    match Json.lookup "str" members with
    | some (.str text) => .ok (.literal (.string text) none)
    | some _ => .error .stringExpected
    | none =>
      match ofNodeMember members with
      | some result => do
        let node ← result
        let position ← positionOf members
        return node.place (some position)
      | none => .error (.unexpectedObject (Json.names members))

def ofItems : List Json → Except SyntaxFault (List SExpr)
  | [] => .ok []
  | item :: rest => do
    let node ← ofJson item
    let nodes ← ofItems rest
    return node :: nodes

/-- The tree in the last member called `node`. -/
def ofNodeMember : List (String × Json) → Option (Except SyntaxFault SExpr)
  | [] => none
  | (name, value) :: rest =>
    (ofNodeMember rest).or (if name = "node" then some (ofJson value) else none)

end

/-- The trees of a program, which is an array. -/
def ofProgram : Json → Except SyntaxFault (List SExpr)
  | .arr items => ofItems items
  | _ => .error .programExpected

end LispLowering.SExpr
