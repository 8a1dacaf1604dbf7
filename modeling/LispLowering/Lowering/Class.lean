import LispLowering.Lowering.Function

/-!
# Classes

A class form lists a parent, fields and methods:

    (class Point (extends Base)
      (field x 0)
      (constructor (x) (= this.x x))
      (fn norm () (Math.sqrt (* this.x this.x)))
      (static (fn origin () (new Point 0))))
-/

namespace LispLowering.Lowering

/-! ## Methods -/

structure MethodShape where
  key : String
  kind : MethodKind
  isAsync : Bool := false
  isGenerator : Bool := false
  params : SExpr
  body : List SExpr

/-- A method with its name in front of its parameters. -/
def namedMethod? (kind : MethodKind) (isAsync isGenerator : Bool) : List SExpr → Option MethodShape
  | .symbol key _ :: params :: body => some { key, kind, isAsync, isGenerator, params, body }
  | _ => none

/-- The method that a member with the given head and the given further parts describes. -/
def methodShape? (head : String) (parts : List SExpr) : Option MethodShape :=
  match head with
  | "constructor" =>
    match parts with
    | params :: body => some { key := "constructor", kind := .constructor, params, body }
    | [] => none
  | "fn" => namedMethod? .method false false parts
  | "fn*" => namedMethod? .method false true parts
  | "async" =>
    match parts with
    | .symbol "fn" _ :: parts => namedMethod? .method true false parts
    | .symbol "fn*" _ :: parts => namedMethod? .method true true parts
    | _ => none
  | "getter" => namedMethod? .getter false false parts
  | "setter" => namedMethod? .setter false false parts
  | _ => none

/-- A method of this kind has the value of its last form as its own. -/
def returnsLast : MethodKind → Bool
  | .method | .getter => true
  | .constructor | .setter => false

def lowerMethod (lower : Lowerer) (shape : MethodShape) (static : Bool) (p : Option Position) :
    Lower Node := do
  let params ← Lower.ofSyntax (ParamList.read shape.params)
  if shape.kind = .setter ∧ params.params.length ≠ 1 then
    Lower.refuse ((Fault.setterParams shape.key).place p)
  else
    let function ← buildFunction lower
      { params
        body := shape.body
        isAsync := shape.isAsync
        isGenerator := shape.isGenerator
        returnsLast := returnsLast shape.kind
        position := p }
    return ⟨.methodDefinition (Symbol.property shape.key) function shape.kind static, p⟩

/-! ## Members -/

def isFieldHead (head : String) : Bool := ["field", "var", "let", "const"].contains head

structure FieldShape where
  key : String
  value : Option SExpr
  readonly : Bool

/-- The field that a member with the given head and the given further parts describes. A constant has
a value, and an annotation of the name is dropped. -/
def fieldShape? (head : String) (parts : List SExpr) : Option FieldShape :=
  let readonly := head = "const"
  let plain (name : String) : String := ((Text.divide? ':' name).map Prod.fst).getD name
  match parts with
  | [.symbol name _] => if readonly then none else some ⟨plain name, none, readonly⟩
  | [.symbol name _, value] => some ⟨plain name, some value, readonly⟩
  | _ => none

def lowerMember (lower : Lowerer) (form : Form) (member : SExpr) (static : Bool) : Lower Node := do
  match member with
  | .list (.symbol head _ :: parts) p =>
    if isFieldHead head then
      match fieldShape? head parts with
      | some field =>
        let value ← Lower.option (lowerValue lower) field.value
        return ⟨.propertyDefinition (Symbol.property field.key) value static field.readonly, p⟩
      | none => form.refusePart member (.classMember member)
    else
      match methodShape? head parts with
      | some shape => lowerMethod lower shape static p
      | none => form.refusePart member (.classMember member)
  | _ => form.refusePart member (.classMember member)

/-- The member inside a static clause. -/
def staticMember? : SExpr → Option SExpr
  | .list [head, inner] _ => if head.isSymbol "static" then some inner else none
  | _ => none

def isConstructor (node : Node) : Bool :=
  match node.kind with
  | .methodDefinition _ _ .constructor _ => true
  | _ => false

/-- What has been lowered of a class so far. -/
structure ClassParts where
  parent : Option Node := none
  hasConstructor : Bool := false
  members : List Node := []

/-- Lowers a member and adds it to a class, which has one constructor at most. -/
def addMember (lower : Lowerer) (form : Form) (name : String) (parts : ClassParts)
    (member : SExpr) (static : Bool) : Lower ClassParts := do
  let lowered ← lowerMember lower form member static
  if isConstructor lowered && parts.hasConstructor then
    form.refusePart member (.duplicateConstructor name)
  else
    return { parts with
      hasConstructor := parts.hasConstructor || isConstructor lowered
      members := parts.members ++ [lowered] }

def lowerClassParts (lower : Lowerer) (form : Form) (name : String) (parts : ClassParts) :
    List SExpr → Lower ClassParts
  | [] => return parts
  | clause :: rest => do
    if clause.isForm "extends" then
      if parts.parent.isSome then form.refusePart clause (.duplicateParent name)
      else
        match clause with
        | .list [_, base] _ =>
          let parent ← lowerValue lower base
          lowerClassParts lower form name { parts with parent := some parent } rest
        | _ => form.refusePart clause .parentClause
    else
      let parts ← match staticMember? clause with
        | some inner => addMember lower form name parts inner true
        | none => addMember lower form name parts clause false
      lowerClassParts lower form name parts rest

def lowerClass (lower : Lowerer) (form : Form) : Lower Node := do
  let name ← form.symbolIn "a class name" form.args.head?
  let parts ← lowerClassParts lower form name {} form.args.tail
  return Node.of (.classDeclaration (Symbol.identifier name) parts.parent parts.members)

end LispLowering.Lowering
