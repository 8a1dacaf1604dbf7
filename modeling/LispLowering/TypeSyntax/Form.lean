import LispLowering.Diagnostic.Fault
import LispLowering.TypeSyntax.Text

/-!
# Types written as trees

A list denotes the type that its head selects, and any other head is the name of a generic type. A
symbol is read as text, and a string is kept as it is.
-/

namespace LispLowering.TypeExpr

/-- The types that a head can select. -/
inductive Production where
  | union
  | intersection
  | keyof
  | indexedAccess
  | conditional
  | tuple
  | array
  | readonly
  | infer
  | typeof
  | mapped
  | function
  | spread
  deriving DecidableEq

def productions : List (String × Production) :=
  [("|", .union), ("&", .intersection), ("keyof", .keyof), ("[]", .indexedAccess),
   ("indexed", .indexedAccess), ("if-extends", .conditional), ("extends", .conditional),
   ("tuple", .tuple), ("vector", .tuple), ("array", .array), ("readonly", .readonly),
   ("infer", .infer), ("typeof", .typeof), ("mapped", .mapped), ("->", .function),
   ("fn", .function), ("...", .spread), ("rest", .spread)]

def ofLiteral : Literal → TypeExpr
  | .string text => .raw text
  | .number value => .literal (.number value)
  | .bool value => .literal (.bool value)
  | .null => .named "null"

def nameIn (production : String) (node : SExpr) : Except Diagnostic String :=
  match node with
  | .symbol name _ => .ok name
  | node => .error ((Fault.typeParamName production node).place node.position)

/-- The name and the type of a parameter `name:Type`. -/
def annotatedParam? (node : SExpr) : Option TypeParam :=
  match node.symbol?.bind (Text.divide? ':') with
  | some (name, type) => if name ≠ "" ∧ type ≠ "" then some ⟨name, ofText type⟩ else none
  | none => none

def wrongArity {α : Type} (p : Option Position) (name : String) (expected : Nat)
    (args : List SExpr) : Except Diagnostic α :=
  .error ((Fault.typeArity name expected args.length).place p)

mutual

def read : SExpr → Except Diagnostic TypeExpr
  | .symbol name _ => .ok (ofText name)
  | .literal value _ => .ok (ofLiteral value)
  | .list items p =>
    match items with
    | [] => .error (Fault.emptyType.place p)
    | head :: args =>
      match head.symbol? with
      | none => .error ((Fault.typeName head).place head.position)
      | some name =>
        match productions.lookup name with
        | none => do return .reference name (← readAll args)
        | some .union =>
          if args.isEmpty then .error ((Fault.typeMembers name).place p)
          else do return .union (← readAll args)
        | some .intersection =>
          if args.isEmpty then .error ((Fault.typeMembers name).place p)
          else do return .intersection (← readAll args)
        | some .keyof =>
          match args with
          | [type] => do return .keyof (← read type)
          | _ => wrongArity p name 1 args
        | some .indexedAccess =>
          match args with
          | [object, index] => do return .indexedAccess (← read object) (← read index)
          | _ => wrongArity p name 2 args
        | some .conditional =>
          match args with
          | [check, bound, trueType, falseType] => do
            return .conditional (← read check) (← read bound) (← read trueType) (← read falseType)
          | _ => wrongArity p name 4 args
        | some .tuple => do return .tuple (← readAll args)
        | some .array =>
          match args with
          | [element] => do return .array (← read element)
          | _ => wrongArity p name 1 args
        | some .readonly =>
          match args with
          | [type] => do return .readonly (← read type)
          | _ => wrongArity p name 1 args
        | some .infer =>
          match args with
          | [param] => do return .infer (← nameIn "infer" param)
          | _ => wrongArity p name 1 args
        | some .typeof =>
          match args with
          | [target] => do return .typeof (← nameIn "typeof" target)
          | _ => wrongArity p name 1 args
        | some .mapped =>
          match args with
          | [param, constraint, value] => do
            return .mapped (← nameIn "mapped" param) (← read constraint) (← read value)
          | _ => wrongArity p name 3 args
        | some .function =>
          match args with
          | [params, returnType] => do
            let params ← readParamList params
            return .function params (← read returnType)
          | _ => wrongArity p name 2 args
        | some .spread =>
          match args with
          | [type] => do return .spread (← read type)
          | _ => wrongArity p name 1 args

def readAll : List SExpr → Except Diagnostic (List TypeExpr)
  | [] => .ok []
  | node :: others => do
    let type ← read node
    let types ← readAll others
    return type :: types

def readParamList : SExpr → Except Diagnostic (List TypeParam)
  | .symbol name p => .error ((Fault.typeParamList (.symbol name p)).place p)
  | .literal value p => .error ((Fault.typeParamList (.literal value p)).place p)
  | .list items _ =>
    match items with
    | [] => .ok []
    | head :: others =>
      if head.isSymbol "vector" then readParams 0 others else readParams 0 (head :: others)

/-- Parameters from the one with the number `index` on. Those without a name are numbered. -/
def readParams : Nat → List SExpr → Except Diagnostic (List TypeParam)
  | _, [] => .ok []
  | index, node :: others => do
    let param ← match annotatedParam? node with
      | some param => .ok param
      | none => (read node).map fun type => ⟨"arg" ++ Text.decimal index, type⟩
    let params ← readParams (index + 1) others
    return param :: params

end

end LispLowering.TypeExpr
