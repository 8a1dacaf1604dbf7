import LispLowering.Binary64.Basic

/-!
# Type expressions

Types are carried along with a program; nothing here checks them.
-/

namespace LispLowering

inductive TypeLiteral where
  | string (value : String)
  | number (value : Binary64)
  | bool (value : Bool)
  deriving DecidableEq, Inhabited

mutual

inductive TypeExpr where
  | reference (name : String) (args : List TypeExpr)
  | literal (value : TypeLiteral)
  | union (members : List TypeExpr)
  | intersection (members : List TypeExpr)
  | keyof (type : TypeExpr)
  | indexedAccess (object index : TypeExpr)
  | conditional (check bound trueType falseType : TypeExpr)
  | tuple (elements : List TypeExpr)
  | array (element : TypeExpr)
  | readonly (type : TypeExpr)
  | infer (name : String)
  | typeof (name : String)
  | mapped (param : String) (constraint value : TypeExpr)
  | function (params : List TypeParam) (returnType : TypeExpr)
  | spread (type : TypeExpr)
  | raw (text : String)

structure TypeParam where
  name : String
  type : TypeExpr

end

instance : Inhabited TypeExpr := ⟨.raw ""⟩

def TypeExpr.named (name : String) : TypeExpr := .reference name []

end LispLowering
