import LispLowering.Lowering.Placement
import LispLowering.Source.Symbol
import LispLowering.TypeSyntax.Form
import LispLowering.TypeSyntax.Generics

/-!
# Declarations of types
-/

namespace LispLowering.Lowering

def lowerTypeAlias (form : Form) : Lower Node := do
  match form.args with
  | [nameNode, typeNode] =>
    let symbol ← form.symbolIn "a type name" (some nameNode)
    let declared := GenericName.ofSymbol symbol
    let type ← Lower.ofExcept (TypeExpr.read typeNode)
    return Node.of (.typeAlias (Symbol.identifier declared.name) declared.params type)
  | _ => form.wrongCount 2

def lowerTypeAssertion (lower : Lowerer) (form : Form) : Lower Node := do
  match form.args with
  | [expression, typeNode] =>
    let expression ← lowerValue lower expression
    let type ← Lower.ofExcept (TypeExpr.read typeNode)
    return Node.of (.typeAssertion expression type)
  | _ => form.wrongCount 2

/-! ## Interfaces -/

/-- The key of a member, and whether a question mark makes it optional. -/
def splitOptional (key : String) : String × Bool :=
  match (Text.stripEnd? "?" key).filter fun base => base ≠ "" with
  | some base => (base, true)
  | none => (key, false)

def readMember (form : Form) (readonly : Bool) (key typeNode : SExpr) : Lower InterfaceMember := do
  match key with
  | .symbol name _ =>
    let (key, optional) := splitOptional name
    let type ← Lower.ofExcept (TypeExpr.read typeNode)
    return { key, type, optional, readonly }
  | key => form.refusePart key (.interfaceMemberName key)

/-- Reads a member of an interface: `(name Type)` or `(readonly name Type)`. -/
def readInterfaceMember (form : Form) (entry : SExpr) : Lower InterfaceMember :=
  match entry with
  | .list [mark, key, typeNode] _ =>
    if mark.isSymbol "readonly" then readMember form true key typeNode
    else form.refusePart entry (.interfaceMember entry)
  | .list [key, typeNode] _ => readMember form false key typeNode
  | _ => form.refusePart entry (.interfaceMember entry)

structure InterfaceParts where
  parents : List TypeExpr := []
  members : List InterfaceMember := []

def readInterfaceParts (form : Form) : List SExpr → Lower InterfaceParts
  | [] => return {}
  | entry :: rest => do
    if entry.isForm "extends" then
      let bases := (entry.items?.getD []).tail
      let parents ← Lower.ofExcept (TypeExpr.readAll bases)
      let parts ← readInterfaceParts form rest
      return { parts with parents := parents ++ parts.parents }
    else
      let member ← readInterfaceMember form entry
      let parts ← readInterfaceParts form rest
      return { parts with members := member :: parts.members }

def lowerInterface (form : Form) : Lower Node := do
  let symbol ← form.symbolIn "an interface name" form.args.head?
  let declared := GenericName.ofSymbol symbol
  let parts ← readInterfaceParts form form.args.tail
  return Node.of
    (.interface (Symbol.identifier declared.name) declared.params parts.parents parts.members)

end LispLowering.Lowering
