import LispLowering.Lowering.ModulePath
import LispLowering.Lowering.Placement
import LispLowering.Source.Symbol

/-!
# Imports and exports

* `(import "./setup")` imports for the effects;
* `(import utils from "./utils")` imports a module under a name;
* `(import (a b as c) from "./lib")` imports names;
* `(export (a b as c))`, `(export default x)` and `(export (fn f () 1))` export.
-/

namespace LispLowering.Lowering

/-- Refuses a module form because of one of its parts. The message shows the whole form. -/
def refuseLinkage {α : Type} (form : Form) (linkage : Linkage) (part : SExpr) : Lower α :=
  form.refusePart part (.linkage linkage form.node)

/-- A name in a list of names, and the name that it gets on the other side. -/
structure LinkedName where
  name : String
  otherName : Option String

/-- Reads a list of names such as `a b as c`. -/
def readNames (form : Form) (linkage : Linkage) : List SExpr → Lower (List LinkedName)
  | [] => return []
  | .symbol name _ :: rest => do
    match rest with
    | [] => return [⟨name, none⟩]
    | mark :: more =>
      if mark.isSymbol "as" then
        match more with
        | .symbol otherName _ :: rest =>
          let names ← readNames form linkage rest
          return ⟨name, some otherName⟩ :: names
        | _ => refuseLinkage form linkage mark
      else
        let names ← readNames form linkage (mark :: more)
        return ⟨name, none⟩ :: names
  | node :: _ => refuseLinkage form linkage node

/-- A module path with the extension of source modules replaced. -/
def targetPath (options : Options) (path : String) : String :=
  if options.sourceExtension = "" then path
  else
    match Text.stripEnd? options.sourceExtension path with
    | some stem => stem ++ ".js"
    | none => path

/-! ## Imports -/

/-- What an import binds: a module as a whole, or names of it. -/
def importSpecifiers (form : Form) (binding : SExpr) : Lower (List Node) := do
  match binding with
  | .symbol name p => return [⟨.importNamespaceSpecifier (Symbol.identifier name), p⟩]
  | binding =>
    let names ← readNames form .inward binding.bindingItems
    return names.map fun linked =>
      Node.of (.importSpecifier linked.name (Symbol.identifier (linked.otherName.getD linked.name)))

def importFrom (form : Form) (specifiers : List Node) (source : SExpr) : Lower Node := do
  match source with
  | .literal (.string path) _ =>
    let context ← get
    return Node.of (.importDeclaration specifiers (targetPath context.options path)
      (ModulePath.resolve? context.directory path))
  | source => refuseLinkage form .inward source

def lowerImport (form : Form) : Lower Node := do
  match form.args with
  | [source] => importFrom form [] source
  | [binding, mark, source] =>
    if mark.isSymbol "from" then
      let specifiers ← importSpecifiers form binding
      importFrom form specifiers source
    else refuseLinkage form .inward form.node
  | _ => refuseLinkage form .inward form.node

def lowerDynamicImport (lower : Lowerer) (form : Form) : Lower Node := do
  match form.args with
  | [.literal (.string path) p] =>
    let source := (Node.string (targetPath (← get).options path)).place p
    return Node.of (.importExpression source)
  | [arg] =>
    let source ← lowerValue lower arg
    return Node.of (.importExpression source)
  | _ => form.wrongCount 1

/-! ## Exports -/

def isNameList (node : SExpr) : Bool :=
  node.isForm "vector" || node.isForm "empty-array" ||
    match node with
    | .list (.symbol head _ :: rest) _ =>
      rest.all (fun item => item.symbol?.isSome) && HeadMeaning.ofName head = .called
    | _ => false

/-- The node declares something that can be exported. -/
def isDeclaration (node : Node) : Bool :=
  match node.kind with
  | .variableDeclaration _ _ | .functionDeclaration _ | .classDeclaration _ _ _
  | .enumDeclaration _ _ _ | .typeAlias _ _ _ | .interface _ _ _ _ => true
  | _ => false

def exportNames (form : Form) (list : SExpr) : Lower Node := do
  let names ← readNames form .outward list.bindingItems
  return Node.of (.exportNamed none (names.map fun linked =>
    Node.of (.exportSpecifier (Symbol.identifier linked.name) (linked.otherName.getD linked.name))))

def exportDeclaration (lower : Lowerer) (form : Form) (declaration : SExpr) : Lower Node := do
  match ← lower declaration with
  | some node =>
    if isDeclaration node then return Node.of (.exportNamed (some node) [])
    else refuseLinkage form .outward declaration
  | none => refuseLinkage form .outward declaration

/-- `export`. -/
def lowerExport (lower : Lowerer) (form : Form) : Lower Node := do
  match form.args with
  | [mark, value] =>
    if mark.isSymbol "default" then
      let declaration ← lowerValue lower value
      return Node.of (.exportDefault declaration)
    else refuseLinkage form .outward form.node
  | [only] => if isNameList only then exportNames form only else exportDeclaration lower form only
  | _ => refuseLinkage form .outward form.node

end LispLowering.Lowering
