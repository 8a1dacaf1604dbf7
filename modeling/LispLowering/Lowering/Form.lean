import LispLowering.Lowering.Traversal

/-!
# Forms

A form is a list with a symbol at its head. The heads that have a meaning of their own are listed
here; every other head is called.
-/

namespace LispLowering

/-- A form: the whole tree, the name at its head and its arguments. -/
structure Form where
  node : SExpr
  name : String
  args : List SExpr

inductive Operator where
  | add
  | subtract
  | multiply
  | divide
  | remainder
  | power
  | relation (op : BinaryOp)
  | comparison (op : BinaryOp)
  | and
  | or
  | nullish
  | unary (op : UnaryOp)
  deriving DecidableEq

/-- The forms that have a meaning of their own. -/
inductive SpecialForm where
  | binding (kind : VariableKind)
  | assignment
  | function
  | generator
  | async
  | arrow
  | returning
  | yielding (delegate : Bool)
  | awaiting
  | branch
  | cond
  | sequence
  | throwing
  | trying
  | switching
  | label
  | loop
  | recur
  | whileLoop
  | forLoop
  | forOf (awaits : Bool)
  | forIn
  | breaking
  | continuing
  | vector
  | emptyArray
  | map
  | emptyMap
  | set
  | emptySet
  | get
  | construct
  | template
  | spread
  | methodCall
  | propertyGet
  | propertySet
  | getInvoke
  | quote
  | quasiquote
  | unquote
  | classForm
  | enumForm
  | typeAlias
  | interface
  | typeAssertion
  | importing
  | exporting
  | dynamicImport
  | operator (op : Operator)
  deriving DecidableEq

namespace SpecialForm

def heads : List (String × SpecialForm) :=
  [("let", .binding .fixed), ("const", .binding .fixed), ("var", .binding .changing),
   ("=", .assignment), ("set!", .assignment),
   ("fn", .function), ("fn*", .generator), ("async", .async), ("=>", .arrow),
   ("return", .returning), ("yield", .yielding false), ("yield*", .yielding true),
   ("await", .awaiting),
   ("if", .branch), ("cond", .cond), ("do", .sequence), ("throw", .throwing), ("try", .trying),
   ("switch", .switching), ("label", .label),
   ("loop", .loop), ("recur", .recur), ("while", .whileLoop), ("for", .forLoop),
   ("for-of", .forOf false), ("for-await-of", .forOf true), ("for-in", .forIn),
   ("break", .breaking), ("continue", .continuing),
   ("vector", .vector), ("empty-array", .emptyArray), ("hash-map", .map), ("empty-map", .emptyMap),
   ("hash-set", .set), ("empty-set", .emptySet), ("get", .get), ("new", .construct),
   ("template-literal", .template), ("...", .spread),
   ("js-call", .methodCall), ("js-get", .propertyGet), ("js-set", .propertySet),
   ("js-new", .construct), ("js-get-invoke", .getInvoke), ("method-call", .methodCall),
   ("quote", .quote), ("quasiquote", .quasiquote), ("unquote", .unquote),
   ("unquote-splicing", .unquote),
   ("class", .classForm), ("enum", .enumForm), ("type", .typeAlias), ("deftype", .typeAlias),
   ("interface", .interface), ("as", .typeAssertion),
   ("import", .importing), ("export", .exporting), ("dynamic-import", .dynamicImport),
   ("+", .operator .add), ("-", .operator .subtract), ("*", .operator .multiply),
   ("/", .operator .divide), ("%", .operator .remainder), ("**", .operator .power),
   ("==", .operator (.relation .eq)), ("===", .operator (.relation .strictEq)),
   ("!=", .operator (.relation .ne)), ("!==", .operator (.relation .strictNe)),
   ("instanceof", .operator (.relation .instanceOf)), ("in", .operator (.relation .isIn)),
   ("<", .operator (.comparison .lt)), (">", .operator (.comparison .gt)),
   ("<=", .operator (.comparison .le)), (">=", .operator (.comparison .ge)),
   ("and", .operator .and), ("&&", .operator .and), ("or", .operator .or), ("||", .operator .or),
   ("??", .operator .nullish), ("not", .operator (.unary .not)), ("!", .operator (.unary .not)),
   ("typeof", .operator (.unary .typeOf)), ("void", .operator (.unary .void)),
   ("delete", .operator (.unary .delete))]

end SpecialForm

/-- What a symbol at the head of a list means. -/
inductive HeadMeaning where
  /-- The list is a special form. -/
  | special (form : SpecialForm)
  /-- The list defines how forms are expanded, which has happened before: it stands for nothing. -/
  | dropped
  /-- The list is a call. -/
  | called
  deriving DecidableEq

/-- What the symbol `name` means at the head of a list. -/
def HeadMeaning.ofName (name : String) : HeadMeaning :=
  if name = "macro" ∨ name = "defmacro" then .dropped
  else
    match SpecialForm.heads.lookup name with
    | some form => .special form
    | none => .called

namespace Form

variable {α : Type}

def position (form : Form) : Option Position := form.node.position

/-! ## Refusing a form -/

def refuse (form : Form) (fault : Fault) : Lower α := Lower.refuse (fault.place form.position)

/-- Refuses a part of the form. A part without a position is located at the form. -/
def refusePart (form : Form) (part : SExpr) (fault : Fault) : Lower α :=
  Lower.refuse (fault.place (part.position.or form.position))

def wrongCount (form : Form) (expected : Nat) : Lower α :=
  form.refuse (.exactly form.name expected form.args.length)

def tooFew (form : Form) (least : Nat) : Lower α :=
  form.refuse (.atLeast form.name least form.args.length)

def outOfRange (form : Form) (least most : Nat) : Lower α :=
  form.refuse (.between form.name least most form.args.length)

/-- The name in a part of the form that has to be a symbol. -/
def symbolIn (form : Form) (part : String) : Option SExpr → Lower String
  | none => form.refuse (.missingPart form.name part)
  | some (.symbol name _) => pure name
  | some node => form.refusePart node (.invalidPart part form.name node)

end Form

/-- The items of a binding list: a list, without the head that marks it as a vector. -/
def SExpr.bindingItems : SExpr → List SExpr
  | .list (head :: rest) _ =>
    if head.isSymbol "vector" || head.isSymbol "empty-array" then rest else head :: rest
  | _ => []

end LispLowering
