import LispLowering.Proofs.Inside

/-!
# What forms do
-/

namespace LispLowering

abbrev Scopes := List (List String)

namespace Scopes

/-- More names in the innermost scope. Outside of every scope nothing is noted. -/
def extend : Scopes → List String → Scopes
  | [], _ => []
  | scope :: rest, names => (scope ++ names) :: rest

def has (scopes : Scopes) (name : String) : Bool := scopes.any fun scope => scope.contains name

@[simp] theorem extend_nil (scopes : Scopes) : scopes.extend [] = scopes := by
  cases scopes <;> simp [extend]

@[simp] theorem extend_extend (scopes : Scopes) (names more : List String) :
    (scopes.extend names).extend more = scopes.extend (names ++ more) := by
  cases scopes <;> simp [extend]

end Scopes

/-! ## Scripts -/

/-- The places in which trees are lowered. -/
inductive Place where
  /-- As a value. -/
  | value
  /-- As a statement or a value, whatever it is. -/
  | statement
  /-- As a statement of a loop, which is put into a wrapper. -/
  | looped
  /-- As a default of a parameter. -/
  | default
  /-- As a statement of a function. -/
  | inner
  deriving DecidableEq

/-- What a function form declares: the name, the parameters and the body of the function. -/
structure Signature where
  name : String
  params : ParamList
  body : List SExpr

/-- What a form does itself besides lowering its trees. -/
inductive Act where
  /-- It leaves the innermost function. -/
  | leave
  | await
  | yield
  /-- It makes an object of the arguments of a map. -/
  | object (args : List SExpr)
  /-- It declares a function. -/
  | declare (signature : Signature)
  /-- It jumps back to the innermost loop. -/
  | jump

/-- What happens while a tree is lowered, one thing after another. -/
inductive Script where
  | done
  /-- A tree is lowered in a place. -/
  | visit (place : Place) (tree : SExpr) (rest : Script)
  /-- Names are added to the innermost scope. -/
  | bind (names : List String) (rest : Script)
  /-- Names come into scope in the target, of which no note is taken. -/
  | unnoted (names : List String) (rest : Script)
  /-- A scope is opened with names of its own, and closed again. -/
  | scope (names : List String) (inner rest : Script)
  /-- A scope is opened and closed in the target, of which no note is taken. -/
  | block (inner rest : Script)
  /-- The form does something itself. -/
  | act (own : Act) (rest : Script)

/-- A tree that is lowered: the scopes around it of which lowering takes note, and those of the target. -/
structure Site where
  tree : SExpr
  noted : Scopes
  lexical : Scopes

namespace Script

def append : Script → Script → Script
  | .done, next => next
  | .visit place tree rest, next => .visit place tree (append rest next)
  | .bind names rest, next => .bind names (append rest next)
  | .unnoted names rest, next => .unnoted names (append rest next)
  | .scope names inner rest, next => .scope names inner (append rest next)
  | .block inner rest, next => .block inner (append rest next)
  | .act own rest, next => .act own (append rest next)

instance : Append Script := ⟨append⟩

/-- The same script with all of its trees in one place. -/
def inPlace (place : Place) : Script → Script
  | .done => .done
  | .visit _ tree rest => .visit place tree (inPlace place rest)
  | .bind names rest => .bind names (inPlace place rest)
  | .unnoted names rest => .unnoted names (inPlace place rest)
  | .scope names inner rest => .scope names (inPlace place inner) (inPlace place rest)
  | .block inner rest => .block (inPlace place inner) (inPlace place rest)
  | .act own rest => .act own (inPlace place rest)

/-! ## The two readings

Both take the names for granted that each tree inside adds to the scope around it: `noted` those of which
lowering takes note, and `lexical` those that are in scope in the target. -/

variable (noted lexical : SExpr → List String)

/-- The names that lowering adds to the innermost scope. -/
def notedNames : Script → List String
  | .done => []
  | .visit _ tree rest => noted tree ++ notedNames rest
  | .bind names rest => names ++ notedNames rest
  | .unnoted _ rest | .scope _ _ rest | .act _ rest => notedNames rest
  | .block inner rest => notedNames inner ++ notedNames rest

/-- The names that come into scope in the target. Those of which no note is taken stay in the block
around them. -/
def lexicalNames : Script → List String
  | .done => []
  | .visit _ tree rest => lexical tree ++ lexicalNames rest
  | .bind names rest => names ++ lexicalNames rest
  | .unnoted _ rest | .scope _ _ rest | .block _ rest | .act _ rest => lexicalNames rest

/-- The trees that are lowered, each with the scopes of which note is taken. -/
def visits : Script → Scopes → List (SExpr × Scopes)
  | .done, _ => []
  | .visit _ tree rest, scopes => (tree, scopes) :: visits rest (scopes.extend (noted tree))
  | .bind names rest, scopes => visits rest (scopes.extend names)
  | .unnoted _ rest, scopes | .act _ rest, scopes => visits rest scopes
  | .scope names inner rest, scopes => visits inner (names :: scopes) ++ visits rest scopes
  | .block inner rest, scopes =>
    visits inner scopes ++ visits rest (scopes.extend (notedNames noted inner))

/-- The trees that are lowered, each with the scopes of both readings. -/
def sites : Script → Scopes → Scopes → List Site
  | .done, _, _ => []
  | .visit _ tree rest, around, target =>
    ⟨tree, around, target⟩ :: sites rest (around.extend (noted tree)) (target.extend (lexical tree))
  | .bind names rest, around, target => sites rest (around.extend names) (target.extend names)
  | .unnoted names rest, around, target => sites rest around (target.extend names)
  | .scope names inner rest, around, target =>
    sites inner (names :: around) (names :: target) ++ sites rest around target
  | .block inner rest, around, target =>
    sites inner around ([] :: target) ++ sites rest (around.extend (notedNames noted inner)) target
  | .act _ rest, around, target => sites rest around target

def trees : Script → List SExpr
  | .done => []
  | .visit _ tree rest => tree :: trees rest
  | .bind _ rest | .unnoted _ rest | .act _ rest => trees rest
  | .scope _ inner rest | .block inner rest => trees inner ++ trees rest

/-! ## Scripts that forms share -/

/-- A tree is lowered as a value. A statement is put into a wrapper. -/
def value (tree : SExpr) : Script := .block (.visit .value tree .done) .done

/-- The scripts of several things, one after another. -/
def each {α : Type} (one : α → Script) : List α → Script
  | [] => .done
  | item :: rest => one item ++ each one rest

def values (trees : List SExpr) : Script := each value trees

def statements (trees : List SExpr) : Script := each (.visit .statement · .done) trees

def declaring : Option Signature → Script → Script
  | some signature, rest => .act (.declare signature) rest
  | none, rest => rest

end Script

namespace Pattern

mutual

def names : Pattern → List String
  | ⟨kind, _, _⟩ => kindNames kind

def kindNames : PatternKind → List String
  | .identifier name _ => [Symbol.identifier name]
  | .array elements => elementNames elements
  | .object properties rest => propertyNames properties ++ restNames rest
  | .rest inner => names inner
  | .skip => []

def elementNames : List Pattern → List String
  | [] => []
  | element :: rest => names element ++ elementNames rest

def propertyNames : List PropertyPattern → List String
  | [] => []
  | ⟨_, value⟩ :: rest => names value ++ propertyNames rest

def restNames : Option Pattern → List String
  | none => []
  | some rest => names rest

end

/-- The names that the parameter at `index` binds. A skipped one gets a name by number. -/
def paramNames (index : Nat) (param : Pattern) : List String :=
  match param.kind with
  | .skip => ["__unused_" ++ Text.decimal index]
  | _ => param.names

end Pattern

namespace Lowering

/-- The defaults of a binding target. -/
def targetScript (target : SExpr) : Script :=
  match Pattern.read target with
  | .ok pattern => .values pattern.defaults
  | .error _ => .done

def targetNames (target : SExpr) : List String :=
  match Pattern.read target with
  | .ok pattern => pattern.names
  | .error _ => []

/-- A declaration: its names are in scope only behind its value. -/
def declarationScript (target : SExpr) (value : List SExpr) : Script :=
  targetScript target ++ (.values value ++ .bind (targetNames target) .done)

def pairsScript : List SExpr → Script
  | target :: value :: rest => declarationScript target [value] ++ pairsScript rest
  | _ => .done

/-- An argument of a call; of a spread, what it spreads. -/
def argumentScript (arg : SExpr) : Script :=
  match spreadTarget? arg with
  | some (.form node) => .value node
  | some (.symbol _) => .done
  | none => .value arg

def argumentsScript (args : List SExpr) : Script := .each argumentScript args

def paramsNames : Nat → List Pattern → List String
  | _, [] => []
  | index, param :: rest => param.paramNames index ++ paramsNames (index + 1) rest

/-- The defaults of parameters. In the target a parameter is in scope in the defaults behind it. -/
def defaultsScript : Nat → List Pattern → Script
  | _, [] => .done
  | index, param :: rest =>
    .values param.defaults ++ .unnoted (param.paramNames index) (defaultsScript (index + 1) rest)

/-- A function, which is declared under a name if it has one, between the defaults of its parameters and
its body. -/
def functionScript (name : Option String) (params : ParamList) (body : List SExpr) : Script :=
  .block ((defaultsScript 0 params.params).inPlace .default)
    (.declaring (name.map fun name => ⟨name, params, body⟩)
      (.scope (paramsNames 0 params.params) ((Script.statements body).inPlace .inner) .done))

def paramsScript (name : Option String) (params : SExpr) (body : List SExpr) : Script :=
  match ParamList.read params with
  | .ok list => functionScript name list body
  | .error _ => .done

/-! ## Scripts of forms -/

def bindingScript : List SExpr → Script
  | .list items p :: rest =>
    if rest.length = 1 ∧ isDestructuring (.list items p) then declarationScript (.list items p) rest
    else .scope [] (pairsScript (SExpr.list items p).bindingItems ++ .statements rest) .done
  | .symbol name p :: rest => declarationScript (.symbol name p) rest
  | _ => .done

def assignmentScript : List SExpr → Script
  | [target, value] =>
    (if isDestructuring target then targetScript target else .value target) ++ .value value
  | _ => .done

/-- A function form behind its name. -/
def functionFormScript (name : Option String) : List SExpr → Script
  | params :: body => paramsScript name params (splitReturnType body).2
  | [] => .done

def fnScript : List SExpr → Script
  | .symbol name _ :: parts =>
    functionFormScript (some (Symbol.identifier (GenericName.ofSymbol name).name)) parts
  | parts => functionFormScript none parts

def arrowScript : List SExpr → Script
  | first :: rest =>
    if hasParamVector (first :: rest) then paramsScript none first rest
    else functionScript none ⟨implicitParams (implicitArity (first :: rest)), false⟩ (first :: rest)
  | [] => .done

def asyncTargetScript (head : String) (args : List SExpr) : Script :=
  match head with
  | "fn" | "fn*" => fnScript args
  | "=>" => arrowScript args
  | _ => .done

def asyncScript : List SExpr → Script
  | .symbol head _ :: args => asyncTargetScript head args
  | [.list (.symbol head _ :: args) _] => asyncTargetScript head args
  | _ => .done

def branchScript : List SExpr → Script
  | test :: branches => .value test ++ .statements branches
  | [] => .done

/-- Forms one after another. Several have a block of their own. -/
def sequenceScript : List SExpr → Script
  | [] => .done
  | [single] => .visit .statement single .done
  | many => .scope [] (.statements many) .done

def condScript : List SExpr → Script
  | .list (test :: body) _ :: rest =>
    (if isElse test then .done else .value test) ++ (sequenceScript body ++ condScript rest)
  | _ => .done

def catchScript : List SExpr → Script
  | .symbol name p :: body =>
    targetScript (.symbol name p) ++
      .scope [] (.bind (targetNames (.symbol name p)) (.statements body)) .done
  | body => .scope [] (.statements body) .done

def tryClausesScript : List SExpr → Script
  | .list (.symbol "catch" _ :: parts) _ :: rest => catchScript parts ++ tryClausesScript rest
  | .list (.symbol "finally" _ :: body) _ :: rest => .block (.statements body) (tryClausesScript rest)
  | _ => .done

def tryScript (args : List SExpr) : Script :=
  .block (.statements (args.takeWhile fun arg => !isTryClause arg))
    (tryClausesScript (args.dropWhile fun arg => !isTryClause arg))

/-- The clauses of `switch`, which share one block in the target. -/
def switchClausesScript : List SExpr → Script
  | .list (.symbol "case" _ :: test :: body) _ :: rest =>
    .value test ++ (.statements body ++ switchClausesScript rest)
  | .list (.symbol "default" _ :: body) _ :: rest => .statements body ++ switchClausesScript rest
  | _ => .done

def switchScript : List SExpr → Script
  | discriminant :: clauses => .value discriminant ++ .block (switchClausesScript clauses) .done
  | [] => .done

def loopScript : List SExpr → Script
  | bindings :: body =>
    .scope [] (pairsScript bindings.bindingItems ++ (Script.statements body).inPlace .looped) .done
  | [] => .done

def whileScript : List SExpr → Script
  | test :: body => .value test ++ .scope [] (.statements body) .done
  | [] => .done

/-- `for`. In the target the counter is in scope in the limit and in the step. -/
def forScript : List SExpr → Script
  | spec :: body =>
    match ForRange.ofItems? spec.bindingItems with
    | some range =>
      .block
        (targetScript range.counter ++ (.values range.start.toList ++
          .unnoted (targetNames range.counter) (.value range.stop ++ .values range.step.toList)))
        (.scope [] (.bind (targetNames range.counter) (.statements body)) .done)
    | none => .done
  | [] => .done

def iterationScript : List SExpr → Script
  | spec :: body =>
    match spec.bindingItems with
    | [target, collection] =>
      targetScript target ++ (.value collection ++
        .scope [] (.bind (targetNames target) (.statements body)) .done)
    | _ => .done
  | [] => .done

/-- An entry of a map. A key that is no name is lowered after the value. -/
def entryScript (key value : SExpr) : Script :=
  .value value ++ if (directKey? key).isSome then .done else .value key

def entriesScript : List SExpr → Script
  | [] => .done
  | [last] => argumentScript last
  | first :: second :: rest =>
    if isSpread first then argumentScript first ++ entriesScript (second :: rest)
    else entryScript first second ++ entriesScript rest

def calleeScript : List SExpr → Script
  | callee :: args => .value callee ++ argumentsScript args
  | [] => .done

def propertyCallScript : List SExpr → Script
  | receiver :: _ :: args => .value receiver ++ argumentsScript args
  | _ => .done

def propertySetScript : List SExpr → Script
  | [object, _, value] => .values [object, value]
  | _ => .done

def templateScript : List SExpr → Script
  | [] => .done
  | .literal (.string _) _ :: parts => templateScript parts
  | part :: parts => .value part ++ templateScript parts

mutual

/-- A quasiquotation: what is unquoted at depth one. -/
def quasiScript (depth : Nat) : SExpr → Script
  | .list items _ =>
    match items with
    | [head, tree] =>
      match QuoteMark.ofHead head with
      | .unquote => if depth = 1 then .value tree else quasiScript (depth - 1) tree
      | .quasiquote => quasiScript (depth + 1) tree
      | .splice => quasiItemsScript depth [head, tree]
      | .none => quasiItemsScript depth [head, tree]
    | items => quasiItemsScript depth items
  | _ => .done

def quasiItemsScript (depth : Nat) : List SExpr → Script
  | [] => .done
  | item :: rest =>
    (match spliced? item, depth with
      | some tree, 1 => .value tree
      | _, _ => quasiScript depth item) ++ quasiItemsScript depth rest

end

def memberScript : SExpr → Script
  | .list (.symbol head _ :: parts) _ =>
    if isFieldHead head then
      match fieldShape? head parts with
      | some field => .values field.value.toList
      | none => .done
    else
      match methodShape? head parts with
      | some shape => paramsScript none shape.params shape.body
      | none => .done
  | _ => .done

def classClauseScript (clause : SExpr) : Script :=
  if clause.isForm "extends" then .values clause.children.tail
  else memberScript ((staticMember? clause).getD clause)

/-- What a case of an enumeration carries: a single literal is its value. -/
def caseValuesScript : List SExpr → Script
  | [.literal value p] => .value (.literal value p)
  | _ => .done

def caseScript : SExpr → Script
  | .list (.symbol "case" _ :: _ :: values) _ => caseValuesScript values
  | _ => .done

def exportScript : List SExpr → Script
  | [_, value] => .value value
  | [only] => if isNameList only then .done else .visit .statement only .done
  | _ => .done

def specialScript (special : SpecialForm) (args : List SExpr) : Script :=
  match special with
  | .binding _ => bindingScript args
  | .assignment => assignmentScript args
  | .function | .generator => fnScript args
  | .async => asyncScript args
  | .arrow => arrowScript args
  | .throwing | .get | .spread | .operator _ => .values args
  | .recur => .values args ++ .act .jump .done
  | .returning => .values args ++ .act .leave .done
  | .yielding _ => .values args ++ .act .yield .done
  | .awaiting => .values args ++ .act .await .done
  | .branch => branchScript args
  | .cond => condScript args
  | .sequence => sequenceScript args
  | .trying => tryScript args
  | .switching => switchScript args
  | .label => .block (.statements args.tail) .done
  | .loop => loopScript args
  | .whileLoop => whileScript args
  | .forLoop => forScript args
  | .forOf false | .forIn => iterationScript args
  | .forOf true => iterationScript args ++ .act .await .done
  | .vector | .set => argumentsScript args
  | .map => entriesScript args ++ .act (.object args) .done
  | .construct => calleeScript args
  | .template | .dynamicImport => templateScript args
  | .methodCall => propertyCallScript args
  | .propertyGet | .getInvoke | .typeAssertion => .values (args.take 1)
  | .propertySet => propertySetScript args
  | .quasiquote =>
    match args with
    | [tree] => quasiScript 1 tree
    | _ => .done
  | .classForm => .each classClauseScript args.tail
  | .enumForm => .each caseScript args.tail
  | .exporting => exportScript args
  | .breaking | .continuing | .emptyArray | .emptyMap | .emptySet | .quote | .unquote | .typeAlias
  | .interface | .importing => .done

def namedScript (name : String) (args : List SExpr) : Script :=
  match HeadMeaning.ofName name with
  | .special special => specialScript special args
  | .dropped => .done
  | .called => if (methodName? name).isSome then calleeScript args else argumentsScript args

end Lowering

/-- What happens while a tree is lowered. -/
def SExpr.script : SExpr → Script
  | .list (.symbol name _ :: args) _ => Lowering.namedScript name args
  | .list (.list items p :: args) _ => Lowering.calleeScript (.list items p :: args)
  | _ => .done

/-! ## Trees inside trees -/

namespace SExpr

/-- The names that a tree adds to the scope around it, of which lowering takes note. -/
def notedWithin : Nat → SExpr → List String
  | 0, _ => []
  | fuel + 1, tree => tree.script.notedNames (notedWithin fuel)

/-- The names that a tree brings into scope behind it in the target. -/
def lexicalWithin : Nat → SExpr → List String
  | 0, _ => []
  | fuel + 1, tree => tree.script.lexicalNames (lexicalWithin fuel)

/-- A tree and the trees that are lowered with it, each with the scopes around it. -/
def sitesWithin : Nat → SExpr → Scopes → Scopes → List Site
  | 0, tree, noted, lexical => [⟨tree, noted, lexical⟩]
  | fuel + 1, tree, noted, lexical =>
    ⟨tree, noted, lexical⟩ ::
      (tree.script.sites (notedWithin fuel) (lexicalWithin fuel) noted lexical).flatMap
        fun site => sitesWithin fuel site.tree site.noted site.lexical

/-- The trees that are lowered with a form of a program. No scope is open around a form. -/
def sites (tree : SExpr) : List Site := sitesWithin tree.depth tree [] []

end SExpr

end LispLowering
