import LispLowering.Source.Fault
import LispLowering.Source.Pattern

/-!
# Reading patterns

* `name` and `name:Type` bind a name, `_` binds nothing;
* `& name`, `&name` and `...name` take the remaining elements and come last;
* `(vector a b)` and `(a b)` take an array apart;
* `(hash-map key target ...)` takes an object apart, by string literals, `key:` keywords or symbols;
* `target = expression` inside a sequence gives the target a default.
-/

namespace LispLowering.Pattern

/-! ## Names -/

/-- The name behind a rest mark that is written together with it. -/
def restName? (name : String) : Option String :=
  ((Text.stripStart? "..." name).or (Text.stripStart? "&" name)).filter fun rest => rest ≠ ""

/-- A symbol that marks the next target as the rest. -/
def isRestMark (node : SExpr) : Bool := node.isSymbol "&" || node.isSymbol "..."

/-- A name and the annotation after its first colon. -/
def splitAscription (text : String) : Except PatternFault (String × Option String) :=
  match Text.divide? ':' text with
  | some (name, ascribed) =>
    if name ≠ "" ∧ ascribed ≠ "" then .ok (name, some ascribed) else .error (.keywordName text)
  | none => .ok (text, none)

def isBindable (name : String) : Bool :=
  !(Text.has '.' name || name = "&" || name = "..." || name = "=")

/-- The pattern of a name, with its annotation if there is one. -/
def readName (text : String) (position : Option Position) : Except SyntaxFault Pattern :=
  match splitAscription text with
  | .error fault => .error (.pattern fault position)
  | .ok (name, ascribed) =>
    if isBindable name then .ok ⟨.identifier name ascribed, none, position⟩
    else .error (.pattern (.invalidName name) position)

def readSymbol (name : String) (position : Option Position) : Except SyntaxFault Pattern :=
  if name = "_" then .ok ⟨.skip, none, position⟩
  else
    match restName? name with
    | some target => do
      let inner ← readName target position
      return ⟨.rest inner, none, position⟩
    | none => readName name position

/-- The key of a property: a string, or a symbol without the colon at its end. -/
def keyOf (node : SExpr) : Except PatternFault String :=
  match node with
  | .literal (.string key) _ => .ok key
  | .symbol name _ =>
    let key := (Text.stripEnd? ":" name).getD name
    if key = "" then .error .emptyKey else .ok key
  | node => .error (.invalidKey node)

/-- The rest of an object pattern binds a single name. -/
def readObjectRest (target : SExpr) : Except SyntaxFault Pattern :=
  match target with
  | .symbol name p => readName ((restName? name).getD name) p
  | target => .error (.pattern .restNotName target.position)

/-- A symbol that is a rest mark together with the name behind it. -/
def isMarkedRest (node : SExpr) : Bool := (node.symbol?.bind restName?).isSome

/-- Only the last of the elements takes the rest. The position is that of the first element that does
not comply, or else that of the list. -/
def checkRestLast (position : Option Position) : List Pattern → Except SyntaxFault Unit
  | [] => .ok ()
  | p :: rest =>
    if p.isRest && !rest.isEmpty then .error (.pattern .restNotLast (p.position.or position))
    else checkRestLast position rest

/-! ## Patterns -/

mutual

def read : SExpr → Except SyntaxFault Pattern
  | .symbol name p => readSymbol name p
  | .literal value p => .error (.pattern (.literalTarget (.literal value p)) p)
  | .list items p =>
    match items with
    | [] => .ok ⟨.array [], none, p⟩
    | head :: rest =>
      match head.symbol? with
      | some "vector" => do
        let elements ← readElements rest
        checkRestLast p elements
        return ⟨.array elements, none, p⟩
      | some "empty-array" => .ok ⟨.array [], none, p⟩
      | some "hash-map" => do
        let (properties, remaining) ← readProperties rest
        return ⟨.object properties remaining, none, p⟩
      | some "empty-map" => .ok ⟨.object [] none, none, p⟩
      | _ => do
        let elements ← readElements (head :: rest)
        checkRestLast p elements
        return ⟨.array elements, none, p⟩

/-- The elements of a sequence, with their rest marks and defaults. -/
def readElements : List SExpr → Except SyntaxFault (List Pattern)
  | [] => .ok []
  | item :: rest =>
    if isRestMark item then
      match rest with
      | [] => .error (.pattern .danglingRest item.position)
      | target :: rest => do
        let inner ← read target
        match rest with
        | [] => return [⟨.rest inner, none, item.position⟩]
        | [mark] =>
          if mark.isSymbol "=" then .error (.pattern .danglingDefault mark.position)
          else do
            let elements ← readElements [mark]
            return ⟨.rest inner, none, item.position⟩ :: elements
        | mark :: value :: rest =>
          if mark.isSymbol "=" then .error (.pattern .restDefault item.position)
          else do
            let elements ← readElements (mark :: value :: rest)
            return ⟨.rest inner, none, item.position⟩ :: elements
    else do
      let element ← read item
      match rest with
      | [] => return [element]
      | [mark] =>
        if mark.isSymbol "=" then .error (.pattern .danglingDefault mark.position)
        else do
          let elements ← readElements [mark]
          return element :: elements
      | mark :: value :: rest =>
        if mark.isSymbol "=" then
          if element.isRest then .error (.pattern .restDefault item.position)
          else do
            let elements ← readElements rest
            return { element with default := some value } :: elements
        else do
          let elements ← readElements (mark :: value :: rest)
          return element :: elements

/-- The properties of an object pattern and what takes the rest. -/
def readProperties : List SExpr → Except SyntaxFault (List PropertyPattern × Option Pattern)
  | [] => .ok ([], none)
  | item :: rest =>
    if isRestMark item then
      match rest with
      | [] => .error (.pattern .danglingRest item.position)
      | [target] => do return ([], some (← readObjectRest target))
      | _ => .error (.pattern .restNotLast item.position)
    else if isMarkedRest item then
      match rest with
      | [] => do return ([], some (← readObjectRest item))
      | _ => .error (.pattern .restNotLast item.position)
    else
      match keyOf item with
      | .error fault => .error (.pattern fault item.position)
      | .ok key =>
        match rest with
        | [] => .error (.pattern (.missingTarget key) item.position)
        | target :: rest => do
          let value ← read target
          match rest with
          | [] => return ([⟨key, value⟩], none)
          | [mark] =>
            if mark.isSymbol "=" then .error (.pattern .danglingDefault mark.position)
            else do
              let (properties, remaining) ← readProperties [mark]
              return (⟨key, value⟩ :: properties, remaining)
          | mark :: given :: rest =>
            if mark.isSymbol "=" then do
              let (properties, remaining) ← readProperties rest
              return (⟨key, { value with default := some given }⟩ :: properties, remaining)
            else do
              let (properties, remaining) ← readProperties (mark :: given :: rest)
              return (⟨key, value⟩ :: properties, remaining)

end

end LispLowering.Pattern

namespace LispLowering.ParamList

/-! ## Parameter lists -/

def readStructured (position : Option Position) : List SExpr → Except SyntaxFault (List Pattern)
  | [] => .ok []
  | [_] => .error (.params .missingDefault position)
  | name :: value :: rest =>
    match Pattern.keyOf name with
    | .error _ => .error (.params (.invalidName name) name.position)
    | .ok key => do
      let param ← Pattern.readName key name.position
      let params ← readStructured position rest
      return { param with default := some value } :: params

def readPlain (position : Option Position) (items : List SExpr) : Except SyntaxFault ParamList := do
  let params ← Pattern.readElements items
  Pattern.checkRestLast position params
  return ⟨params, false⟩

/-- The parameter list that a tree denotes. An odd map is refused before its names are looked at. -/
def read (node : SExpr) : Except SyntaxFault ParamList :=
  match node with
  | .list items p =>
    match node.head? with
    | some "hash-map" =>
      if items.tail.length % 2 ≠ 0 then .error (.params .missingDefault p)
      else do return ⟨← readStructured p items.tail, true⟩
    | some "empty-map" => .ok ⟨[], true⟩
    | some "empty-array" => .ok ⟨[], false⟩
    | some "vector" => readPlain p items.tail
    | _ => readPlain p items
  | node => .error (.params (.listExpected node) node.position)

end LispLowering.ParamList
