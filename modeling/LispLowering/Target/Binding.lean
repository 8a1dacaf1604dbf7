import LispLowering.Target.Node

/-!
# Names that patterns bind
-/

namespace LispLowering.Node

/-- The name that a pattern binds as a whole, looking through defaults. -/
def boundName? : Node → Option String
  | ⟨.identifier name _, _⟩ => some name
  | ⟨.assignmentPattern target _, _⟩ => boundName? target
  | _ => none

mutual

/-- Every name that a pattern binds, from left to right. -/
def boundNames : Node → List String
  | ⟨.identifier name _, _⟩ => [name]
  | ⟨.assignmentPattern target _, _⟩ => boundNames target
  | ⟨.restElement inner, _⟩ => boundNames inner
  | ⟨.arrayPattern slots, _⟩ => slotNames slots
  | ⟨.objectPattern entries, _⟩ => entryNames entries
  | _ => []

def slotNames : List (Option Node) → List String
  | [] => []
  | slot :: rest => optionNames slot ++ slotNames rest

/-- The names that a slot binds; an empty one binds none. -/
def optionNames : Option Node → List String
  | none => []
  | some node => boundNames node

/-- The names that the entries of an object pattern bind: a property binds those of its value. -/
def entryNames : List Node → List String
  | [] => []
  | ⟨.property _ value _ _, _⟩ :: rest => boundNames value ++ entryNames rest
  | entry :: rest => boundNames entry ++ entryNames rest

end

end LispLowering.Node
