/-!
# Tables

A table keeps one value for each name, in the order in which the names came in.
-/

namespace LispLowering

abbrev Table (α : Type) := List (String × α)

namespace Table

variable {α : Type}

/-- The table with the value of `name` set to `value`. -/
def insert (name : String) (value : α) : Table α → Table α
  | [] => [(name, value)]
  | (other, old) :: rest =>
    if name = other then (name, value) :: rest else (other, old) :: insert name value rest

def find? (name : String) : Table α → Option α
  | [] => none
  | (other, value) :: rest => if name = other then some value else find? name rest

end Table

end LispLowering
