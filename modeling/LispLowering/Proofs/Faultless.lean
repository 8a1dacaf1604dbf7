import LispLowering.Proofs.References
import LispLowering.Proofs.TypeReading

/-!
# Readings that fail without blame
-/

namespace LispLowering

/-- A reading fails only with blameless diagnostics. -/
def Faultless {α : Type} (x : Except Diagnostic α) : Prop := ∀ e, x = .error e → e.Blameless

namespace Faultless

variable {α : Type}

theorem ok (a : α) : Faultless (.ok a) := by
  intro e h
  cases h

theorem fault (fault : Fault) (p : Option Position) (h : fault.isUnderflow = false) :
    Faultless (.error (fault.place p) : Except Diagnostic α) := by
  intro e he
  cases he
  exact Diagnostic.blameless_fault fault p h

end Faultless

namespace TypeExpr

theorem ReadAlike.faultless {α : Type} {T : SExpr → Prop} {x x' : Except Diagnostic α}
    (h : ReadAlike T x x') : Faultless x := by
  cases h with
  | ok a => exact .ok a
  | error e hfault ht => exact .fault _ _ hfault

theorem read_faultless (t : SExpr) : Faultless (read t) :=
  (read_alike hereditary_true t trivial).faultless

theorem readAll_faultless (trees : List SExpr) : Faultless (readAll trees) :=
  (readAll_alike hereditary_true trees fun _ _ => trivial).faultless

end TypeExpr

namespace Lowering

theorem reference_faultless (name : String) (p : Option Position) : Faultless (reference name p) := by
  have halike := reference_alike name p p
  generalize reference name p = x at halike
  cases halike with
  | ok => exact .ok _
  | error hfault => exact .fault _ p hfault

end Lowering

theorem Registry.declare_faultless (registry : Registry) (name : String) (entry : FunctionEntry) :
    Faultless (registry.declare name entry) := by
  unfold Registry.declare
  split
  · exact .fault _ _ rfl
  · exact .ok _

end LispLowering
