import LispLowering.Proofs.Provenance.Traversal

/-!
# Positions carry no meaning
-/

namespace LispLowering

open Node

namespace Lowering

/-! ## The traversal -/

theorem suits_anywhere (t : SExpr) : t.Suits (.within (fun _ => True) fun _ => True) :=
  SExpr.suits_within fun _ _ => ⟨fun _ _ => trivial, trivial⟩

theorem lowerWithin_erases (fuel : Nat) : LowererErases (lowerWithin fuel) := by
  have hsymbol : ∀ name p, Erases eraseOption
      (do return some (← Lower.ofExcept (reference name p)))
      (do return some (← Lower.ofExcept (reference name none))) :=
    fun name p => .bind (.ofExcept (reference_erases name p)) fun _ => .pure rfl
  induction fuel with
  | zero =>
    intro t
    cases t with
    | symbol name p => exact hsymbol name p
    | literal | list => exact .pure rfl
  | succ fuel ih =>
    intro t
    cases t with
    | symbol name p => exact hsymbol name p
    | literal value p => exact .pure rfl
    | list items p =>
      rw [SExpr.erase_list]
      exact (lowerList_traced (H := True) (lowerWithin_sourced fuel) (suits_anywhere _)).erases ih

theorem lower_erases (t : SExpr) : Erases eraseOption (Lowering.lower t) (Lowering.lower t.erase) := by
  unfold Lowering.lower
  rw [SExpr.depth_erase]
  exact lowerWithin_erases t.depth t

end Lowering

/-! ## Equality without positions -/

/-- Two outcomes that differ at most in positions, and in diagnostics: both are results that are equal
without positions, or both are failures, and the states are equal without positions. -/
inductive EqualErased : EStateM.Result Diagnostic Context (Option Node) →
    EStateM.Result Diagnostic Context (Option Node) → Prop where
  | ok {node node' : Option Node} {d d' : Context} : node.map erase = node'.map erase →
      d.erase = d'.erase → EqualErased (.ok node d) (.ok node' d')
  | error {e e' : Diagnostic} {d d' : Context} : d.erase = d'.erase →
      EqualErased (.error e d) (.error e' d')

theorem EqualErased.of_ends {r r' s : EStateM.Result Diagnostic Context (Option Node)}
    (h : EndsErased eraseOption r s) (h' : EndsErased eraseOption r' s) : EqualErased r r' := by
  cases h with
  | ok node d =>
    generalize hnode : eraseOption node = result, hd : d.erase = state at h'
    cases h' with
    | ok node' d' =>
      refine .ok ?_ hd
      rw [← eraseOption_eq_map, hnode, eraseOption_eq_map]
  | error e _ d =>
    generalize hd : d.erase = state at h'
    cases h' with
    | error e' _ d' => exact .error hd

/-- Positions never influence the result. Of two trees that are equal without positions, lowered in two
states that are equal without positions, both fail or both succeed; the nodes are equal without
positions, and so are the states afterwards, whatever the outcome. -/
theorem lowering_ignores_positions {t t' : SExpr} {c c' : Context} (ht : t.erase = t'.erase)
    (hc : c.erase = c'.erase) : EqualErased (Lowering.lower t c) (Lowering.lower t' c') := by
  have h := Lowering.lower_erases t c
  have h' := Lowering.lower_erases t' c'
  rw [ht, hc] at h
  exact .of_ends h h'

/-- A call of `f` that was read at `p`. -/
def callAt (p : Option Position) : SExpr := .list [.symbol "f" p] p

/-- The state in which `f` was declared at `p`, with a default for its parameter. -/
def declaredAt (p : Option Position) : Context :=
  let default : SExpr := .literal (.string "") p
  let param : Pattern := ⟨.identifier "x" none, some default, p⟩
  let entry : FunctionEntry :=
    ⟨[param], [("x", (string "").place p)], false, [.symbol "x" p], p⟩
  { Context.start "" {} with registry := { entries := [("f", entry)] } }

/-- A call that is completed from a default takes over its position, and is the same without. -/
theorem lowering_ignores_positions_completed :
    (callAt (some { line := 1, column := 2 })).erase = (callAt none).erase ∧
      (declaredAt (some { line := 3, column := 4 })).erase = (declaredAt none).erase ∧
      EqualErased
        (Lowering.lower (callAt (some { line := 1, column := 2 }))
          (declaredAt (some { line := 3, column := 4 })))
        (Lowering.lower (callAt none) (declaredAt none)) :=
  ⟨rfl, rfl, lowering_ignores_positions rfl rfl⟩

end LispLowering
