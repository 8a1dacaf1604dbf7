import LispLowering.Lowering.Reference
import LispLowering.Proofs.Evolution

/-!
# Values of symbols
-/

namespace LispLowering.Lowering

/-- The values of one symbol, read at `p` and at `q`. The two are the same if `p` and `q` are, so this is
also what the value of a symbol is made of. -/
inductive Referred (p q : Option Position) : Node → Node → Prop where
  | literal (value : Literal) : Referred p q ⟨.literal value, p⟩ ⟨.literal value, q⟩
  | identifier (name : String) : Referred p q ⟨.identifier name none, p⟩ ⟨.identifier name none, q⟩
  | thisValue : Referred p q ⟨.thisValue, p⟩ ⟨.thisValue, q⟩
  | member {object object' : Node} (name : String) : Referred p q object object' →
      Referred p q ⟨.member object (.ident name) false, p⟩ ⟨.member object' (.ident name) false, q⟩
  | optionalMember {object object' : Node} (name : String) : Referred p q object object' →
      Referred p q ⟨.optionalMember object (.ident name) false true, p⟩
        ⟨.optionalMember object' (.ident name) false true, q⟩
  | index {object object' : Node} (value : Binary64) : Referred p q object object' →
      Referred p q ⟨.member object ⟨.literal (.number value), p⟩ true, p⟩
        ⟨.member object' ⟨.literal (.number value), q⟩ true, q⟩
  | spread {target target' : Node} : Referred p q target target' →
      Referred p q ⟨.spread target, p⟩ ⟨.spread target', q⟩

/-- The answers for one symbol, read at `p` and at `q`. -/
inductive Alike (p q : Option Position) : Except Diagnostic Node → Except Diagnostic Node → Prop where
  | ok {node node' : Node} : Referred p q node node' → Alike p q (.ok node) (.ok node')
  | error {fault : Fault} : fault.isUnderflow = false →
      Alike p q (.error (fault.place p)) (.error (fault.place q))

variable {p q : Option Position} {node node' : Node}

theorem Referred.position (h : Referred p q node node') : node.position = p := by
  cases h <;> rfl

theorem Referred.accessSegment (h : Referred p q node node') (segment : Symbol.Segment) :
    Referred p q (accessSegment p node segment) (accessSegment q node' segment) := by
  unfold Lowering.accessSegment
  split
  · exact .index _ h
  · split
    · exact .optionalMember _ h
    · exact .member _ h

theorem Referred.foldl {α : Type} {access access' : Node → α → Node}
    (haccess : ∀ {object object'} (item : α), Referred p q object object' →
      Referred p q (access object item) (access' object' item))
    (items : List α) (h : Referred p q node node') :
    Referred p q (items.foldl access node) (items.foldl access' node') := by
  induction items generalizing node node' with
  | nil => exact h
  | cons item rest ih => exact ih (haccess item h)

theorem constant_referred {name : String} {kind : NodeKind} (h : constants.lookup name = some kind) :
    Referred p q ⟨kind, p⟩ ⟨kind, q⟩ := by
  -- a constant is a literal, `undefined` or `this`
  have hall : ∀ entry ∈ constants, Referred p q ⟨entry.2, p⟩ ⟨entry.2, q⟩ := by
    simp [constants, Referred.literal, Referred.identifier, Referred.thisValue]
  obtain ⟨_, _, hconstants, -⟩ := List.lookup_eq_some_iff.mp h
  exact hall (name, kind) (by simp [hconstants])

theorem memberChain_alike (name : String) : Alike p q (memberChain name p) (memberChain name q) := by
  unfold memberChain
  split
  · refine .ok (.foldl (fun segment hobject => hobject.accessSegment segment) _ ?_)
    unfold chainRoot
    split
    · exact .thisValue
    · exact .identifier _
  · exact .error rfl

theorem foreignReference_alike (name : String) :
    Alike p q (foreignReference name p) (foreignReference name q) := by
  unfold foreignReference
  split
  · split
    · exact .ok (.foldl (fun part hobject => .member part hobject) _ (.identifier _))
    · exact .error rfl
  · exact .error rfl

theorem plainReference_alike (name : String) :
    Alike p q (plainReference name p) (plainReference name q) := by
  unfold plainReference
  split
  · next kind hkind => exact .ok (constant_referred hkind)
  · split
    · exact foreignReference_alike _
    · split
      · exact .ok (.literal _)
      · split
        · exact memberChain_alike name
        · exact .ok (.identifier _)

theorem reference_alike (name : String) (p q : Option Position) :
    Alike p q (reference name p) (reference name q) := by
  unfold reference
  generalize name.toList = chars
  induction chars using referenceChars.induct with
  | case1 c rest keyword hkeyword =>
    rw [referenceChars, referenceChars, hkeyword]
    exact .ok (.literal _)
  | case2 c rest hkeyword ih =>
    rw [referenceChars, referenceChars, hkeyword]
    -- a fault of what is spread is passed on as it is
    generalize referenceChars p (c :: rest) = x, referenceChars q (c :: rest) = y at ih
    cases ih with
    | ok htarget => exact .ok htarget.spread
    | error hfault => exact .error hfault
  | case3 cs hcs =>
    rw [referenceChars, referenceChars]
    · exact plainReference_alike _
    · exact hcs
    · exact hcs

theorem reference_referred {name : String} (h : reference name p = .ok node) : Referred p p node node := by
  have halike := reference_alike name p p
  rw [h] at halike
  cases halike with
  | ok hreferred => exact hreferred

end LispLowering.Lowering
