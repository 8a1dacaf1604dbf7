import LispLowering.Proofs.Evolution
import LispLowering.Proofs.Trees

/-!
# Types read from trees
-/

namespace LispLowering.TypeExpr

/-- Two readings, of trees and of the trees without positions, give the same or are both refused, the
first one at a tree with the property. -/
inductive ReadAlike {α : Type} (T : SExpr → Prop) : Except Diagnostic α → Except Diagnostic α → Prop where
  | ok (a : α) : ReadAlike T (.ok a) (.ok a)
  | error {fault : Fault} {t : SExpr} (e : Diagnostic) : fault.isUnderflow = false → T t →
      ReadAlike T (.error (fault.place t.position)) (.error e)

variable {α β : Type} {T : SExpr → Prop}

theorem ReadAlike.bind {x x' : Except Diagnostic α} {k k' : α → Except Diagnostic β}
    (hx : ReadAlike T x x') (hk : ∀ a, ReadAlike T (k a) (k' a)) : ReadAlike T (x >>= k) (x' >>= k') := by
  cases hx with
  | ok a => exact hk a
  | error e hfault ht => exact .error e hfault ht

theorem ReadAlike.map {x x' : Except Diagnostic α} (hx : ReadAlike T x x') (f : α → β) :
    ReadAlike T (x.map f) (x'.map f) := by
  cases hx with
  | ok a => exact .ok _
  | error e hfault ht => exact .error e hfault ht

theorem nameIn_alike (production : String) {t : SExpr} (ht : T t) :
    ReadAlike T (nameIn production t) (nameIn production t.erase) := by
  cases t with
  | symbol name p => exact .ok name
  | literal | list => exact .error _ rfl ht

@[simp] theorem annotatedParam?_erase (t : SExpr) : annotatedParam? t.erase = annotatedParam? t := by
  simp only [annotatedParam?, SExpr.symbol?_erase]

mutual

theorem read_alike (hT : Hereditary T) : (t : SExpr) → T t → ReadAlike T (read t) (read t.erase)
  | .symbol name p, _ => .ok _
  | .literal value p, _ => .ok _
  | .list [] p, ht => .error _ rfl ht
  | .list (head :: args) p, ht => by
    obtain ⟨hhead, hargs⟩ := List.forall_mem_cons.mp (hT _ _ ht)
    have hall := readAll_alike hT args hargs
    have hempty : (args.map SExpr.erase).isEmpty = args.isEmpty := by cases args <;> rfl
    -- a wrong number of arguments is blamed on the whole list
    have hfault {fault : Fault} (hfault : fault.isUnderflow = false) (e : Diagnostic) :
        ReadAlike T (.error (fault.place p) : Except Diagnostic TypeExpr) (.error e) := .error e hfault ht
    simp only [SExpr.erase_list, List.map_cons, read, SExpr.symbol?_erase, hempty]
    split
    -- a head that is no symbol is blamed itself
    · exact .error _ rfl hhead
    · rename_i name hname
      cases productions.lookup name with
      | none => exact .bind hall fun _ => .ok _
      | some production =>
        cases production with
        | union | intersection =>
          dsimp only
          split
          · exact hfault rfl _
          · exact .bind hall fun _ => .ok _
        | tuple => exact .bind hall fun _ => .ok _
        | keyof | array | readonly | spread =>
          match args, hargs with
          | [type], h => exact .bind (read_alike hT type (h type (by simp))) fun _ => .ok _
          | [], _ | _ :: _ :: _, _ => exact hfault rfl _
        | infer | typeof =>
          match args, hargs with
          | [param], h => exact .bind (nameIn_alike _ (h param (by simp))) fun _ => .ok _
          | [], _ | _ :: _ :: _, _ => exact hfault rfl _
        | indexedAccess =>
          match args, hargs with
          | [object, index], h =>
            exact .bind (read_alike hT object (h object (by simp))) fun _ =>
              .bind (read_alike hT index (h index (by simp))) fun _ => .ok _
          | [], _ | [_], _ | _ :: _ :: _ :: _, _ => exact hfault rfl _
        | conditional =>
          match args, hargs with
          | [check, bound, trueType, falseType], h =>
            exact .bind (read_alike hT check (h check (by simp))) fun _ =>
              .bind (read_alike hT bound (h bound (by simp))) fun _ =>
              .bind (read_alike hT trueType (h trueType (by simp))) fun _ =>
              .bind (read_alike hT falseType (h falseType (by simp))) fun _ => .ok _
          | [], _ | [_], _ | [_, _], _ | [_, _, _], _ | _ :: _ :: _ :: _ :: _ :: _, _ =>
            exact hfault rfl _
        | mapped =>
          match args, hargs with
          | [param, constraint, value], h =>
            exact .bind (nameIn_alike _ (h param (by simp))) fun _ =>
              .bind (read_alike hT constraint (h constraint (by simp))) fun _ =>
              .bind (read_alike hT value (h value (by simp))) fun _ => .ok _
          | [], _ | [_], _ | [_, _], _ | _ :: _ :: _ :: _ :: _, _ => exact hfault rfl _
        | function =>
          match args, hargs with
          | [params, returnType], h =>
            exact .bind (readParamList_alike hT params (h params (by simp))) fun _ =>
              .bind (read_alike hT returnType (h returnType (by simp))) fun _ => .ok _
          | [], _ | [_], _ | _ :: _ :: _ :: _, _ => exact hfault rfl _

theorem readAll_alike (hT : Hereditary T) : (trees : List SExpr) → (∀ t ∈ trees, T t) →
    ReadAlike T (readAll trees) (readAll (trees.map SExpr.erase))
  | [], _ => .ok []
  | t :: rest, h =>
    .bind (read_alike hT t (h t (.head _))) fun _ =>
      .bind (readAll_alike hT rest fun u hu => h u (.tail _ hu)) fun _ => .ok _

theorem readParamList_alike (hT : Hereditary T) : (t : SExpr) → T t →
    ReadAlike T (readParamList t) (readParamList t.erase)
  | .symbol name p, ht => .error _ rfl ht
  | .literal value p, ht => .error _ rfl ht
  | .list [] p, _ => .ok []
  | .list (head :: others) p, ht => by
    have hitems := hT _ _ ht
    simp only [SExpr.erase_list, List.map_cons, readParamList, SExpr.isSymbol_erase]
    split
    · exact readParams_alike hT 0 others (List.forall_mem_cons.mp hitems).2
    · exact readParams_alike hT 0 (head :: others) hitems

theorem readParams_alike (hT : Hereditary T) : (index : Nat) → (trees : List SExpr) → (∀ t ∈ trees, T t) →
    ReadAlike T (readParams index trees) (readParams index (trees.map SExpr.erase))
  | _, [], _ => .ok []
  | index, t :: rest, h => by
    obtain ⟨ht, hrest⟩ := List.forall_mem_cons.mp h
    simp only [List.map_cons, readParams, annotatedParam?_erase]
    have hothers := readParams_alike hT (index + 1) rest hrest
    cases annotatedParam? t with
    | some param => exact .bind (.ok param) fun _ => .bind hothers fun _ => .ok _
    | none => exact .bind ((read_alike hT t ht).map _) fun _ => .bind hothers fun _ => .ok _

end

end LispLowering.TypeExpr
