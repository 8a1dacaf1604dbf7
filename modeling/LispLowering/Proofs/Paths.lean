import LispLowering.Lowering.ModulePath
import LispLowering.Proofs.Excerpts

/-!
# Paths of modules
-/

namespace LispLowering

open List

variable {parts resolved : List PathPart} {part : PathPart}

/-- The directory next to a directory. The one above the topmost directory is the topmost directory. -/
def PathPart.step (directory : List String) : PathPart → List String
  | .here => directory
  | .parent => directory.dropLast
  | .name text => directory ++ [text]

namespace ModulePath

/-- Where the path leads from a directory. A rooted path leads to the same place from everywhere. -/
def walk (base : List String) (path : ModulePath) : List String :=
  path.parts.foldl PathPart.step (if path.rooted then [] else base)

/-- The parts, in reverse order, have no steps but names after steps up. -/
inductive Climbs : List PathPart → Prop where
  | parents (count : Nat) : Climbs (List.replicate count .parent)
  | name {parts : List PathPart} (text : String) : Climbs parts → Climbs (.name text :: parts)

/-! ## Steps -/

theorem resolveStep_replicate (count : Nat) :
    resolveStep (List.replicate count .parent) .parent = List.replicate (count + 1) .parent := by
  cases count <;> rfl

theorem Climbs.resolveStep (h : Climbs parts) (part : PathPart) : Climbs (resolveStep parts part) := by
  cases part with
  | here => exact h
  | name text => exact .name text h
  | parent =>
    cases h with
    | parents count => exact resolveStep_replicate count ▸ .parents (count + 1)
    | name text hparts => exact hparts

theorem climbs_foldl (h : Climbs resolved) (parts : List PathPart) :
    Climbs (parts.foldl resolveStep resolved) := by
  induction parts generalizing resolved with
  | nil => exact h
  | cons part rest ih => exact ih (h.resolveStep part)

theorem Climbs.exists_names (h : Climbs parts) : ∃ (count : Nat) (names : List String),
      parts.reverse = List.replicate count .parent ++ names.map .name := by
  induction h with
  | parents count => exact ⟨count, [], by simp⟩
  | name text _ ih =>
    obtain ⟨count, names, hparts⟩ := ih
    exact ⟨count, names ++ [text], by simp [hparts]⟩

theorem Climbs.foldl_reverse (h : Climbs parts) :
    parts.reverse.foldl ModulePath.resolveStep [] = parts := by
  induction h with
  | parents count =>
    rw [reverse_replicate]
    induction count with
    | zero => rfl
    | succ count ih =>
      rw [replicate_succ', foldl_append, ih, ← replicate_succ']
      exact resolveStep_replicate count
  | name text _ ih => rw [reverse_cons, foldl_append, ih]; rfl

theorem foldl_step_resolveStep (base : List String) :
    (resolveStep resolved part).reverse.foldl PathPart.step base =
      part.step (resolved.reverse.foldl PathPart.step base) := by
  unfold resolveStep
  split
  · rfl
  · simp [PathPart.step]
  · split
    -- the step up takes back the name
    · simp [PathPart.step]
    · simp [PathPart.step]

theorem foldl_step_foldl (base : List String) (parts resolved : List PathPart) :
    (parts.foldl resolveStep resolved).reverse.foldl PathPart.step base =
      parts.foldl PathPart.step (resolved.reverse.foldl PathPart.step base) := by
  induction parts generalizing resolved with
  | nil => rfl
  | cons part rest ih => rw [foldl_cons, ih, foldl_step_resolveStep, foldl_cons]

/-! ## Texts -/

/-- The part is read back from its text. -/
def IsRead (part : PathPart) : Prop := PathPart.ofPiece? part.text = some part ∧ '/' ∉ part.text.toList

theorem isRead_of_ofPiece? {piece : String} (hpiece : '/' ∉ piece.toList)
    (h : PathPart.ofPiece? piece = some part) : IsRead part := by
  have htext : part.text = piece := by
    unfold PathPart.ofPiece? at h
    split at h
    · cases h
    · split at h
      · next hparent => cases h; exact hparent.symm
      · cases h; rfl
  exact ⟨htext ▸ h, htext ▸ hpiece⟩

theorem isRead_of_mem_ofText {text : String} (h : part ∈ (ofText text).parts)
    (hhere : part ≠ .here) : IsRead part := by
  have hpieces : ∀ piece ∈ Text.pieces '/' text, '/' ∉ piece.toList := by
    refine forall_mem_map.mpr fun _ hchars => ?_
    rw [String.toList_ofList]
    exact notMem_of_mem_splitOn hchars
  unfold ofText at h
  split at h
  · next first rest heq =>
    rw [heq, forall_mem_cons] at hpieces
    rcases mem_append.mp h with hfirst | hrest
    · split at hfirst
      · exact absurd (mem_singleton.mp hfirst) hhere
      · exact isRead_of_ofPiece? hpieces.1 (Option.mem_toList.mp hfirst)
    · obtain ⟨piece, hpiece, hpart⟩ := mem_filterMap.mp hrest
      exact isRead_of_ofPiece? (hpieces.2 piece hpiece) hpart
  · cases h

theorem mem_of_mem_resolveStep {step : PathPart}
    (h : part ∈ resolveStep resolved step) : part ∈ resolved ∨ part = step ∧ part ≠ .here := by
  unfold resolveStep at h
  split at h
  · exact .inl h
  · rcases mem_cons.mp h with rfl | h
    · exact .inr ⟨rfl, PathPart.noConfusion⟩
    · exact .inl h
  · split at h
    · exact .inl (.tail _ h)
    · rcases mem_cons.mp h with rfl | h
      · exact .inr ⟨rfl, PathPart.noConfusion⟩
      · exact .inl h

theorem mem_of_mem_foldl
    (h : part ∈ parts.foldl resolveStep resolved) : part ∈ resolved ∨ part ∈ parts ∧ part ≠ .here := by
  induction parts generalizing resolved with
  | nil => exact .inl h
  | cons first rest ih =>
    rcases ih h with hstep | ⟨hrest, hhere⟩
    · refine (mem_of_mem_resolveStep hstep).imp_right fun hfirst => ?_
      exact ⟨hfirst.1 ▸ (.head _), hfirst.2⟩
    · exact .inr ⟨.tail _ hrest, hhere⟩

theorem pieces_intercalate {texts : List String} (h : ∀ text ∈ texts, '/' ∉ text.toList) (hne : texts ≠ []) :
    Text.pieces '/' ("/".intercalate texts) = texts := by
  have hfree : ∀ chars ∈ texts.map String.toList, '/' ∉ chars := forall_mem_map.mpr h
  have hsplit := splitOn_intercalate '/' hfree (by simpa using hne)
  rw [Text.pieces, String.toList_intercalate]
  exact (congrArg (List.map String.ofList) hsplit).trans (by simp [map_map])

theorem ofText_text {path : ModulePath} (h : ∀ part ∈ path.parts, IsRead part) : ofText path.text = path := by
  obtain ⟨rooted, parts⟩ := path
  cases parts with
  | nil => cases rooted <;> decide
  | cons part rest =>
    rw [forall_mem_cons] at h
    have hread : (rest.map PathPart.text).filterMap PathPart.ofPiece? = rest := by
      rw [filterMap_map]
      exact (filterMap_congr fun part hpart => (h.2 part hpart).1).trans filterMap_some
    have hfree : ∀ text ∈ (part :: rest).map PathPart.text, '/' ∉ text.toList :=
      forall_mem_map.mpr (forall_mem_cons.mpr ⟨h.1.2, fun part hpart => (h.2 part hpart).2⟩)
    have hempty : part.text ≠ "" := fun htext => by simpa [htext, PathPart.ofPiece?] using h.1.1
    have hdot : part.text ≠ "." := fun htext => by simpa [htext, PathPart.ofPiece?] using h.1.1
    cases rooted with
    | false =>
      have htext : text ⟨false, part :: rest⟩ = "/".intercalate ((part :: rest).map PathPart.text) := by
        simp [text]
      rw [htext, ofText, pieces_intercalate hfree (by simp)]
      simp [hempty, hdot, h.1.1, hread]
    | true =>
      have htext : text ⟨true, part :: rest⟩ = "/".intercalate ("" :: (part :: rest).map PathPart.text) := by
        simp [text, String.intercalate_cons_cons]
      rw [htext, ofText, pieces_intercalate (forall_mem_cons.mpr ⟨by simp, hfree⟩) (by simp)]
      simp only [PathPart.ofPiece?, map_cons]
      rw [filterMap_cons_some h.1.1, hread]
      simp

end ModulePath

/-- A path is resolved by its parts. What is left has no part that stays where it is, and climbs before it
descends. Resolving it again changes nothing, and from every directory it leads where the path leads. The text
of what is left denotes it, if the path was a text. -/
theorem normalize_resolves (path : ModulePath) : .here ∉ path.normalize.parts ∧
      (∃ (count : Nat) (names : List String),
        path.normalize.parts = List.replicate count .parent ++ names.map .name) ∧
      path.normalize.normalize = path.normalize ∧
      (∀ base : List String, path.normalize.walk base = path.walk base) ∧
      ∀ text, path = .ofText text → .ofText path.normalize.text = path.normalize := by
  have hclimbs : ModulePath.Climbs (path.parts.foldl ModulePath.resolveStep []) :=
    ModulePath.climbs_foldl (.parents 0) path.parts
  have hleft : ∀ part ∈ path.normalize.parts, part ∈ path.parts ∧ part ≠ .here := fun part hpart =>
    (ModulePath.mem_of_mem_foldl (mem_reverse.mp hpart)).resolve_left not_mem_nil
  refine ⟨fun hhere => (hleft _ hhere).2 rfl, hclimbs.exists_names, ?_, fun _ => ?_, ?_⟩
  · simp only [ModulePath.normalize, hclimbs.foldl_reverse]
  · exact ModulePath.foldl_step_foldl _ path.parts []
  · rintro text rfl
    refine ModulePath.ofText_text fun part hpart => ?_
    exact ModulePath.isRead_of_mem_ofText (hleft part hpart).1 (hleft part hpart).2

end LispLowering
