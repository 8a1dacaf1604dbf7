import LispLowering.Proofs.Composition.Traversal

/-!
# Templates
-/

namespace LispLowering

open Lowering

/-- Neighbouring texts with their positions. -/
abbrev TextRun := List (String × Option Position)

def TextRun.trees (run : TextRun) : List SExpr := run.map fun text => .literal (.string text.1) text.2

def TextRun.text (run : TextRun) : String := String.join (run.map Prod.fst)

/-- Runs of texts with one expression between each two. A run may be empty, and it is as long as it can be: no
expression is a text. -/
structure Alternation where
  start : TextRun
  rest : List (SExpr × TextRun)
  apart : ∀ entry ∈ rest, ∀ text p, entry.1 ≠ .literal (.string text) p

namespace Alternation

def laterParts (rest : List (SExpr × TextRun)) : List SExpr := rest.flatMap fun entry => entry.1 :: entry.2.trees

def parts (alternation : Alternation) : List SExpr :=
  alternation.start.trees ++ laterParts alternation.rest

def expressions (alternation : Alternation) : List SExpr := alternation.rest.map Prod.fst

/-- One text for each run. -/
def texts (alternation : Alternation) : List String :=
  alternation.start.text :: alternation.rest.map fun entry => entry.2.text

theorem exists_parts (ts : List SExpr) : ∃ alternation : Alternation, alternation.parts = ts := by
  induction ts with
  | nil => exact ⟨⟨[], [], by simp⟩, rfl⟩
  | cons t ts ih =>
    obtain ⟨⟨start, rest, apart⟩, rfl⟩ := ih
    by_cases htext : ∃ text p, t = .literal (.string text) p
    · obtain ⟨text, p, rfl⟩ := htext
      exact ⟨⟨(text, p) :: start, rest, apart⟩, rfl⟩
    · have happart : ∀ text p, t ≠ .literal (.string text) p := fun text p h => htext ⟨text, p, h⟩
      exact ⟨⟨[], (t, start) :: rest, List.forall_mem_cons.mpr ⟨happart, apart⟩⟩, rfl⟩

end Alternation

namespace Lowering

variable {lower : Lowerer}

theorem lowerTemplateParts_texts (run : TextRun) (ts : List SExpr) :
    lowerTemplateParts lower (run.trees ++ ts) = do
      let template ← lowerTemplateParts lower ts
      return { template with start := run.text ++ template.start } := by
  induction run with
  | nil => simp [TextRun.trees, TextRun.text]
  | cons text run ih =>
    have hstep : lowerTemplateParts lower (TextRun.trees (text :: run) ++ ts) = do
        let template ← lowerTemplateParts lower (TextRun.trees run ++ ts)
        return { template with start := text.1 ++ template.start } := rfl
    rw [hstep, ih]
    simp [TextRun.text, String.append_assoc]

theorem lowerTemplateParts_alternation (alternation : Alternation) :
    lowerTemplateParts lower alternation.parts = do
      let nodes ← Lower.each (lowerValue lower) alternation.expressions
      return ⟨alternation.start.text, nodes.zip (alternation.rest.map fun entry => entry.2.text)⟩ := by
  obtain ⟨start, rest, apart⟩ := alternation
  simp only [Alternation.parts, Alternation.expressions]
  induction rest generalizing start with
  | nil =>
    rw [lowerTemplateParts_texts]
    simp [Alternation.laterParts, lowerTemplateParts, Lower.each]
  | cons entry rest ih =>
    obtain ⟨happart, hrest⟩ := List.forall_mem_cons.mp apart
    have hlater : Alternation.laterParts (entry :: rest) =
        entry.1 :: (entry.2.trees ++ Alternation.laterParts rest) := rfl
    rw [lowerTemplateParts_texts, hlater, lowerTemplateParts.eq_3 _ _ _ happart, ih entry.2 hrest]
    simp [Lower.each]

end Lowering

/-- A template is lowered to the texts of its runs and to its expressions, lowered from left to right. It fails
if one of them fails, and it changes the state as lowering them does. -/
theorem template_alternates (args : List SExpr) (p q : Option Position) (c d : Context)
    (lowered : Option Node) :
    Lowering.lower (.list (.symbol "template-literal" q :: args) p) c = .ok lowered d ↔
      ∃ (alternation : Alternation) (nodes : List Node), alternation.parts = args ∧
        Lower.each (lowerValue Lowering.lower) alternation.expressions c = .ok nodes d ∧
        lowered = some ⟨.templateLiteral alternation.texts nodes, p⟩ := by
  have hnode {alternation : Alternation} {nodes : List Node}
      (h : Lower.each (lowerValue Lowering.lower) alternation.expressions c = .ok nodes d) :
      (Template.node ⟨alternation.start.text, nodes.zip (alternation.rest.map fun entry => entry.2.text)⟩).orPlace p =
        ⟨.templateLiteral alternation.texts nodes, p⟩ := by
    have hlength : nodes.length = alternation.rest.length := by
      simpa [Alternation.expressions] using each_length h
    simp only [Template.node, Alternation.texts]
    rw [List.map_fst_zip (by simp [hlength]), List.map_snd_zip (by simp [hlength])]
    rfl
  constructor
  · intro h
    obtain ⟨node, hspecial, rfl⟩ := lower_special_ok rfl h
    obtain ⟨alternation, rfl⟩ := Alternation.exists_parts args
    obtain ⟨template, hparts, rfl⟩ := map_ok hspecial
    rw [lowerTemplateParts_alternation] at hparts
    obtain ⟨nodes, hnodes, rfl⟩ := map_ok hparts
    exact ⟨alternation, nodes, rfl, hnodes, congrArg some (hnode hnodes)⟩
  · rintro ⟨alternation, nodes, rfl, hnodes, rfl⟩
    rw [← hnode hnodes]
    refine lower_special rfl (bind_ok_iff.mpr ⟨_, d, ?_, rfl⟩)
    rw [lowerTemplateParts_alternation]
    exact bind_ok_iff.mpr ⟨nodes, d, hnodes, rfl⟩

end LispLowering
