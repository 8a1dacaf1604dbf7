import Mathlib
import LispLowering.Diagnostic.Basic

/-!
# Excerpts point at their position
-/

namespace LispLowering

open Text List

variable {c : Char} {width : Nat} {d : Diagnostic} {first : Option View}

/-! ## Lines -/

theorem notMem_of_mem_splitOn {separator : Char} {text part : List Char}
    (h : part ∈ text.splitOn separator) : separator ∉ part := by
  induction text generalizing part with
  | nil =>
    rw [splitOn_nil, mem_singleton] at h
    exact h ▸ not_mem_nil
  | cons c rest ih =>
    rw [splitOn_cons_eq_if_modifyHead] at h
    split at h
    · rcases mem_cons.mp h with rfl | hrest
      · exact not_mem_nil
      · exact ih hrest
    · next hc =>
      cases hparts : rest.splitOn separator with
      | nil => exact absurd hparts (splitOn_ne_nil _ _)
      | cons first parts =>
        rw [hparts] at h ih
        rcases mem_cons.mp h with rfl | hrest
        · rw [mem_cons, not_or]
          exact ⟨fun heq => hc (beq_iff_eq.mpr heq.symm), ih (.head _)⟩
        · exact ih (.tail _ hrest)

theorem Text.notMem_of_mem_lines {source line : String} (h : line ∈ Text.lines source) :
    '\n' ∉ line.toList := by
  obtain ⟨chars, hchars, rfl⟩ := mem_map.mp h
  rw [String.toList_ofList]
  rcases mem_append.mp hchars with hclosed | hopen
  · obtain ⟨part, hpart, rfl⟩ := mem_map.mp hclosed
    have hfree := notMem_of_mem_splitOn (mem_of_mem_dropLast hpart)
    unfold closedLine
    split
    · exact fun hmem => hfree (mem_of_mem_dropLast hmem)
    · exact hfree
  · cases hlast : (source.toList.splitOn '\n').getLast? with
    | none => simp [hlast] at hopen
    | some part =>
      have hfree := notMem_of_mem_splitOn (mem_of_getLast? hlast)
      cases part with
      | nil => simp [hlast, openLine] at hopen
      | cons c rest =>
        simp only [hlast, Option.map_some, Option.getD_some, openLine, mem_singleton] at hopen
        exact hopen ▸ hfree

namespace Excerpt

/-- Characters with each tab replaced by four spaces. -/
def expandTabs (chars : List Char) : List Char :=
  chars.flatMap fun c => if c = '\t' then [' ', ' ', ' ', ' '] else [c]

@[simp] theorem toList_display (line : String) : (display line).toList = expandTabs line.toList := by
  rw [display, String.toList_ofList]
  rfl

theorem displayColumn_eq (line : String) (column : Nat) :
    displayColumn line column = (expandTabs (line.toList.take (column - 1))).length := rfl

theorem expandTabs_split (chars : List Char) (n : Nat) :
    expandTabs chars = expandTabs (chars.take n) ++ expandTabs (chars.drop n) := by
  rw [expandTabs, expandTabs, expandTabs, ← flatMap_append, take_append_drop]

theorem notMem_expandTabs (hspace : c ≠ ' ') {chars : List Char} (h : c ∉ chars) :
    c ∉ expandTabs chars := by
  intro hmem
  obtain ⟨d, hd, hc⟩ := mem_flatMap.mp hmem
  split at hc
  · simp [hspace] at hc
  · rw [mem_singleton] at hc
    exact h (hc ▸ hd)

/-! ## The window -/

variable {source line : String} {p : Position} {above below : List String}

theorem extract_of_split (hlines : Text.lines source = above ++ line :: below)
    (hline : p.line = above.length + 1) :
    extract source p = (above.zipIdx.drop (above.length - 2)).map (entry above.length p.column) ++
      entry above.length p.column (line, above.length) ::
        ((below.zipIdx p.line).take 2).map (entry above.length p.column) := by
  have hwindow : ((above ++ line :: below).zipIdx.drop (above.length - 2)).take
      (above.length + 2 + 1 - (above.length - 2)) =
      above.zipIdx.drop (above.length - 2) ++ (line, above.length) :: (below.zipIdx p.line).take 2 := by
    have htake : above.length + 2 + 1 - (above.length - 2) =
        (above.zipIdx.drop (above.length - 2)).length + 3 := by
      rw [length_drop, length_zipIdx]
      omega
    rw [zipIdx_append, zipIdx_cons, drop_append_of_le_length (by simp), htake,
      take_length_add_append, hline, Nat.zero_add]
    rfl
  have hexists : ¬(p.line = 0 ∨ (above ++ line :: below).length < p.line) := by
    rw [length_append, length_cons]
    omega
  have herror : p.line - 1 = above.length := by omega
  simp only [extract, hlines, if_neg hexists, herror, radius, hwindow, map_append, map_cons]

theorem exists_split (h : ¬(p.line = 0 ∨ (Text.lines source).length < p.line)) :
    ∃ above line below, Text.lines source = above ++ line :: below ∧ p.line = above.length + 1 := by
  have hindex : p.line - 1 < (Text.lines source).length := by omega
  refine ⟨(Text.lines source).take (p.line - 1), (Text.lines source)[p.line - 1],
    (Text.lines source).drop (p.line - 1 + 1), ?_, ?_⟩
  · rw [← drop_eq_getElem_cons hindex, take_append_drop]
  · rw [length_take]
    omega

theorem extract_eq_nil_iff : extract source p = [] ↔ p.line = 0 ∨ (Text.lines source).length < p.line := by
  constructor
  · intro hempty
    by_contra h
    obtain ⟨above, line, below, hlines, hline⟩ := exists_split h
    rw [extract_of_split hlines hline] at hempty
    simp at hempty
  · intro h
    simp [extract, h]

theorem text_of_mem_extract {e : ExcerptLine} (he : e ∈ extract source p) :
    ∃ line, (Text.lines source)[e.number - 1]? = some line ∧ e.text.toList = expandTabs line.toList := by
  simp only [extract] at he
  split at he
  · cases he
  · obtain ⟨⟨line, index⟩, hmem, rfl⟩ := mem_map.mp he
    have hzip := mem_of_mem_drop (mem_of_mem_take hmem)
    exact ⟨line, mem_zipIdx_iff_getElem?.mp hzip, toList_display line⟩

theorem numbers_extract (h : ¬(p.line = 0 ∨ (Text.lines source).length < p.line)) :
    (extract source p).map ExcerptLine.number = List.range' (max 1 (p.line - 2))
      (min (Text.lines source).length (p.line + 2) + 1 - max 1 (p.line - 2)) := by
  simp only [extract, if_neg h, radius]
  refine ext_getElem ?_ fun _ _ _ => ?_
  · simp only [length_map, length_take, length_drop, length_zipIdx, length_range']
    omega
  · simp only [getElem_map, getElem_take, getElem_drop, getElem_zipIdx, getElem_range', entry]
    omega

/-- The line of the position, with the caret at its displayed column. -/
def markedLine (p : Position) (line : String) : ExcerptLine :=
  ⟨p.line, display line, true, some (displayColumn line p.column)⟩

theorem extract_eq_marked (hlines : Text.lines source = above ++ line :: below)
    (hline : p.line = above.length + 1) :
    ∃ before after, extract source p = before ++ markedLine p line :: after ∧
      ∀ e ∈ before ++ after, e.isErrorLine = false ∧ e.caret = none := by
  have hmarked : entry above.length p.column (line, above.length) = markedLine p line := by
    simp [entry, markedLine, hline]
  refine ⟨_, _, hmarked ▸ extract_of_split hlines hline, fun e he => ?_⟩
  rw [← map_append] at he
  obtain ⟨⟨other, index⟩, hmem, rfl⟩ := mem_map.mp he
  have hne : index ≠ above.length := by
    rcases mem_append.mp hmem with habove | hbelow
    · have hindex := (mem_zipIdx (mem_of_mem_drop habove)).2.1
      omega
    · have hindex := (mem_zipIdx (mem_of_mem_take hbelow)).1
      omega
  simp [entry, hne]

theorem markedLine_mem_extract_iff {q : Position} (hzero : q.line ≠ 0)
    (hline : (Text.lines source)[q.line - 1]? = some line) : markedLine q line ∈ extract source p ↔
      p.line = q.line ∧ displayColumn line p.column = displayColumn line q.column := by
  have hlt := (List.getElem?_eq_some_iff.mp hline).1
  constructor
  · intro hmem
    have hexists := mt extract_eq_nil_iff.mpr (ne_nil_of_mem hmem)
    obtain ⟨above, line', below, hlines, hp⟩ := exists_split hexists
    obtain ⟨before, after, hextract, hothers⟩ := extract_eq_marked hlines hp
    have hmarked : markedLine q line = markedLine p line' := by
      by_contra hne
      have hother : markedLine q line ∈ before ++ after := by
        rw [hextract] at hmem
        simpa [hne] using hmem
      cases (hothers _ hother).1
    obtain ⟨hsame, -, hcaret⟩ : q.line = p.line ∧ display line = display line' ∧
        displayColumn line q.column = displayColumn line' p.column := by
      simpa [markedLine] using hmarked
    have hline' : line' = line := by simpa [hlines, hsame, hp] using hline
    exact ⟨hsame.symm, hline' ▸ hcaret.symm⟩
  · rintro ⟨hsame, hcaret⟩
    have hexists : ¬(p.line = 0 ∨ (Text.lines source).length < p.line) := by omega
    obtain ⟨above, line', below, hlines, hp⟩ := exists_split hexists
    obtain ⟨before, after, hextract, -⟩ := extract_eq_marked hlines hp
    have hline' : line' = line := by simpa [hlines, ← hsame, hp] using hline
    have hmarked : markedLine q line = markedLine p line' := by
      rw [markedLine, markedLine, hline', hsame, hcaret]
    rw [hextract, hmarked]
    exact mem_append_right _ (.head _)

/-! ## Rows -/

/-- What stands in front of the bar of a row: a line number, or nothing. -/
def gutter (width : Nat) (number : String) : List Char := (padLeft width ' ' number).toList

def rowsOf (width : Nat) (e : ExcerptLine) : List (List Char) :=
  (gutter width (decimal e.number) ++ " | ".toList ++ e.text.toList) :: e.caret.toList.map fun caret =>
      gutter width "" ++ " | ".toList ++ List.replicate caret ' ' ++ ['^']

def rows (excerpt : List ExcerptLine) : List (List Char) :=
  (gutter (gutterWidth excerpt) "" ++ " |".toList) :: excerpt.flatMap (rowsOf (gutterWidth excerpt))

theorem length_gutter {number : String} (h : number.length ≤ width) :
    (gutter width number).length = width := by
  simp only [gutter, padLeft, fill, String.toList_append, String.toList_ofList,
    length_append, length_replicate, String.length_toList]
  omega

theorem mem_gutter {number : String} (h : c ∈ gutter width number) : c = ' ' ∨ c ∈ number.toList := by
  simp only [gutter, padLeft, fill, String.toList_append, String.toList_ofList, mem_append] at h
  exact h.imp_left eq_of_mem_replicate

theorem isDigit_of_mem_decimal {n : Nat} (h : c ∈ (decimal n).toList) : c.isDigit = true := by
  rw [decimal, String.toList_ofList] at h
  exact Nat.isDigit_of_mem_toDigits (by decide) (by decide) h

theorem length_decimal_le {excerpt : List ExcerptLine} {e : ExcerptLine} (he : e ∈ excerpt) :
    (decimal e.number).length ≤ gutterWidth excerpt := by
  have hfold (lines : List ExcerptLine) (start : Nat) :
      start ≤ lines.foldl (fun width line => max width (decimal line.number).length) start ∧
        ∀ line ∈ lines, (decimal line.number).length ≤
          lines.foldl (fun width line => max width (decimal line.number).length) start := by
    induction lines generalizing start with
    | nil => exact ⟨le_rfl, by simp⟩
    | cons first rest ih =>
      obtain ⟨hstart, hrest⟩ := ih (max start (decimal first.number).length)
      exact ⟨(le_max_left _ _).trans hstart,
        forall_mem_cons.mpr ⟨(le_max_right _ _).trans hstart, hrest⟩⟩
  exact (hfold excerpt 1).2 e he

/-- The row has a bar behind a gutter of the width, in which only blanks and digits stand. -/
def IsRow (width : Nat) (row : List Char) : Prop :=
  ∃ number rest : List Char, row = number ++ " |".toList ++ rest ∧ number.length = width ∧
    ∀ c ∈ number, c = ' ' ∨ c.isDigit = true

theorem isRow_rows (excerpt : List ExcerptLine) : ∀ row ∈ rows excerpt, IsRow (gutterWidth excerpt) row := by
  have hblank (rest : List Char) :
      IsRow (gutterWidth excerpt) (gutter (gutterWidth excerpt) "" ++ " |".toList ++ rest) :=
    ⟨_, rest, rfl, length_gutter (Nat.zero_le _), fun c hc => (mem_gutter hc).imp_right (by simp)⟩
  refine forall_mem_cons.mpr ⟨by simpa using hblank [], forall_mem_flatMap.mpr fun e he => ?_⟩
  refine forall_mem_cons.mpr ⟨?_, forall_mem_map.mpr fun caret _ => ?_⟩
  · exact ⟨_, ' ' :: e.text.toList, by simp, length_gutter (length_decimal_le he),
      fun c hc => (mem_gutter hc).imp_right isDigit_of_mem_decimal⟩
  · simpa using hblank (' ' :: List.replicate caret ' ' ++ ['^'])

theorem toList_render (excerpt : List ExcerptLine) :
    (render excerpt).toList = (rows excerpt).flatMap (· ++ ['\n']) := by
  have hline (width : Nat) (e : ExcerptLine) :
      (renderLine width e).toList = (rowsOf width e).flatMap (· ++ ['\n']) := by
    unfold renderLine rowsOf
    cases e.caret <;> simp [gutter, padLeft, fill]
  simp only [render, rows, String.toList_append, String.toList_join, flatMap_cons, flatMap_map,
    flatMap_assoc, hline]
  simp [gutter, padLeft, fill]

theorem splitOn_rows {rows : List (List Char)} (h : ∀ row ∈ rows, '\n' ∉ row) :
    (rows.flatMap (· ++ ['\n'])).splitOn '\n' = rows ++ [[]] := by
  induction rows with
  | nil => rfl
  | cons row rest ih =>
    obtain ⟨hrow, hrest⟩ := forall_mem_cons.mp h
    rw [flatMap_cons, append_assoc, singleton_append,
      splitOn_append_cons_self_of_not_mem hrow, ih hrest]
    rfl

theorem notMem_rows {excerpt : List ExcerptLine} (h : ∀ e ∈ excerpt, '\n' ∉ e.text.toList) :
    ∀ row ∈ rows excerpt, '\n' ∉ row := by
  have hgutter {width : Nat} {number : String} (hnumber : '\n' ∉ number.toList) :
      '\n' ∉ gutter width number :=
    fun hmem => (mem_gutter hmem).elim (by decide) hnumber
  have hdecimal (n : Nat) : '\n' ∉ (decimal n).toList :=
    fun hmem => absurd (isDigit_of_mem_decimal hmem) (by decide)
  refine forall_mem_cons.mpr ⟨by simp [hgutter], forall_mem_flatMap.mpr fun e he => ?_⟩
  refine forall_mem_cons.mpr ⟨?_, forall_mem_map.mpr fun _ _ => ?_⟩
  · simp [hgutter, hdecimal, h e he]
  · simp [hgutter]

theorem splitOn_render {excerpt : List ExcerptLine} (h : ∀ e ∈ excerpt, '\n' ∉ e.text.toList) :
    (render excerpt).toList.splitOn '\n' = rows excerpt ++ [[]] := by
  rw [toList_render, splitOn_rows (notMem_rows h)]

theorem drop_row {number : Nat} (hnumber : (decimal number).length ≤ width) (line : String) (column : Nat) :
    (gutter width (decimal number) ++ " | ".toList ++ (display line).toList).drop
        (gutter width "" ++ " | ".toList ++ List.replicate (displayColumn line column) ' ').length =
      expandTabs (line.toList.drop (column - 1)) := by
  have hlength : (gutter width "" ++ " | ".toList ++ List.replicate (displayColumn line column) ' ').length =
      (gutter width (decimal number) ++ " | ".toList ++
        expandTabs (line.toList.take (column - 1))).length := by
    have hblank : (gutter width "").length = width := length_gutter (Nat.zero_le width)
    simp [length_gutter hnumber, hblank, displayColumn_eq]
  rw [hlength, toList_display, expandTabs_split line.toList (column - 1), ← append_assoc, drop_left]

/-! ## Excerpts -/

/-- The entry is marked as that of the position, and what is displayed before its caret is the part of the
line before the column. -/
structure Marked (p : Position) (line : String) (e : ExcerptLine) : Prop where
  isErrorLine : e.isErrorLine = true
  number : e.number = p.line
  caret : ∃ caret, e.caret = some caret ∧
    e.text.toList.take caret = expandTabs (line.toList.take (p.column - 1))

/-- All rows of the text have gutters of one width. Below the row of the entry is one with a caret, which
stands where the row of the entry shows the line from the column on. -/
def Aligned (text : List Char) (column : Nat) (line : String) (e : ExcerptLine) : Prop :=
  ∃ (width : Nat) (above below : List (List Char)) (row blank : List Char),
    text.splitOn '\n' = above ++ row :: (blank ++ ['^']) :: below ++ [[]] ∧
    (∀ row' ∈ above ++ row :: (blank ++ ['^']) :: below, IsRow width row') ∧
    row = gutter width (decimal e.number) ++ " | ".toList ++ e.text.toList ∧ '^' ∉ blank ∧
    row.drop blank.length = expandTabs (line.toList.drop (column - 1))

theorem aligned_render {excerpt before after : List ExcerptLine}
    (hfree : ∀ e ∈ excerpt, '\n' ∉ e.text.toList)
    (hexcerpt : excerpt = before ++ markedLine p line :: after) :
    Aligned (render excerpt).toList p.column line (markedLine p line) := by
  have hnumber : (decimal p.line).length ≤ gutterWidth excerpt :=
    length_decimal_le (e := markedLine p line) (by simp [hexcerpt])
  have hrows : rows excerpt = ((gutter (gutterWidth excerpt) "" ++ " |".toList) ::
        before.flatMap (rowsOf (gutterWidth excerpt))) ++
      (gutter (gutterWidth excerpt) (decimal p.line) ++ " | ".toList ++ (display line).toList) ::
        (gutter (gutterWidth excerpt) "" ++ " | ".toList ++
          List.replicate (displayColumn line p.column) ' ' ++ ['^']) ::
        after.flatMap (rowsOf (gutterWidth excerpt)) := by
    rw [rows]
    nth_rewrite 3 [hexcerpt]
    simp [rowsOf, markedLine]
  have hgutter : '^' ∉ gutter (gutterWidth excerpt) "" :=
    fun hmem => (mem_gutter hmem).elim (by decide) (by simp)
  have hsplit := splitOn_render hfree
  have hgutters := isRow_rows excerpt
  rw [hrows] at hsplit hgutters
  exact ⟨gutterWidth excerpt, _, _, _, _, hsplit, hgutters, rfl, by simp [hgutter],
    drop_row hnumber line p.column⟩

/-- An excerpt is empty exactly if the source does not have the line of the position. Otherwise its lines
are consecutive lines of the source with their tabs expanded, one line is marked, and in the rendered text
the caret stands below what is displayed from the column on. -/
theorem excerpt_points_at_position (source : String) (p : Position) :
    (extract source p = [] ↔ p.line = 0 ∨ (Text.lines source).length < p.line) ∧ (extract source p ≠ [] →
      (extract source p).map ExcerptLine.number = List.range' (max 1 (p.line - 2))
        (min (Text.lines source).length (p.line + 2) + 1 - max 1 (p.line - 2)) ∧
      (∀ e ∈ extract source p, ∃ line, (Text.lines source)[e.number - 1]? = some line ∧
        e.text.toList = expandTabs line.toList) ∧
      ∃ before e after line, extract source p = before ++ e :: after ∧
        (∀ other ∈ before ++ after, other.isErrorLine = false ∧ other.caret = none) ∧
        (Text.lines source)[p.line - 1]? = some line ∧ Marked p line e ∧
        Aligned (render (extract source p)).toList p.column line e) := by
  refine ⟨extract_eq_nil_iff, fun hne => ?_⟩
  have hexists := mt extract_eq_nil_iff.mpr hne
  obtain ⟨above, line, below, hlines, hline⟩ := exists_split hexists
  obtain ⟨before, after, hextract, hothers⟩ := extract_eq_marked hlines hline
  have hfree : ∀ e ∈ extract source p, '\n' ∉ e.text.toList := by
    intro e he
    obtain ⟨shown, hshown, htext⟩ := text_of_mem_extract he
    rw [htext]
    exact notMem_expandTabs (by decide) (Text.notMem_of_mem_lines (mem_of_getElem? hshown))
  refine ⟨numbers_extract hexists, fun e => text_of_mem_extract, before, _, after, line, hextract, hothers,
    ?_, ⟨rfl, rfl, _, rfl, ?_⟩, aligned_render hfree hextract⟩
  · simp [hlines, hline]
  · rw [markedLine, toList_display, displayColumn_eq, expandTabs_split line.toList (p.column - 1),
      take_left]

/-- A tab before the column moves the caret. -/
theorem excerpt_points_behind_tab : extract "\tx" ⟨1, 2, none⟩ ≠ [] ∧
    ∃ before e after line, extract "\tx" ⟨1, 2, none⟩ = before ++ e :: after ∧
      Marked ⟨1, 2, none⟩ line e := by
  have hne : extract "\tx" ⟨1, 2, none⟩ ≠ [] := by decide
  obtain ⟨-, -, before, e, after, line, hextract, -, -, hmarked, -⟩ :=
    (excerpt_points_at_position "\tx" ⟨1, 2, none⟩).2 hne
  exact ⟨hne, before, e, after, line, hextract, hmarked⟩

end Excerpt

/-! ## The excerpt of a diagnostic

A diagnostic takes its excerpt once, and its location may change afterwards. -/

namespace Diagnostic

/-- What can be asked of a diagnostic. -/
inductive Call where
  | withCode (code : Nat)
  | place (p : Option Position)
  | orPlace (p : Option Position)
  | inForm (form : String) (p : Option Position)
  | lines (source : String)
  | format (source : Option String)
  | report (source : Option String)

def perform (d : Diagnostic) : Call → Diagnostic
  | .withCode code => d.withCode code
  | .place p => d.place p
  | .orPlace p => d.orPlace p
  | .inForm form p => d.inForm form p
  | .lines source => d.takeExcerpt source
  | .format source => d.formatted source
  | .report source => d.afterReport source

/-- A source and the location of a diagnostic that is looked up in it. -/
structure View where
  source : String
  location : Option Position

def View.excerpt (view : View) : List ExcerptLine :=
  (view.location.map (Excerpt.extract view.source)).getD []

/-- The source in which a call looks the location up. -/
def Call.source? (d : Diagnostic) : Call → Option String
  | .lines source => some source
  | .format source => if d.location.isSome then source else none
  | .report source => if d.location.isSome && !d.reported then source else none
  | _ => none

/-- The first view, after a call. A form wraps a diagnostic without a location into one that has not been
looked at. -/
def look (d : Diagnostic) (first : Option View) : Call → Option View
  | .inForm _ _ => if d.location.isSome then first else none
  | call => first.or ((call.source? d).map (⟨·, d.location⟩))

/-- The diagnostic and its first view after some calls. -/
def performAll (d : Diagnostic) (first : Option View) : List Call → Diagnostic × Option View
  | [] => (d, first)
  | call :: rest => performAll (d.perform call) (d.look first call) rest

theorem excerptIn_eq (h : d.excerpt = first.map View.excerpt)
    (source : String) : d.excerptIn source = (first.getD ⟨source, d.location⟩).excerpt := by
  rw [excerptIn, h]
  cases first <;> rfl

theorem excerpt_perform (h : d.excerpt = first.map View.excerpt)
    (call : Call) : (d.perform call).excerpt = (d.look first call).map View.excerpt := by
  have htake (source : String) : (d.takeExcerpt source).excerpt =
      (first.or (some ⟨source, d.location⟩)).map View.excerpt := by
    rw [takeExcerpt, excerptIn_eq h]
    cases first <;> rfl
  have hkeep : d.excerpt = (first.or none).map View.excerpt := by rw [h, Option.or_none]
  have hformatted (source : Option String) : (d.formatted source).excerpt =
      (d.look first (.format source)).map View.excerpt := by
    cases hloc : d.location with
    | none => simpa [formatted, look, Call.source?, hloc] using hkeep
    | some p =>
      cases source with
      | none => simpa [formatted, look, Call.source?, hloc] using hkeep
      | some source => simpa [formatted, look, Call.source?, hloc] using htake source
  cases call with
  | withCode | place | orPlace => exact hkeep
  | inForm form p =>
    cases hloc : d.location with
    | none =>
      simp only [perform, inForm, look, hloc]
      rfl
    | some q => simpa [perform, inForm, look, hloc] using h
  | lines source => exact htake source
  | format source => exact hformatted source
  | report source =>
    cases hreported : d.reported with
    | true => simpa [perform, afterReport, look, Call.source?, hreported] using hkeep
    | false => simpa [perform, afterReport, look, Call.source?, hreported] using hformatted source

theorem excerpt_performAll (h : d.excerpt = first.map View.excerpt) (calls : List Call) :
    (d.performAll first calls).1.excerpt = (d.performAll first calls).2.map View.excerpt := by
  induction calls generalizing d first with
  | nil => exact h
  | cons call rest ih => exact ih (excerpt_perform h call)

/-- A diagnostic is printed with the excerpt of its first view, and where the source of the view has the
line of the printed location, that line stands in the excerpt with the caret of the location exactly if the
view was at the same line and the same displayed column. -/
theorem excerpt_of_first_view {d : Diagnostic} (hd : d.excerpt = none) (calls : List Call)
    (source : String) {e : Diagnostic} {first : Option View}
    (hrun : d.performAll none calls = (e, first)) {p : Position} (hp : e.location = some p) :
    let view := first.getD ⟨source, some p⟩
    e.format (some source) = e.headline ++ ("  --> " ++ p.text ++ "\n" ++
      if view.excerpt.isEmpty then "" else Excerpt.render view.excerpt) ∧
    ∀ line, p.line ≠ 0 → (Text.lines view.source)[p.line - 1]? = some line →
      (Excerpt.markedLine p line ∈ view.excerpt ↔ ∃ seen, view.location = some seen ∧ seen.line = p.line ∧
        Excerpt.displayColumn line seen.column = Excerpt.displayColumn line p.column) := by
  have hexcerpt : (d.performAll none calls).1.excerpt = _ := excerpt_performAll hd calls
  rw [hrun] at hexcerpt
  refine ⟨?_, fun _ hzero hline => ?_⟩
  · rw [format, hp]
    simp only [excerptText, excerptIn_eq hexcerpt, hp]
  · rw [View.excerpt]
    cases (first.getD ⟨source, some p⟩).location with
    | none => simp
    | some seen => simp [Excerpt.markedLine_mem_extract_iff hzero hline]

/-- The excerpt stays with the first source and does not follow a second one. -/
theorem excerpt_of_located_diagnostic :
    Excerpt.markedLine ⟨1, 2, none⟩ "\tx" ∈ (View.mk "\tx" (some ⟨1, 2, none⟩)).excerpt :=
  ((excerpt_of_first_view (d := ofMessage .parsing "m") rfl
    [.place (some ⟨1, 2, none⟩), .lines "\tx", .orPlace (some ⟨3, 1, none⟩)] "" rfl rfl).2 "\tx"
    (by decide) (by decide)).mpr ⟨_, rfl, rfl, rfl⟩

/-- Lines that were taken before the location is replaced are printed with the caret at the old one. -/
theorem excerpt_of_replaced_location : ((ofMessage .parsing "m").performAll none
      [.place (some ⟨1, 1, none⟩), .lines "a\nb", .place (some ⟨2, 1, none⟩)]).1.format (some "a\nb") =
    "ParseError[E1000]: m\n  --> 2:1\n  |\n1 | a\n  | ^\n2 | b\n" := by
  decide

end Diagnostic

end LispLowering
