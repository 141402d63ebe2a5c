/-
**Carets under a range.**

An excerpt prints the line of a range in rows of 80 columns, then a row of carets.  The carets start
in the column of the range within its row, so they are right only if that row is the last one that
is printed.  How many rows are printed is counted from the column after the range.  If the range
ends where its row ends, this is one row more than it takes to show the range, and the carets stand
under the wrong row whenever the line has such a row.

Main results:

* `Report.exists_markedLine` — a range without a line feed lies on a line;
* `Report.MarkedLine.text_excerpt` — the text of an excerpt, row by row;
* `Report.excerpt_underlined_iff` — **the carets stand under the range exactly if the range does not
  end with its row or its line ends there too**.
-/

import CssRune.Proofs.Edit.Buffers
import CssRune.Proofs.Report.Rows

set_option autoImplicit false

namespace CssRune

open Text

/-- An offset at which a text can be cut is not past the boundary below a later one. -/
theorem Text.le_floorBoundary {cs : List Char} {a n : Nat} (ha : isBoundary a cs = true)
    (h : a ≤ n) : a ≤ floorBoundary n cs := by
  induction cs generalizing a n with
  | nil =>
    cases a with
    | zero => exact Nat.zero_le _
    | succ a => cases ha
  | cons c cs ih =>
    cases a with
    | zero => exact Nat.zero_le _
    | succ a =>
      rw [isBoundary, Bool.and_eq_true, decide_eq_true_eq] at ha
      have hrest := ih (n := n - c.utf8Size) ha.2 (by omega)
      rw [floorBoundary, if_pos (by omega)]
      omega

namespace Report

/-! ### Ranges on a line -/

/-- A range with its ends moved down to character boundaries, and not turned around. -/
def clamp (content : List Char) (span : Span) : Span :=
  let start := Text.floorBoundary span.start content
  ⟨start, Text.floorBoundary (max span.stop start) content⟩

/-- A range that is not empty and lies on one line: the lines above and below, and the line itself,
which is what comes before the range, the range, and what comes after it. -/
structure MarkedLine (content : List Char) (span : Span) where
  above : List Char
  leading : List Char
  marked : List Char
  trailing : List Char
  below : List Char
  content_eq : content = above ++ (leading ++ marked ++ trailing) ++ below
  above_ends : ∀ c ∈ above.getLast?, c = '\n'
  below_starts : ∀ c ∈ below.head?, c = '\n'
  one_line : '\n' ∉ leading ++ marked ++ trailing
  marked_ne_nil : marked ≠ []
  clamp_eq : clamp content span = ⟨Text.byteLength (above ++ leading),
    Text.byteLength (above ++ leading) + Text.byteLength marked⟩

theorem cuts_clamp (content : List Char) (span : Span) : (clamp content span).Cuts content := by
  have hstart := isAt_nil_of_isBoundary (isBoundary_floorBoundary span.start content)
  refine Span.cuts_of_isAt hstart
    (isAt_nil_of_isBoundary (isBoundary_floorBoundary _ content)) ?_
  exact le_floorBoundary (isBoundary_floorBoundary _ content) (Nat.le_max_right _ _)

/-- A text is cut behind its last line feed. -/
theorem exists_cut_behind_newline (cs : List Char) :
    ∃ above leading, cs = above ++ leading ∧ (∀ c ∈ above.getLast?, c = '\n') ∧ '\n' ∉ leading := by
  induction cs with
  | nil => exact ⟨[], [], rfl, by simp, by simp⟩
  | cons c cs ih =>
    obtain ⟨above, leading, rfl, hends, hleading⟩ := ih
    by_cases hc : above = [] ∧ c ≠ '\n'
    · obtain ⟨rfl, hc⟩ := hc
      exact ⟨[], c :: leading, rfl, by simp, by simp [hleading, Ne.symm hc]⟩
    · refine ⟨c :: above, leading, rfl, ?_, hleading⟩
      cases above with
      | nil => simpa using hc
      | cons d above => simpa using hends

/-- **A range without a line feed lies on a line.** -/
theorem exists_markedLine {content : List Char} {span : Span}
    (hne : slice content (clamp content span) ≠ [])
    (hline : '\n' ∉ slice content (clamp content span)) :
    ∃ m : MarkedLine content span, m.marked = slice content (clamp content span) := by
  have hcuts := cuts_clamp content span
  obtain ⟨front, back, hcontent, hstart⟩ := hcuts.isAt_slice
  obtain ⟨above, leading, rfl, hends, hleading⟩ := exists_cut_behind_newline front
  have hlength := hcuts.byteLength_slice
  have hle := hcuts.le
  generalize hmarked : slice content (clamp content span) = marked at *
  refine ⟨⟨above, leading, marked, back.takeWhile (· != '\n'), back.dropWhile (· != '\n'), ?_,
    hends, ?_, ?_, hne, ?_⟩, rfl⟩
  · rw [hcontent]
    simp only [List.append_assoc, List.takeWhile_append_dropWhile]
  · intro c hc
    have hhead := List.head?_dropWhile_not (· != '\n') back
    rw [Option.mem_def.1 hc] at hhead
    simpa using hhead
  · intro hmem
    rcases List.mem_append.1 hmem with hmem | hmem
    · rcases List.mem_append.1 hmem with hmem | hmem
      · exact hleading hmem
      · exact hline hmem
    · simpa using List.mem_takeWhile_imp hmem
  · rw [hstart, hlength]
    cases hspan : clamp content span with
    | mk start stop =>
      rw [hspan] at hle
      simp only [Nat.add_sub_cancel' hle]

namespace MarkedLine

variable {content : List Char} {span : Span} (m : MarkedLine content span)

/-- The number of the line, counted from zero. -/
def number : Nat := m.above.count '\n'

/-- The line as it is printed: its number, a bar, and its text with each tab as one space. -/
def shown : List Char :=
  (toString m.number).toList ++ [' ', '|'] ++ showTabs (m.leading ++ m.marked ++ m.trailing)

/-- The column of the printed line that the range starts in. -/
def column : Nat := (toString m.number).toList.length + 2 + m.leading.length

/-- The column after the range. -/
def stopColumn : Nat := m.column + m.marked.length

/-- The number of the row that the range starts in. -/
def rowNumber : Nat := m.column / maxWidth

/-- The range lies inside one row: its first and its last column are in the same row. -/
def InOneRow : Prop := m.column / maxWidth = (m.stopColumn - 1) / maxWidth

instance : Decidable m.InOneRow := inferInstanceAs (Decidable (_ = _))

/-- The range ends where its row ends, and the line goes on in another row. -/
def CutOff : Prop := m.stopColumn % maxWidth = 0 ∧ m.stopColumn < m.shown.length

instance : Decidable m.CutOff := inferInstanceAs (Decidable (_ ∧ _))

/-- What an excerpt prints before the line of the range: the name of the file, if there is one, and
the lines before. -/
def preamble (filename : String) (height : Nat) : List Char :=
  (if filename.isEmpty then [] else filename.toList ++ ['\n', '\n']) ++
    (contextRows height (toString m.number).length m.number (lines content)).flatMap (· ++ ['\n'])

/-- The row of carets: they start in the column of the range within its row. -/
def carets : List Char :=
  List.replicate (m.column % maxWidth) ' ' ++ List.replicate m.marked.length '^'

/-- **The carets of an excerpt stand under the range**: the row directly above the row of carets is
the one that holds the range, the rows before it are those that come before it in the line, and the
carets are at the columns of the characters of the range, one under each. -/
structure Underlined (e : Excerpt) (before : List Char) : Prop where
  printed : ∃ carets, '\n' ∉ carets ∧
    e.text.toList = before ++ rowsBefore m.rowNumber m.shown ++ row m.rowNumber m.shown ++
      '\n' :: (carets ++ ['\n']) ∧
    ∀ i, carets[i]? = some '^' ↔ ∃ k < m.marked.length, i = m.column % maxWidth + k
  aligned : ∀ k < m.marked.length,
    (row m.rowNumber m.shown)[m.column % maxWidth + k]? = (showTabs m.marked)[k]?

/-! ### The text of an excerpt -/

theorem stopColumn_le_length_shown : m.stopColumn ≤ m.shown.length := by
  simp only [stopColumn, column, shown, showTabs, List.length_append, List.length_cons,
    List.length_nil, List.length_map]
  omega

theorem numbered_eq_shown :
    numbered 0 m.number ((lines content)[m.number]?.getD []) = m.shown := by
  have hline : (lines content)[m.number]? = some (m.leading ++ m.marked ++ m.trailing) :=
    (congrArg (fun cs => (lines cs)[m.number]?) m.content_eq).trans
      (getElem?_lines m.above_ends m.one_line m.below_starts)
  rw [hline, Option.getD_some, numbered, Nat.zero_sub]
  rfl

theorem content_eq_append :
    content = (m.above ++ m.leading) ++ (m.marked ++ (m.trailing ++ m.below)) :=
  m.content_eq.trans (by simp only [List.append_assoc])

theorem takeBytes_start :
    takeBytes (clamp content span).start content = m.above ++ m.leading := by
  rw [m.clamp_eq]
  exact (congrArg _ m.content_eq_append).trans (takeBytes_byteLength_append _ _)

theorem slice_clamp : slice content (clamp content span) = m.marked := by
  rw [m.clamp_eq]
  exact IsAt.slice ⟨m.above ++ m.leading, m.trailing ++ m.below, m.content_eq_append, rfl⟩

theorem takeWhile_reverse :
    ((m.above ++ m.leading).reverse.takeWhile (· != '\n')).length = m.leading.length := by
  have hleading : ∀ c ∈ m.leading.reverse, (c != '\n') = true := by
    intro c hc
    rw [bne_iff_ne]
    rintro rfl
    exact m.one_line (by simp [List.mem_reverse.1 hc])
  rw [List.reverse_append, List.takeWhile_append_of_pos hleading, List.length_append,
    List.length_reverse]
  cases hlast : m.above.reverse with
  | nil => rfl
  | cons c cs =>
    obtain rfl := m.above_ends c (by rw [← List.head?_reverse, hlast]; rfl)
    rfl

theorem count_newline : (m.above ++ m.leading).count '\n' = m.number := by
  have hleading : '\n' ∉ m.leading := fun h => m.one_line (by simp [h])
  rw [List.count_append, List.count_eq_zero_of_not_mem hleading]
  rfl

end MarkedLine

section Excerpts

variable {content : String} {span : Span} (m : MarkedLine content.toList span)

/-- The text of an excerpt, row by row. -/
theorem MarkedLine.text_excerpt (filename : String) (height : Nat) :
    (excerpt filename content span height).text.toList =
      m.preamble filename height ++ joinRows (wrapRows (m.stopColumn / maxWidth + 1) m.shown) ++
        '\n' :: (m.carets ++ ['\n']) := by
  have hcolumn : m.leading.length + (toString m.number).length + 2 = m.column := by
    rw [column, String.length_toList]
    omega
  have hbefore : takeBytes (floorBoundary span.start content.toList) content.toList =
      m.above ++ m.leading := m.takeBytes_start
  have hmarked : slice content.toList ⟨floorBoundary span.start content.toList,
      floorBoundary (max span.stop (floorBoundary span.start content.toList))
        content.toList⟩ = m.marked := m.slice_clamp
  unfold excerpt
  simp only [hbefore, hmarked, m.count_newline, m.takeWhile_reverse, m.numbered_eq_shown, hcolumn,
    String.toList_ofList, preamble, carets, stopColumn, List.append_assoc, List.cons_append,
    List.nil_append]

theorem MarkedLine.newline_not_mem_carets : '\n' ∉ m.carets := by
  simp [carets]

/-- The carets are at the columns of the range within its row. -/
theorem MarkedLine.getElem?_carets (i : Nat) :
    m.carets[i]? = some '^' ↔ ∃ k < m.marked.length, i = m.column % maxWidth + k := by
  rw [carets, List.getElem?_append, List.length_replicate]
  split
  · rename_i hi
    rw [List.getElem?_replicate, if_pos hi]
    constructor
    · intro h
      cases h
    · rintro ⟨k, _, rfl⟩
      omega
  · rename_i hi
    rw [List.getElem?_replicate]
    constructor
    · intro h
      split at h
      · exact ⟨i - m.column % maxWidth, by assumption, by omega⟩
      · cases h
    · rintro ⟨k, hk, rfl⟩
      rw [if_pos (by omega)]

/-- The characters of the range are in their columns. -/
theorem MarkedLine.getElem?_shown {k : Nat} (hk : k < m.marked.length) :
    m.shown[m.column + k]? = (showTabs m.marked)[k]? := by
  have hshown : m.shown = ((toString m.number).toList ++ [' ', '|'] ++ showTabs m.leading) ++
      (showTabs m.marked ++ showTabs m.trailing) := by
    simp only [shown, showTabs, List.map_append, List.append_assoc]
  have hlength : ((toString m.number).toList ++ [' ', '|'] ++ showTabs m.leading).length =
      m.column := by
    simp only [column, showTabs, List.length_append, List.length_map, List.length_cons,
      List.length_nil]
  rw [hshown, List.getElem?_append_right (by omega), hlength, Nat.add_sub_cancel_left,
    List.getElem?_append_left (by simpa [showTabs] using hk)]

section OneRow

variable {m} (hrow : m.InOneRow)

include hrow

theorem MarkedLine.InOneRow.bounds :
    maxWidth * m.rowNumber ≤ m.column ∧ m.stopColumn ≤ maxWidth * (m.rowNumber + 1) := by
  have hpos : 0 < m.stopColumn := by
    have := List.length_pos_iff.2 m.marked_ne_nil
    rw [stopColumn]
    omega
  rw [InOneRow] at hrow
  simp only [rowNumber, maxWidth] at hrow ⊢
  omega

theorem MarkedLine.InOneRow.rowNumber_lt : maxWidth * m.rowNumber < m.shown.length := by
  have hbounds := hrow.bounds
  have hle := m.stopColumn_le_length_shown
  have hpos := List.length_pos_iff.2 m.marked_ne_nil
  rw [stopColumn] at hle
  omega

/-- Each character of the range is in its row, at the column of its caret. -/
theorem MarkedLine.InOneRow.aligned {k : Nat} (hk : k < m.marked.length) :
    (row m.rowNumber m.shown)[m.column % maxWidth + k]? = (showTabs m.marked)[k]? := by
  have hbounds := hrow.bounds
  have hcolumn : maxWidth * m.rowNumber + m.column % maxWidth = m.column := Nat.div_add_mod _ _
  have hlt : m.column % maxWidth + k < maxWidth := by
    rw [stopColumn, Nat.mul_succ] at hbounds
    omega
  rw [getElem?_row _ hlt, ← Nat.add_assoc, hcolumn, m.getElem?_shown hk]

/-- If the range is not cut off from the rest of its line, its row is the last one printed. -/
theorem MarkedLine.InOneRow.joinRows_of_not_cutOff (h : ¬m.CutOff) :
    joinRows (wrapRows (m.stopColumn / maxWidth + 1) m.shown) =
      rowsBefore m.rowNumber m.shown ++ row m.rowNumber m.shown := by
  have hbounds := hrow.bounds
  rw [← joinRows_wrapRows hrow.rowNumber_lt]
  rw [CutOff, not_and_or] at h
  by_cases hend : m.stopColumn = maxWidth * (m.rowNumber + 1)
  · have hlength : m.shown.length ≤ maxWidth * (m.rowNumber + 1) := by
      rcases h with h | h
      · exact absurd (by rw [hend, Nat.mul_mod_right]) h
      · omega
    have hrows : m.stopColumn / maxWidth + 1 = m.rowNumber + 1 + 1 := by
      rw [hend, Nat.mul_div_cancel_left _ (by decide)]
    rw [hrows, wrapRows_of_length_le hlength]
  · have hrows : m.stopColumn / maxWidth = m.rowNumber := by
      have : m.column ≤ m.stopColumn := Nat.le_add_right _ _
      simp only [maxWidth] at *
      omega
    rw [hrows]

/-- If the range is cut off from the rest of its line, one more row is printed. -/
theorem MarkedLine.InOneRow.joinRows_of_cutOff (h : m.CutOff) :
    joinRows (wrapRows (m.stopColumn / maxWidth + 1) m.shown) =
      rowsBefore m.rowNumber m.shown ++ row m.rowNumber m.shown ++
        '\n' :: row (m.rowNumber + 1) m.shown := by
  have hbounds := hrow.bounds
  have hcolumn : m.column < m.stopColumn :=
    Nat.lt_add_of_pos_right (List.length_pos_iff.2 m.marked_ne_nil)
  have hend : m.stopColumn = maxWidth * (m.rowNumber + 1) := by
    have hzero := h.1
    simp only [maxWidth] at *
    omega
  have hrows : m.stopColumn / maxWidth = m.rowNumber + 1 := by
    rw [hend, Nat.mul_div_cancel_left _ (by decide)]
  rw [hrows, joinRows_wrapRows (hend ▸ h.2), rowsBefore_succ, List.append_assoc,
    List.singleton_append]

/-- The carets stand under the range exactly if it is not cut off from the rest of its line. -/
theorem MarkedLine.InOneRow.underlined_iff (filename : String) (height : Nat) :
    m.Underlined (excerpt filename content span height) (m.preamble filename height) ↔
      ¬m.CutOff := by
  constructor
  · rintro ⟨⟨carets, hcarets, htext, _⟩, _⟩ hcut
    rw [m.text_excerpt, hrow.joinRows_of_cutOff hcut] at htext
    simp only [List.append_assoc, List.cons_append, List.append_cancel_left_eq,
      List.cons.injEq, true_and] at htext
    -- the row of carets would have to go on over the end of the row that is too much
    have hmem : carets = row (m.rowNumber + 1) m.shown ++ '\n' :: m.carets := by
      refine (List.append_left_inj ['\n']).1 ?_
      rw [← htext, List.append_assoc, List.cons_append]
    exact hcarets (by simp [hmem])
  · intro hcut
    refine ⟨⟨m.carets, m.newline_not_mem_carets, ?_, m.getElem?_carets⟩,
      fun k hk => hrow.aligned hk⟩
    rw [m.text_excerpt, hrow.joinRows_of_not_cutOff hcut]
    simp only [List.append_assoc]

end OneRow

/-- **The carets stand under the range exactly if it is not cut off.**  Every range that is not
empty and has no line feed lies on a line, and however it does, if it lies inside one row of that
line, the excerpt prints this row directly above the carets and each caret under its character,
unless the range ends with its row and the line goes on in another. -/
theorem excerpt_underlined_iff
    (hne : Text.slice content.toList (clamp content.toList span) ≠ [])
    (hline : '\n' ∉ Text.slice content.toList (clamp content.toList span))
    (filename : String) (height : Nat) :
    Nonempty (MarkedLine content.toList span) ∧
      ∀ m : MarkedLine content.toList span,
        m.marked = Text.slice content.toList (clamp content.toList span) ∧
          (m.InOneRow →
            (m.Underlined (excerpt filename content span height) (m.preamble filename height) ↔
              ¬m.CutOff)) := by
  obtain ⟨m, _⟩ := exists_markedLine hne hline
  exact ⟨⟨m⟩, fun m => ⟨m.slice_clamp.symm, fun hrow => hrow.underlined_iff filename height⟩⟩

end Excerpts

/-- A call in the second line, with a tab and a wide character before it. -/
def callLine : MarkedLine "abc\n\té $css(1) x".toList ⟨8, 15⟩ where
  above := "abc\n".toList
  leading := "\té ".toList
  marked := "$css(1)".toList
  trailing := " x".toList
  below := []
  content_eq := by decide +kernel
  above_ends := by simp
  below_starts := by simp
  one_line := by decide +kernel
  marked_ne_nil := by decide +kernel
  clamp_eq := by decide +kernel

/-- The carets stand under the call. -/
theorem excerpt_underlined_iff_callLine :
    callLine.InOneRow ∧ ¬callLine.CutOff ∧
      callLine.Underlined (excerpt "App.svelte" "abc\n\té $css(1) x" ⟨8, 15⟩ 3)
        (callLine.preamble "App.svelte" 3) := by
  have hslice : Text.slice "abc\n\té $css(1) x".toList
      (clamp "abc\n\té $css(1) x".toList ⟨8, 15⟩) = "$css(1)".toList := by decide +kernel
  have hrow : callLine.InOneRow := by decide +kernel
  have hcut : ¬callLine.CutOff := by decide +kernel
  obtain ⟨_, hmarks⟩ := excerpt_underlined_iff (by rw [hslice]; decide) (by rw [hslice]; decide)
    "App.svelte" 3
  exact ⟨hrow, hcut, ((hmarks callLine).2 hrow).2 hcut⟩

/-- A line whose printed form has 81 columns. -/
def longLine : String := String.ofList (List.replicate 76 'a' ++ ['b', 'c'])

/-- The character before the last one of the line, in the last column of the first row. -/
def lastColumn : MarkedLine longLine.toList ⟨76, 77⟩ where
  above := []
  leading := List.replicate 76 'a'
  marked := ['b']
  trailing := ['c']
  below := []
  content_eq := by decide +kernel
  above_ends := by simp
  below_starts := by simp
  one_line := by decide +kernel
  marked_ne_nil := by simp
  clamp_eq := by decide +kernel

/-- **A range that ends with its row is underlined in the wrong row**: the second row, which is the
last character, stands between the character and its caret. -/
theorem excerpt_not_underlined_lastColumn :
    lastColumn.InOneRow ∧
      (excerpt "" longLine ⟨76, 77⟩ 0).text.toList =
        "0 |".toList ++ List.replicate 76 'a' ++ ['b', '\n', 'c', '\n'] ++
          List.replicate 79 ' ' ++ ['^', '\n'] ∧
      ¬lastColumn.Underlined (excerpt "" longLine ⟨76, 77⟩ 0) (lastColumn.preamble "" 0) := by
  have hrow : lastColumn.InOneRow := by decide +kernel
  refine ⟨hrow, by decide +kernel, fun h => ?_⟩
  exact (hrow.underlined_iff "" 0).1 h (by decide +kernel)

end Report

end CssRune
