/-
**What an excerpt prints.**

An excerpt is printed for any range, also for one whose ends are past the source, inside a character
or the wrong way around: the ends are moved first.  The rows it prints are the name of the file, the
lines before the range, the beginning of the line the range starts in, and the carets.  A line is
shown with each tab as one space, so what is printed of it is not its own text if it has tabs.

Main definition:

* `Report.Excerpt.LaidOut` — **the layout of an excerpt**, for a given way to show a line.

Main results:

* `Report.flatten_wrapRows`, `Report.getElem?_contextRows` — the rows of a line, and of those
  before;
* `Report.excerpt_laidOut` — every excerpt has this layout, with tabs shown as spaces;
* `Report.excerpt_not_laidOut_tab` — and does not have it with lines shown as they are.
-/

import CssRune.Proofs.Report.Underlines

set_option autoImplicit false

namespace CssRune

theorem Text.length_le_byteLength (cs : List Char) : cs.length ≤ byteLength cs := by
  induction cs with
  | nil => exact Nat.le_refl 0
  | cons c cs ih =>
    have := c.utf8Size_pos
    rw [List.length_cons, byteLength_cons]
    omega

namespace Report

/-! ### Numbers -/

variable {n height width number : Nat} {cs line row : List Char} {all : List (List Char)}

/-- A smaller number takes no more columns. -/
theorem length_toString_mono {m : Nat} (h : m ≤ n) :
    (toString m).toList.length ≤ (toString n).toList.length := by
  rw [Nat.toString_eq_ofList_toDigits, Nat.toString_eq_ofList_toDigits, String.toList_ofList,
    String.toList_ofList, Nat.length_toDigits_le_iff (by decide) Nat.length_toDigits_pos]
  exact Nat.lt_of_le_of_lt h
    ((Nat.length_toDigits_le_iff (by decide) Nat.length_toDigits_pos).1 (Nat.le_refl _))

theorem length_toString_le (h : n < 4294967296) : (toString n).toList.length ≤ 10 := by
  rw [Nat.toString_eq_ofList_toDigits, String.toList_ofList,
    Nat.length_toDigits_le_iff (by decide) (by decide)]
  exact Nat.lt_of_lt_of_le h (by decide)

theorem newline_not_mem_toString (n : Nat) : '\n' ∉ (toString n).toList := by
  rw [Nat.toString_eq_ofList_toDigits, String.toList_ofList]
  intro h
  exact absurd (Nat.isDigit_of_mem_toDigits (by decide) (by decide) h) (by decide)

/-! ### Lines and rows -/

theorem newline_not_mem_of_mem_lines (h : line ∈ lines cs) : '\n' ∉ line := by
  unfold lines at h
  induction cs generalizing line with
  | nil => simp_all
  | cons c cs ih =>
    rw [List.splitOn_cons_eq_if_modifyHead] at h
    split at h
    · rcases List.mem_cons.1 h with rfl | h
      · simp
      · exact ih h
    · rename_i hc
      cases hcs : cs.splitOn '\n' with
      | nil => exact absurd hcs (List.splitOn_ne_nil '\n' cs)
      | cons l ls =>
        rw [hcs, List.modifyHead_cons] at h
        rw [hcs] at ih
        rcases List.mem_cons.1 h with rfl | h
        · have hne : '\n' ≠ c := fun heq => hc (beq_iff_eq.2 heq.symm)
          simp [hne, ih List.mem_cons_self]
        · exact ih (List.mem_cons_of_mem l h)

theorem newline_not_mem_showTabs (h : '\n' ∉ line) : '\n' ∉ showTabs line := by
  intro hmem
  obtain ⟨c, hc, heq⟩ := List.mem_map.1 hmem
  split at heq
  · cases heq
  · exact h (heq ▸ hc)

/-- The first rows of a line are its beginning. -/
theorem flatten_wrapRows (count : Nat) (line : List Char) :
    (wrapRows count line).flatten = line.take (maxWidth * count) := by
  induction count generalizing line with
  | zero => rfl
  | succ count ih =>
    cases line with
    | nil => rfl
    | cons c cs =>
      rw [wrapRows, List.flatten_cons, ih, Nat.mul_succ, Nat.add_comm, List.take_add]

theorem length_le_of_mem_wrapRows {count : Nat} (h : row ∈ wrapRows count line) :
    row.length ≤ maxWidth := by
  induction count generalizing line with
  | zero => cases h
  | succ count ih =>
    cases line with
    | nil => cases h
    | cons c cs =>
      rcases List.mem_cons.1 h with rfl | h
      · exact List.length_take_le _ _
      · exact ih h

/-- The lines before the range are printed with their numbers, as many as there are up to the
height. -/
theorem getElem?_contextRows {line k : Nat}
    (h : (contextRows height width line all)[k]? = some row) :
    ∃ before, all[line - height + k]? = some before ∧ line - height + k < line ∧
      row = cutRow (numbered width (line - height + k) before) := by
  rw [contextRows, List.getElem?_map, List.getElem?_drop, List.getElem?_zipIdx, Option.map_map,
    Option.map_eq_some_iff] at h
  obtain ⟨before, hbefore, rfl⟩ := h
  rw [List.getElem?_take] at hbefore
  split at hbefore
  · exact ⟨before, hbefore, by assumption, by simp⟩
  · cases hbefore

theorem length_contextRows {line : Nat} (hline : line ≤ all.length) (width : Nat) :
    (contextRows height width line all).length = min height line := by
  rw [contextRows, List.length_map, List.length_drop, List.length_zipIdx, List.length_take]
  omega

theorem joinRows_append_newline {rows : List (List Char)} (h : rows ≠ []) :
    joinRows rows ++ ['\n'] = rows.flatMap (· ++ ['\n']) := by
  induction rows with
  | nil => exact absurd rfl h
  | cons row rows ih =>
    cases rows with
    | nil => simp [joinRows]
    | cons next rows =>
      rw [List.flatMap_cons, ← ih (List.cons_ne_nil next rows), joinRows, joinRows,
        List.intercalate_cons_cons, List.append_assoc, List.append_assoc]

/-! ### The layout -/

/-- The number of the line that the range starts in, counted from zero. -/
def startLine (content : List Char) (span : Span) : Nat :=
  (Text.takeBytes (clamp content span).start content).count '\n'

/-- The name of the file and an empty line, unless the name is empty. -/
def header (filename : String) : List Char :=
  if filename.isEmpty then [] else filename.toList ++ ['\n', '\n']

/-- The row of a line before the range: its number, aligned to the right in `width` columns, a bar,
and the line as it is shown, cut short with three dots at 80 columns. -/
def ContextRow (shown : List Char → List Char) (width number : Nat) (line row : List Char) : Prop :=
  ∃ pad tail, row = List.replicate pad ' ' ++ (toString number).toList ++ [' ', '|'] ++ tail ∧
    pad + (toString number).toList.length = width ∧
    (tail = shown line ∨
      row.length = maxWidth ∧ ∃ cut, cut <+: shown line ∧ tail = cut ++ ['.', '.', '.'])

/-- The row of carets. -/
def Excerpt.carets (e : Excerpt) : List Char :=
  List.replicate e.column ' ' ++ List.replicate e.width '^'

/-- **The layout of an excerpt**, where `shown` says how the text of a line is shown.  The range,
with its ends moved, cuts the content, and the line it starts in exists.  The text is the header and
rows without line feeds: first those of as many lines before as the height allows, the last of which
is the one directly before; then at least one row of the line itself, which together are a beginning
of it; then the carets.  None of the rows but the last has more than 80 columns. -/
structure Excerpt.LaidOut (e : Excerpt) (shown : List Char → List Char) (filename : String)
    (content : List Char) (span : Span) (height : Nat) : Prop where
  cuts : (clamp content span).Cuts content
  column_lt : e.column < maxWidth
  width_eq : e.width = (Text.slice content (clamp content span)).length
  printed : ∃ line context rows,
    (lines content)[startLine content span]? = some line ∧
    e.text.toList = header filename ++ (context ++ rows ++ [e.carets]).flatMap (· ++ ['\n']) ∧
    (∀ row ∈ context ++ rows, '\n' ∉ row ∧ row.length ≤ maxWidth) ∧
    context.length = min height (startLine content span) ∧
    (∀ k row, context[k]? = some row → ∃ before,
      (lines content)[startLine content span - height + k]? = some before ∧
      ContextRow shown (toString (startLine content span)).toList.length
        (startLine content span - height + k) before row) ∧
    rows ≠ [] ∧
    rows.flatten <+: (toString (startLine content span)).toList ++ [' ', '|'] ++ shown line

section Start

variable (content : List Char) (span : Span)

theorem startLine_lt_length_lines : startLine content span < (lines content).length := by
  have hcount := congrArg (List.count '\n')
    (Text.takeBytes_append_dropBytes (clamp content span).start content)
  rw [List.count_append] at hcount
  rw [length_lines, startLine]
  omega

theorem startLine_le_start : startLine content span ≤ span.start := by
  obtain ⟨front, rest, hcontent, hstart⟩ := (cuts_clamp content span).isAt_start
  have hfront : Text.takeBytes (clamp content span).start content = front :=
    (congrArg₂ Text.takeBytes hstart.symm hcontent).trans
      (Text.takeBytes_byteLength_append front rest)
  calc startLine content span = front.count '\n' := by rw [startLine, hfront]
    _ ≤ front.length := List.count_le_length
    _ ≤ Text.byteLength front := Text.length_le_byteLength front
    _ = (clamp content span).start := hstart
    _ ≤ span.start := Text.floorBoundary_le _ _

end Start

/-- A line before the range is printed as a row of it. -/
theorem contextRow_cutRow (hnumber : (toString number).toList.length ≤ width)
    (hwidth : width + 2 ≤ maxWidth - 3) (line : List Char) :
    ContextRow showTabs width number line (cutRow (numbered width number line)) := by
  refine ⟨width - (toString number).toList.length, ?_⟩
  rw [numbered, cutRow]
  generalize hfront : List.replicate (width - (toString number).toList.length) ' ' ++
    (toString number).toList ++ [' ', '|'] = front
  have hlength : front.length = width + 2 := by
    rw [← hfront]
    simp only [List.length_append, List.length_replicate, List.length_cons, List.length_nil]
    omega
  split
  · rename_i hlong
    refine ⟨(showTabs line).take (maxWidth - 3 - front.length) ++ ['.', '.', '.'], ?_, by omega,
      .inr ⟨?_, _, List.take_prefix _ _, rfl⟩⟩
    · rw [List.take_append, List.take_of_length_le (by omega), List.append_assoc]
    · rw [List.length_append, List.length_take, Nat.min_eq_left (by omega)]
      rfl
  · exact ⟨showTabs line, rfl, by omega, .inl rfl⟩

theorem newline_not_mem_numbered (h : '\n' ∉ line) : '\n' ∉ numbered width number line := by
  have hnumber := newline_not_mem_toString number
  have hline := newline_not_mem_showTabs h
  simp only [numbered, List.mem_append, List.mem_replicate, hnumber, hline]
  simp

theorem newline_not_mem_cutRow (h : '\n' ∉ cs) : '\n' ∉ cutRow cs := by
  rw [cutRow]
  split
  · intro hmem
    rcases List.mem_append.1 hmem with hmem | hmem
    · exact h (List.mem_of_mem_take hmem)
    · simp at hmem
  · exact h

theorem numbered_zero (number : Nat) (line : List Char) :
    numbered 0 number line = (toString number).toList ++ [' ', '|'] ++ showTabs line := by
  rw [numbered, Nat.zero_sub]
  rfl

/-- The text of an excerpt, row by row. -/
theorem exists_text_excerpt (filename : String) {content : String} {span : Span} (height : Nat)
    (hline : (lines content.toList)[startLine content.toList span]? = some line) :
    ∃ count, (excerpt filename content span height).text.toList = header filename ++
      (contextRows height (toString (startLine content.toList span)).length
          (startLine content.toList span) (lines content.toList) ++
        wrapRows (count + 1) (numbered 0 (startLine content.toList span) line) ++
        [(excerpt filename content span height).carets]).flatMap (· ++ ['\n']) := by
  have hne (count : Nat) :
      wrapRows (count + 1) (numbered 0 (startLine content.toList span) line) ≠ [] := by
    rw [wrapRows_succ (by simp [numbered])]
    exact List.cons_ne_nil _ _
  obtain ⟨count, hcount⟩ : ∃ count, (excerpt filename content span height).text.toList =
      header filename ++
        (contextRows height (toString (startLine content.toList span)).length
          (startLine content.toList span) (lines content.toList)).flatMap (· ++ ['\n']) ++
        joinRows (wrapRows (count + 1) (numbered 0 (startLine content.toList span)
          ((lines content.toList)[startLine content.toList span]?.getD []))) ++ ['\n'] ++
        (excerpt filename content span height).carets ++ ['\n'] :=
    ⟨_, String.toList_ofList.trans (by simp only [Excerpt.carets, List.append_assoc]; rfl)⟩
  refine ⟨count, hcount.trans ?_⟩
  simp only [hline, Option.getD_some, List.flatMap_append, ← joinRows_append_newline (hne count),
    List.flatMap_singleton, List.append_assoc]

/-- **Every excerpt is laid out so**, with each tab of a line shown as one space, wherever the ends
of the range are. -/
theorem excerpt_laidOut (filename content : String) (start stop : UInt32) (height : Nat) :
    (excerpt filename content ⟨start.toNat, stop.toNat⟩ height).LaidOut showTabs filename
      content.toList ⟨start.toNat, stop.toNat⟩ height := by
  generalize hspan : (⟨start.toNat, stop.toNat⟩ : Span) = span
  have hbound : startLine content.toList span < 4294967296 :=
    Nat.lt_of_le_of_lt (startLine_le_start _ _) (hspan ▸ start.toNat_lt)
  have hwidth := length_toString_le hbound
  have hlt := startLine_lt_length_lines content.toList span
  obtain ⟨line, hline⟩ :
      ∃ line, (lines content.toList)[startLine content.toList span]? = some line :=
    ⟨_, List.getElem?_eq_getElem hlt⟩
  obtain ⟨count, htext⟩ := exists_text_excerpt filename height hline
  have hfree {k : Nat} {l : List Char} (h : (lines content.toList)[k]? = some l) : '\n' ∉ l :=
    newline_not_mem_of_mem_lines (List.mem_of_getElem? h)
  have hrows := flatten_wrapRows (count + 1) (numbered 0 (startLine content.toList span) line)
  refine ⟨cuts_clamp _ _, column_lt .., rfl, line, _, _, hline, htext, ?_,
    length_contextRows (by omega) _, ?_, ?_, ?_⟩
  · intro row hrow
    rcases List.mem_append.1 hrow with hrow | hrow
    · obtain ⟨k, hk⟩ := List.mem_iff_getElem?.1 hrow
      obtain ⟨before, hbefore, _, rfl⟩ := getElem?_contextRows hk
      exact ⟨newline_not_mem_cutRow (newline_not_mem_numbered (hfree hbefore)), length_cutRow _⟩
    · refine ⟨fun hmem => ?_, length_le_of_mem_wrapRows hrow⟩
      have hmem' := List.mem_flatten.2 ⟨row, hrow, hmem⟩
      rw [hrows] at hmem'
      exact newline_not_mem_numbered (hfree hline) (List.mem_of_mem_take hmem')
  · intro k row hk
    obtain ⟨before, hbefore, hnumber, rfl⟩ := getElem?_contextRows hk
    refine ⟨before, hbefore, ?_⟩
    rw [← String.length_toList]
    refine contextRow_cutRow (length_toString_mono (Nat.le_of_lt hnumber)) ?_ before
    simp only [maxWidth]
    omega
  · rw [wrapRows_succ (by simp [numbered])]
    exact List.cons_ne_nil _ _
  · rw [hrows, ← numbered_zero]
    exact List.take_prefix _ _

/-- **A line is not shown as it is**: its tab is printed as a space. -/
theorem excerpt_not_laidOut_tab :
    (excerpt "" "\tx" ⟨1, 2⟩ 5).text = "0 | x\n    ^\n" ∧
      ¬(excerpt "" "\tx" ⟨1, 2⟩ 5).LaidOut id "" "\tx".toList ⟨1, 2⟩ 5 := by
  have htext : (excerpt "" "\tx" ⟨1, 2⟩ 5).text = "0 | x\n    ^\n" := by decide +kernel
  refine ⟨htext, fun h => ?_⟩
  obtain ⟨line, context, rows, hline, hprinted, hrows, hcontext, _, hne, hbeginning⟩ := h.printed
  have hstart : startLine "\tx".toList ⟨1, 2⟩ = 0 := by decide +kernel
  rw [hstart] at hline hcontext hbeginning
  obtain rfl : context = [] := List.length_eq_zero_iff.1 hcontext
  obtain ⟨row, rows, rfl⟩ := List.exists_cons_of_ne_nil hne
  -- the first row ends at the first line feed of the text
  have hfree : ∀ c ∈ row, (c != '\n') = true := by
    intro c hc
    rw [bne_iff_ne]
    rintro rfl
    exact (hrows row (by simp)).1 hc
  have hrow : row = "0 | x".toList := by
    have htake := congrArg (List.takeWhile (· != '\n')) hprinted
    rw [htext, List.nil_append, List.cons_append, List.flatMap_cons, List.append_assoc] at htake
    exact (List.append_nil row).symm.trans
      ((List.takeWhile_append_of_pos hfree).symm.trans htake.symm)
  obtain rfl : line = "\tx".toList := by
    rw [show (lines "\tx".toList)[0]? = some "\tx".toList by decide] at hline
    exact (Option.some.inj hline).symm
  have hbegins : row <+: "0 |\tx".toList := (List.prefix_append row rows.flatten).trans hbeginning
  rw [hrow] at hbegins
  revert hbegins
  decide

end Report

end CssRune
