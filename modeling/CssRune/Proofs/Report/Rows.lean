/-
**Lines and the rows they are wrapped into.**

A text is divided into lines at its line feeds, and a long line into rows of the maximal width.
Row number `i` of a line starts at column `i * 80`; this module says which rows are printed, and in
which order, when at most a given number of them is asked for.

Main results:

* `Report.getElem?_lines` — the line that stands between two line feeds;
* `Report.joinRows_wrapRows` — **the first rows of a line are printed one after another**;
* `Report.wrapRows_of_length_le` — no more rows are printed than there are.
-/

import CssRune.Report.Excerpt

set_option autoImplicit false

namespace CssRune

namespace Report

/-! ### Lines -/

theorem length_lines (cs : List Char) : (lines cs).length = cs.count '\n' + 1 := by
  unfold lines
  induction cs with
  | nil => rfl
  | cons c cs ih =>
    rw [List.splitOn_cons_eq_if_modifyHead, List.count_cons]
    split
    · rw [List.length_cons, ih]
    · rw [List.length_modifyHead, ih, Nat.add_zero]

/-- The line that stands between two line feeds, or at an end of the text, has the number of line
feeds before it. -/
theorem getElem?_lines {above line below : List Char} (habove : ∀ c ∈ above.getLast?, c = '\n')
    (hline : '\n' ∉ line) (hbelow : ∀ c ∈ below.head?, c = '\n') :
    (lines (above ++ line ++ below))[above.count '\n']? = some line := by
  have hfirst : (lines (line ++ below))[0]? = some line := by
    cases below with
    | nil => rw [List.append_nil, lines, List.splitOn_eq_singleton hline]; rfl
    | cons c below =>
      obtain rfl := hbelow c rfl
      rw [lines, List.splitOn_append_cons_self_of_not_mem hline]
      rfl
  rw [List.append_assoc]
  rcases List.eq_nil_or_concat above with rfl | ⟨front, c, rfl⟩
  · exact hfirst
  · obtain rfl := habove c (by simp)
    have hdivided := List.splitOn_append_cons_self (a := '\n') front (line ++ below)
    rw [List.concat_eq_append, List.append_assoc, List.singleton_append, lines, hdivided, ← lines,
      ← lines, List.getElem?_append_right (by simp [length_lines])]
    simpa [length_lines] using hfirst

/-! ### Rows -/

/-- Row number `i` of a line. -/
def row (i : Nat) (line : List Char) : List Char := (line.drop (maxWidth * i)).take maxWidth

/-- The rows before row number `i`, each with its line feed. -/
def rowsBefore (i : Nat) (line : List Char) : List Char :=
  (List.range i).flatMap fun j => row j line ++ ['\n']

theorem row_drop (i : Nat) (line : List Char) : row i (line.drop maxWidth) = row (i + 1) line := by
  rw [row, row, List.drop_drop, Nat.mul_succ, Nat.add_comm]

theorem rowsBefore_one_add (i : Nat) (line : List Char) :
    rowsBefore (i + 1) line = row 0 line ++ '\n' :: rowsBefore i (line.drop maxWidth) := by
  simp only [rowsBefore, List.range_succ_eq_map, List.flatMap_cons, List.flatMap_map, row_drop,
    List.append_assoc, List.singleton_append]

theorem rowsBefore_succ (i : Nat) (line : List Char) :
    rowsBefore (i + 1) line = rowsBefore i line ++ row i line ++ ['\n'] := by
  simp only [rowsBefore, List.range_succ, List.flatMap_append, List.flatMap_singleton,
    List.append_assoc]

theorem getElem?_row {i k : Nat} (cs : List Char) (hk : k < maxWidth) :
    (row i cs)[k]? = cs[maxWidth * i + k]? := by
  rw [row, List.getElem?_take_of_lt hk, List.getElem?_drop]

theorem wrapRows_succ {line : List Char} (h : line ≠ []) (count : Nat) :
    wrapRows (count + 1) line = row 0 line :: wrapRows count (line.drop maxWidth) := by
  cases line with
  | nil => exact absurd rfl h
  | cons c cs => rfl

/-- **The first rows of a line are printed one after another**, as long as there are any. -/
theorem joinRows_wrapRows {i : Nat} {line : List Char} (h : maxWidth * i < line.length) :
    joinRows (wrapRows (i + 1) line) = rowsBefore i line ++ row i line := by
  induction i generalizing line with
  | zero =>
    rw [wrapRows_succ (List.ne_nil_of_length_pos (by omega)), wrapRows]
    exact List.append_nil _
  | succ i ih =>
    have hrest : maxWidth * i < (line.drop maxWidth).length := by
      rw [List.length_drop]
      rw [Nat.mul_succ] at h
      omega
    have hne : line ≠ [] := List.ne_nil_of_length_pos (by omega)
    have hne' : line.drop maxWidth ≠ [] := List.ne_nil_of_length_pos (by omega)
    have hrows := ih hrest
    rw [wrapRows_succ hne'] at hrows
    rw [wrapRows_succ hne, wrapRows_succ hne', joinRows, List.intercalate_cons_cons,
      ← joinRows, hrows, rowsBefore_one_add, row_drop, List.append_assoc, List.append_assoc,
      List.singleton_append, List.cons_append]

/-- No more rows are printed than there are. -/
theorem wrapRows_of_length_le {count more : Nat} {line : List Char}
    (h : line.length ≤ maxWidth * count) : wrapRows (count + more) line = wrapRows count line := by
  induction count generalizing line with
  | zero =>
    obtain rfl : line = [] := List.length_eq_zero_iff.1 (by omega)
    cases more <;> rfl
  | succ count ih =>
    cases line with
    | nil =>
      rw [Nat.add_right_comm]
      rfl
    | cons c cs =>
      have hrest : ((c :: cs).drop maxWidth).length ≤ maxWidth * count := by
        rw [List.length_drop]
        rw [Nat.mul_succ] at h
        omega
      rw [Nat.add_right_comm, wrapRows_succ (List.cons_ne_nil c cs),
        wrapRows_succ (List.cons_ne_nil c cs), ih hrest]

end Report

end CssRune
