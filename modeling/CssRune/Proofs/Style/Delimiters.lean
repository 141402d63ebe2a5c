/-
**The search for a delimiter, step by step.**

The search for a delimiter passes over blanks, comments, strings, names and brackets.  What it finds
from a cursor is what it finds from any cursor that it passes on its way, so that a search may be
taken up again at the start of the next node.

Main results:

* `delimiterFrom_cons` — one step of the search;
* `delimiterFrom_of_passBlanks`, `delimiterFrom_skip` — **blanks, comments and names are passed**;
* `delimiterFrom_found` — a delimiter that is found is found again from where it stands.
-/

import CssRune.Proofs.Style.Sheets

set_option autoImplicit false

namespace CssRune

/-- The next delimiter outside strings, comments and `depth` open brackets, and the cursor at it. -/
def delimiterFrom (beyond : Option Char) (depth : Nat) (c : Cursor) :
    Except ParseError (Delimiter × Cursor) :=
  (nextDelimiter beyond depth c).map fun r => (r.value, r.next)

/-- The number of open brackets after a character. -/
def depthAfter (ch : Char) (depth : Nat) : Nat :=
  if ch = '(' ∨ ch = '[' then depth + 1 else if ch = ')' ∨ ch = ']' then depth - 1 else depth

/-- The delimiter a character stands for outside of brackets. -/
def Delimiter.outside? (depth : Nat) (ch : Char) : Option Delimiter :=
  if depth = 0 then Delimiter.ofChar? ch else Option.none

/-- Characters that mean nothing to the search for a delimiter. -/
def isInert (ch : Char) : Bool :=
  !(['"', '\'', '/', '(', '[', ')', ']', ';', '\x7b', '\x7d'].contains ch)

section Steps

variable {beyond : Option Char} {depth : Nat} {c d : Cursor} {ch : Char} {rest after : List Char}

theorem delimiterFrom_eq_ok_iff {v : Delimiter} :
    delimiterFrom beyond depth c = .ok (v, d) ↔
      ∃ r, nextDelimiter beyond depth c = .ok r ∧ r.value = v ∧ r.next = d := by
  rw [delimiterFrom, map_eq_ok_iff]
  simp only [Prod.mk.injEq]

theorem map_after_eq {x : Except ParseError (Pace Delimiter d)} (h : d.length < c.length) :
    (do let r ← x; return r.after h : Except ParseError (Pace Delimiter c)).map
      (fun r => (r.value, r.next)) = x.map fun r => (r.value, r.next) := by
  cases x <;> rfl

theorem isInert_of_isSpace (h : Text.isSpace ch = true) : isInert ch = true := by
  simp only [Text.isSpace, Bool.or_eq_true, beq_iff_eq] at h
  rcases h with (((rfl | rfl) | rfl) | rfl) | rfl <;> decide

theorem isInert_of_isIdentChar (h : isIdentChar ch = true) : isInert ch = true := by
  have hall : ['"', '\'', '/', '(', '[', ')', ']', ';', '\x7b', '\x7d'].all
      (fun ch => !isIdentChar ch) = true := by decide
  rw [isInert, Bool.not_eq_true']
  refine Bool.eq_false_iff.2 fun hmem => ?_
  have hnot := List.all_eq_true.1 hall ch (List.contains_iff_mem.1 hmem)
  rw [h] at hnot
  cases hnot

/-- **One step of the search**: what is found from a character on. -/
theorem delimiterFrom_cons (hc : c.rest = ch :: rest) :
    delimiterFrom beyond depth c =
      if ch = '"' ∨ ch = '\'' then
        match Text.afterQuoted ch rest with
        | none => .error ⟨.unterminatedString, c.pos⟩
        | some after => delimiterFrom beyond depth (c.moveTo after)
      else if ch = '/' ∧ rest.head? = some '*' then
        match Text.afterComment (rest.drop 1) with
        | none => .error ⟨.unterminatedComment, c.pos⟩
        | some after => delimiterFrom beyond depth (c.moveTo after)
      else if ch = '/' ∧ rest = [] ∧ beyond = some '*' then .error ⟨.stalled, c.pos⟩
      else
        match Delimiter.outside? depth ch with
        | some delimiter => .ok (delimiter, c)
        | none => delimiterFrom beyond (depthAfter ch depth) c.next := by
  rw [delimiterFrom, nextDelimiter]
  split
  · rename_i hnil
    cases hc.symm.trans hnil
  · rename_i ch' rest' hc'
    obtain ⟨rfl, rfl⟩ := List.cons.inj (hc.symm.trans hc')
    split
    · split
      · rename_i hr
        simp only [hr]
        rfl
      · rename_i after hr
        simp only [hr]
        exact map_after_eq _
    · split
      · split
        · rename_i hr
          simp only [hr]
          rfl
        · rename_i after hr
          simp only [hr]
          exact map_after_eq _
      · split
        · rfl
        · split
          · rename_i delimiter hd
            rw [Delimiter.outside?, if_pos rfl, hd]
            rfl
          · rename_i depth _ _ hnone
            have houtside : Delimiter.outside? depth ch = none := by
              unfold Delimiter.outside?
              split
              · rename_i hzero
                exact Option.eq_none_iff_forall_ne_some.2 fun d hd => hnone d hzero hd
              · rfl
            rw [houtside]
            exact map_after_eq _

/-- An inert character is passed. -/
theorem delimiterFrom_of_inert (hc : c.rest = ch :: rest) (hch : isInert ch = true) :
    delimiterFrom beyond depth c = delimiterFrom beyond depth c.next := by
  simp only [isInert, List.contains_eq_mem, List.mem_cons, List.not_mem_nil, or_false,
    Bool.not_eq_true', decide_eq_false_iff_not, not_or] at hch
  obtain ⟨hq, hq', hslash, hopen, hopen', hclose, hclose', hsemi, hlb, hrb⟩ := hch
  have hdelimiter : Delimiter.ofChar? ch = none := by
    unfold Delimiter.ofChar?
    split <;> first | contradiction | rfl
  have houtside : Delimiter.outside? depth ch = none := by
    rw [Delimiter.outside?, hdelimiter, ite_self]
  have hdepth : depthAfter ch depth = depth := by
    simp [depthAfter, hopen, hopen', hclose, hclose']
  rw [delimiterFrom_cons hc, if_neg (by simp [hq, hq']), if_neg (by simp [hslash]),
    if_neg (by simp [hslash]), houtside, hdepth]

theorem delimiterFrom_of_comment (hc : c.rest = '/' :: rest) (hstar : rest.head? = some '*')
    (hr : Text.afterComment (rest.drop 1) = some after) :
    delimiterFrom beyond depth c = delimiterFrom beyond depth (c.moveTo after) := by
  rw [delimiterFrom_cons hc, if_neg (by decide), if_pos ⟨rfl, hstar⟩, hr]

/-! ### What is passed -/

/-- **Blanks and comments are passed.** -/
theorem delimiterFrom_of_passBlanks {b : Pace Unit c} (h : passBlanks c = .ok b) :
    delimiterFrom beyond depth c = delimiterFrom beyond depth b.next := by
  fun_induction passBlanks c with
  | case1 =>
    injection h with h
    rw [← h]
  | case2 c ch rest hc hspace ih =>
    obtain ⟨b', hb', h⟩ := bind_eq_ok_iff.1 h
    rw [← pure_eq_ok_iff.1 h, Pace.next_after, ← ih hb']
    exact delimiterFrom_of_inert hc (isInert_of_isSpace hspace)
  | case3 => cases h
  | case4 c ch rest hc _ hopen after hr ih =>
    obtain ⟨b', hb', h⟩ := bind_eq_ok_iff.1 h
    obtain ⟨rfl, hstar⟩ := hopen
    rw [← pure_eq_ok_iff.1 h, Pace.next_after, ← ih hb']
    exact delimiterFrom_of_comment hc hstar hr
  | case5 =>
    injection h with h
    rw [← h]

/-- A comment that is left open is found by the search as well. -/
theorem delimiterFrom_of_passBlanks_eq_error {e : ParseError} (h : passBlanks c = .error e) :
    delimiterFrom beyond depth c = .error e := by
  fun_induction passBlanks c with
  | case1 => cases h
  | case2 c ch rest hc hspace ih =>
    rcases bind_eq_error_iff.1 h with h | ⟨_, _, h⟩
    · rw [delimiterFrom_of_inert hc (isInert_of_isSpace hspace), ih h]
    · cases h
  | case3 c ch rest hc _ hopen hr =>
    obtain ⟨rfl, hstar⟩ := hopen
    cases h
    rw [delimiterFrom_cons hc, if_neg (by decide), if_pos ⟨rfl, hstar⟩, hr]
  | case4 c ch rest hc _ hopen after hr ih =>
    obtain ⟨rfl, hstar⟩ := hopen
    rcases bind_eq_error_iff.1 h with h | ⟨_, _, h⟩
    · rw [delimiterFrom_of_comment hc hstar hr, ih h]
    · cases h
  | case5 => cases h

theorem Cursor.skip_succ (hc : c.rest = ch :: rest) (n : Nat) :
    c.skip (n + 1) = c.next.skip n := by
  obtain ⟨pos, text⟩ := c
  subst hc
  simp [Cursor.skip, Cursor.next, Nat.add_assoc]

/-- **Names are passed.** -/
theorem delimiterFrom_skip (n : Nat) (h : ∀ ch ∈ c.rest.take n, isIdentChar ch = true) :
    delimiterFrom beyond depth c = delimiterFrom beyond depth (c.skip n) := by
  induction n generalizing c with
  | zero => rfl
  | succ n ih =>
    cases hc : c.rest with
    | nil =>
      obtain ⟨pos, text⟩ := c
      obtain rfl : text = [] := hc
      simp [Cursor.skip]
    | cons ch rest =>
      rw [hc, List.take_succ_cons] at h
      obtain ⟨hch, hrest⟩ := List.forall_mem_cons.1 h
      rw [Cursor.skip_succ hc, ← ih (by rwa [Cursor.rest_next hc])]
      exact delimiterFrom_of_inert hc (isInert_of_isIdentChar hch)

/-! ### What is found -/

theorem delimiterFrom_of_nil (hc : c.rest = []) :
    delimiterFrom beyond depth c = .ok (.none, c) := by
  rw [delimiterFrom, nextDelimiter]
  split
  · rfl
  · rename_i hcons
    cases hc.symm.trans hcons

/-- Outside of brackets a delimiter is found where it stands. -/
theorem delimiterFrom_of_ofChar? {v : Delimiter} (hc : c.rest = ch :: rest)
    (hv : Delimiter.ofChar? ch = some v) : delimiterFrom beyond 0 c = .ok (v, c) := by
  have hch : ch = ';' ∨ ch = '\x7b' ∨ ch = '\x7d' := by
    unfold Delimiter.ofChar? at hv
    split at hv <;> simp_all
  rw [delimiterFrom_cons hc, if_neg (by rcases hch with rfl | rfl | rfl <;> decide),
    if_neg (by rcases hch with rfl | rfl | rfl <;> simp),
    if_neg (by rcases hch with rfl | rfl | rfl <;> simp), Delimiter.outside?, if_pos rfl, hv]

/-- A search that finds no delimiter is at the end of the text. -/
theorem rest_of_nextDelimiter_none {r : Pace Delimiter c} (h : nextDelimiter beyond depth c = .ok r)
    (hr : r.value = .none) : r.next.rest = [] := by
  fun_induction nextDelimiter beyond depth c with
  | case1 depth c hc =>
    injection h with h
    subst h
    exact hc
  | case2 => cases h
  | case4 => cases h
  | case6 => cases h
  | case7 c ch rest hc _ _ _ delimiter hd =>
    injection h with h
    subst h
    obtain rfl : delimiter = .none := hr
    unfold Delimiter.ofChar? at hd
    split at hd <;> cases hd
  | case3 | case5 | case8 =>
    rename_i ih
    obtain ⟨p, hp, h⟩ := bind_eq_ok_iff.1 h
    rw [← pure_eq_ok_iff.1 h] at hr ⊢
    exact ih hp hr

/-- **A delimiter that is found is found again from where it stands.** -/
theorem delimiterFrom_found {v : Delimiter} (h : delimiterFrom beyond depth c = .ok (v, d)) :
    delimiterFrom beyond 0 d = .ok (v, d) := by
  obtain ⟨r, hr, rfl, rfl⟩ := delimiterFrom_eq_ok_iff.1 h
  rcases (nextDelimiter_leads hr).2 with hnone | ⟨ch, rest, hrest, hch⟩
  · rw [hnone]
    exact delimiterFrom_of_nil (rest_of_nextDelimiter_none hr hnone)
  · exact delimiterFrom_of_ofChar? hrest hch

end Steps

end CssRune
