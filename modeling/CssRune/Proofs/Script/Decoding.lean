/-
**What literals stand for.**

A literal without escapes stands for what is written in it.  An escape stands for at most one
character and is written with at least two, so that a literal with escapes stands for a shorter
text, even when blanks are not counted.  The exception are surrogates without a partner, which make
the text longer; but then there are more replacement characters in it than in the literal.  So the
words of a literal with escapes are never the words that are written in it.

Main results:

* `Script.readEscape_cases` — what an escape stands for, next to how it is written;
* `Script.outweighs_readQuoted` — **how the text of a literal and its value compare**;
* `Script.denotes_of_isPlain`, `Script.words_ne_of_denotes` — **a literal has the words that are
  written in it if it has no escapes**.
-/

import CssRune.Proofs.Script.Literals
import CssRune.Proofs.Text.Words

set_option autoImplicit false

namespace CssRune

namespace Script

/-- A text is one string token with a value, and nothing else. -/
def Denotes (text value : String) : Prop := readToken text.toList = (.string value, [])

variable {s value : String} {cs : List Char} {n : Nat} {c : Char} {points : List Point}

theorem denotes_quote_iff :
    Denotes ("\"" ++ s ++ "\"") value ↔
      ∃ points, readQuoted '"' (s.toList ++ ['"']) = some (points, []) ∧
        Point.text points = value := by
  rw [Denotes]
  cases h : readQuoted '"' (s.toList ++ ['"']) with
  | none => simp [readToken, isNameStart, h]
  | some r =>
    simp only [Option.some.injEq, Prod.ext_iff, and_assoc, exists_eq_left']
    simp [readToken, isNameStart, h, and_comm]

/-- **A literal of plain characters stands for them.** -/
theorem denotes_of_isPlain (h : ∀ c ∈ s.toList, IsPlain c) : Denotes ("\"" ++ s ++ "\"") s := by
  refine denotes_quote_iff.2 ⟨_, readQuoted_plain [] (by decide) (by decide) h, ?_⟩
  have hlone : (s.toList.map Point.char).any Point.isLone = false := by
    simp [Point.isLone]
  have hplain : (s.toList.map Point.char).flatMap Point.plain = s.toList := by
    rw [List.flatMap_map]
    exact List.flatMap_singleton' s.toList
  rw [Point.text, hlone]
  exact (congrArg String.ofList hplain).trans String.ofList_toList

/-! ### Escapes -/

theorem not_mem_of_hexNumber? (h : Text.hexNumber? cs = some n) : '\ufffd' ∉ cs := by
  intro hmem
  cases (hexNumber?_eq_none rfl hmem).symm.trans h

theorem not_mem_take_of_hexOf? {k : Nat} (h : Text.hexOf? k cs = some n) :
    '\ufffd' ∉ cs.take k := by
  unfold Text.hexOf? at h
  split at h
  · cases h
  · exact not_mem_of_hexNumber? h

theorem not_mem_take_readBraced {r : Nat × Nat} (h : readBraced cs = some r) :
    '\ufffd' ∉ ('\x7b' :: cs).take r.2 := by
  by_cases hclosed : '\x7d' ∈ cs
  · obtain ⟨digits, more, rfl, hdigits⟩ := List.eq_append_cons_of_mem hclosed
    have htaken : (digits ++ '\x7d' :: more).takeWhile (· ≠ '\x7d') = digits := by
      rw [takeWhile_append_of_not_mem hdigits]
      simp
    simp only [readBraced, htaken] at h
    split at h
    · split at h
      · rename_i n hn
        split at h
        · cases h
          rw [List.take_succ_cons, List.take_length_add_append]
          simpa using not_mem_of_hexNumber? hn
        · cases h
      · cases h
    · cases h
  · -- without a closing brace everything is taken for digits
    have hall := takeWhile_append_of_not_mem hclosed []
    simp only [List.append_nil, List.takeWhile_nil] at hall
    simp only [readBraced, hall, Nat.lt_irrefl, if_false] at h
    cases h

theorem not_mem_take_readUnicode {r : Point × Nat} (h : readUnicode cs = some r) :
    '\ufffd' ∉ cs.take r.2 := by
  by_cases hopen : ∃ more, cs = '\x7b' :: more
  · obtain ⟨more, rfl⟩ := hopen
    obtain ⟨s, hs, rfl⟩ := Option.map_eq_some_iff.1 (readUnicode.eq_1 more ▸ h)
    exact not_mem_take_readBraced hs
  · rw [readUnicode.eq_2 _ (fun more h => hopen ⟨more, h⟩)] at h
    split at h
    · cases h
    · rename_i high hhigh
      have hfour := not_mem_take_of_hexOf? hhigh
      split at h
      · rename_i more hmore
        split at h
        · rename_i low hlow
          split at h
          · cases h
            -- four digits, the start of a second escape, and four digits again
            have htake : cs.take 10 = cs.take 4 ++ '\\' :: 'u' :: more.take 4 := by
              rw [show (10 : Nat) = 4 + 6 from rfl, List.take_add, hmore]
              rfl
            simpa [htake, hfour] using not_mem_take_of_hexOf? hlow
          · cases h
            exact hfour
        · cases h
          exact hfour
      · cases h
        exact hfour

theorem isBlank_of_isOctal (h : isOctal c = true) : Text.isBlank c = false := by
  have hdigits : ∀ n < 56, 48 ≤ n → Text.isBlank (Char.ofNat n) = false := by decide
  simp only [isOctal, Bool.and_eq_true, decide_eq_true_eq] at h
  have hc := hdigits c.toNat (Nat.lt_succ_of_le h.2) h.1
  rwa [Char.ofNat_toNat] at hc

theorem isOctal_of_mem_take (h : c ∈ cs.take (readOctal cs).2) : isOctal c = true := by
  have hinitial (most : Nat) : (cs.take most).takeWhile isOctal <+: cs :=
    (List.takeWhile_prefix isOctal).trans (List.take_prefix most cs)
  simp only [readOctal] at h
  rw [← List.prefix_iff_eq_take.1 (hinitial _)] at h
  exact List.all_eq_true.1 List.all_takeWhile c h

theorem readOctal_pos (hc : isOctal c = true) (cs : List Char) : 0 < (readOctal (c :: cs)).2 := by
  have hmost : ∃ k, (if c ≤ '3' then 3 else 2) = k + 1 := by
    split <;> exact ⟨_, rfl⟩
  obtain ⟨k, hk⟩ := hmost
  simp [readOctal, hk, hc]

/-- **What an escape stands for.**  It stands for nothing, or for the character that is escaped, or
for one unit that is written with other characters, of which the first is not blank. -/
theorem readEscape_cases (h : readEscape cs = some (points, n)) :
    (points = [] ∧ '\ufffd' ∉ cs.take n) ∨ (∃ c, points = [.char c] ∧ cs.take n = [c]) ∨
      ∃ p c, points = [p] ∧ '\ufffd' ∉ cs.take n ∧ c ∈ cs.take n ∧ Text.isBlank c = false := by
  unfold readEscape at h
  split at h
  case h_1 => cases h
  case h_13 cs =>
    obtain ⟨value, hvalue, h⟩ := Option.map_eq_some_iff.1 h
    cases h
    refine .inr (.inr ⟨_, 'x', rfl, ?_, by simp, by decide⟩)
    simpa using not_mem_take_of_hexOf? hvalue
  case h_14 cs =>
    obtain ⟨s, hs, h⟩ := Option.map_eq_some_iff.1 h
    cases h
    refine .inr (.inr ⟨_, 'u', rfl, ?_, by simp, by decide⟩)
    simpa using not_mem_take_readUnicode hs
  case h_15 =>
    split at h
    · rename_i c cs _ _ _ _ _ _ _ _ _ _ _ _ _ hoctal
      cases h
      obtain ⟨k, hk⟩ := Nat.exists_eq_succ_of_ne_zero (Nat.ne_of_gt (readOctal_pos hoctal cs))
      refine .inr (.inr ⟨_, c, rfl, fun hmem => ?_, ?_, isBlank_of_isOctal hoctal⟩)
      · exact absurd (isOctal_of_mem_take hmem) (by decide)
      · rw [hk, List.take_succ_cons]
        exact List.mem_cons_self
    · cases h
      exact .inr (.inl ⟨_, rfl, rfl⟩)
  all_goals
    cases h
  case h_2 => exact .inl ⟨rfl, by simp⟩
  case h_3 => exact .inl ⟨rfl, by simp⟩
  case h_4 => exact .inl ⟨rfl, by simp⟩
  case h_5 => exact .inl ⟨rfl, by simp⟩
  case h_6 => exact .inl ⟨rfl, by simp⟩
  all_goals exact .inr (.inr ⟨_, _, rfl, by simp, List.mem_cons_self, by decide⟩)

/-! ### Weights -/

/-- The number of characters that are not blank. -/
def solidCount (cs : List Char) : Nat := cs.countP (!Text.isBlank ·)

/-- The number of replacement characters. -/
def markCount (cs : List Char) : Nat := cs.count '\ufffd'

theorem solidCount_append (xs ys : List Char) :
    solidCount (xs ++ ys) = solidCount xs + solidCount ys :=
  List.countP_append

theorem markCount_append (xs ys : List Char) : markCount (xs ++ ys) = markCount xs + markCount ys :=
  List.count_append

/-- Characters of a literal, next to what they stand for: not more characters, less if there is an
escape, and at least as many replacement characters, with one more for each lone surrogate. -/
structure Outweighs (taken : List Char) (points : List Point) : Prop where
  solid : solidCount (points.flatMap Point.plain) ≤ solidCount taken
  escaped : '\\' ∈ taken → solidCount (points.flatMap Point.plain) < solidCount taken
  marks : markCount taken + points.countP Point.isLone ≤ markCount (points.flatMap Point.marked)

namespace Outweighs

variable {taken more : List Char} {points points' : List Point}

theorem append (h : Outweighs taken points) (h' : Outweighs more points') :
    Outweighs (taken ++ more) (points ++ points') := by
  have hsolid := h.solid
  have hsolid' := h'.solid
  have hmarks := h.marks
  have hmarks' := h'.marks
  refine ⟨?_, fun hmem => ?_, ?_⟩
  · simp only [List.flatMap_append, solidCount_append]
    omega
  · simp only [List.flatMap_append, solidCount_append]
    rcases List.mem_append.1 hmem with hmem | hmem
    · have := h.escaped hmem
      omega
    · have := h'.escaped hmem
      omega
  · simp only [List.flatMap_append, markCount_append, List.countP_append]
    omega

end Outweighs

theorem isLone_le_markCount (p : Point) : [p].countP Point.isLone ≤ markCount p.marked := by
  cases p with
  | char c => simp [Point.isLone]
  | lone value => simp [Point.isLone, Point.marked, Point.mark, markCount]

theorem markCount_singleton_le (c : Char) : markCount [c] ≤ markCount (Point.char c).marked := by
  by_cases h : c = '\ufffd'
  · simp [Point.marked, Point.mark, markCount, h]
  · simp [Point.marked, markCount, h]

theorem solidCount_plain_le (p : Point) : solidCount p.plain ≤ 1 := by
  cases p with
  | char c => exact List.countP_le_length
  | lone value => exact Nat.zero_le 1

theorem outweighs_nil : Outweighs [] [] := ⟨by decide, nofun, by decide⟩

theorem outweighs_char (hc : c ≠ '\\') : Outweighs [c] [.char c] := by
  refine ⟨Nat.le_refl _, fun hmem => ?_, ?_⟩
  · exact absurd (List.mem_singleton.1 hmem).symm hc
  · rw [List.flatMap_singleton]
    exact markCount_singleton_le c

/-- **An escape is longer than what it stands for.** -/
theorem outweighs_escape (h : readEscape cs = some (points, n)) :
    Outweighs ('\\' :: cs.take n) points := by
  have hsolid : solidCount ('\\' :: cs.take n) = solidCount (cs.take n) + 1 :=
    List.countP_cons_of_pos (by decide)
  have hmarks : markCount ('\\' :: cs.take n) = markCount (cs.take n) :=
    List.count_cons_of_ne (by decide)
  have hunmarked (h : '\ufffd' ∉ cs.take n) : markCount (cs.take n) = 0 := List.count_eq_zero.2 h
  suffices solidCount (points.flatMap Point.plain) ≤ solidCount (cs.take n) ∧
      markCount (cs.take n) + points.countP Point.isLone ≤
        markCount (points.flatMap Point.marked) by
    obtain ⟨hless, hmore⟩ := this
    refine ⟨?_, fun _ => ?_, ?_⟩
    all_goals omega
  rcases readEscape_cases h with ⟨rfl, hmark⟩ | ⟨c, rfl, htake⟩ | ⟨p, c, rfl, hmark, hc, hblank⟩
  · rw [hunmarked hmark]
    exact ⟨Nat.zero_le _, Nat.le_refl _⟩
  · rw [htake, List.flatMap_singleton, List.flatMap_singleton]
    exact ⟨Nat.le_refl _, markCount_singleton_le c⟩
  · have hpos : 0 < solidCount (cs.take n) := List.countP_pos_iff.2 ⟨c, hc, by simp [hblank]⟩
    have hplain := solidCount_plain_le p
    rw [hunmarked hmark, List.flatMap_singleton, List.flatMap_singleton, Nat.zero_add]
    exact ⟨by omega, isLone_le_markCount p⟩

/-- **How the text of a literal and its value compare.** -/
theorem outweighs_readQuoted {quote : Char} {rest : List Char}
    (h : readQuoted quote cs = some (points, rest)) :
    ∃ taken, cs = taken ++ quote :: rest ∧ Outweighs taken points := by
  fun_induction readQuoted quote cs generalizing points with
  | case1 => cases h
  | case2 cs _ => cases h
  | case3 cs points₀ n hescape ih =>
    obtain ⟨⟨more, rest'⟩, hmore, h⟩ := Option.map_eq_some_iff.1 h
    cases h
    obtain ⟨taken, htaken, hweighs⟩ := ih hmore
    refine ⟨'\\' :: cs.take n ++ taken, ?_, (outweighs_escape hescape).append hweighs⟩
    rw [List.append_assoc, ← htaken, List.cons_append, List.take_append_drop]
  | case4 => cases h
  | case5 =>
    cases h
    exact ⟨[], rfl, outweighs_nil⟩
  | case6 c cs hc _ _ ih =>
    obtain ⟨⟨more, rest'⟩, hmore, h⟩ := Option.map_eq_some_iff.1 h
    cases h
    obtain ⟨taken, rfl, hweighs⟩ := ih hmore
    exact ⟨c :: taken, rfl, (outweighs_char hc).append hweighs⟩

/-! ### Words of literals -/

/-- **A literal with an escape does not have the words that are written in it.** -/
theorem words_ne_of_denotes (h : Denotes ("\"" ++ s ++ "\"") value) (hs : '\\' ∈ s.toList) :
    Text.words value.toList ≠ Text.words s.toList := by
  obtain ⟨points, hpoints, rfl⟩ := denotes_quote_iff.1 h
  obtain ⟨taken, htaken, hweighs⟩ := outweighs_readQuoted hpoints
  obtain rfl : s.toList = taken := List.append_cancel_right htaken
  intro hwords
  have hfilter := congrArg (List.flatMap String.toList) hwords
  rw [Text.flatMap_words, Text.flatMap_words, Point.text, String.toList_ofList] at hfilter
  cases hlone : points.any Point.isLone with
  | false =>
    -- the value has less characters that are not blank
    rw [hlone] at hfilter
    have hcount := congrArg List.length hfilter
    rw [← List.countP_eq_length_filter, ← List.countP_eq_length_filter] at hcount
    exact absurd hcount (Nat.ne_of_lt (hweighs.escaped hs))
  | true =>
    -- the value has more replacement characters
    rw [hlone] at hfilter
    have hcount := congrArg (List.count '\ufffd') hfilter
    rw [List.count_filter (by decide), List.count_filter (by decide)] at hcount
    have hpos : 0 < points.countP Point.isLone := by
      obtain ⟨p, hp, hlone⟩ := List.any_eq_true.1 hlone
      exact List.countP_pos_iff.2 ⟨p, hp, hlone⟩
    have hmarks := hweighs.marks
    have hsame : markCount (points.flatMap Point.marked) = markCount s.toList := hcount
    omega

end Script

end CssRune
