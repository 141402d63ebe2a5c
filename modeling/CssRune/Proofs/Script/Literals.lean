/-
**String literals, read word by word.**

A literal is read from its opening quote to the closing one, and an escape may look at several of
the characters that follow it.  Classes are written into literals as they are, so it has to be said
when a list of words between quotes is a literal.  A word that ends in a dash and plain characters
is closed: no escape looks past the dash, so that such words are read one by one.

Main results:

* `Script.readEscape_append_dash` — an escape does not look past a dash;
* `Script.closed_append_dash` — a word that ends in a dash is closed;
* `Script.closes_intercalate_iff` — **a list of closed words is read if each of them is**.
-/

import CssRune.Script.Token

set_option autoImplicit false

namespace CssRune

namespace Script

/-- A text is one string token and nothing else. -/
def IsLiteral (text : String) : Prop := ∃ value, readToken text.toList = (.string value, [])

/-- The characters after an opening quote are read up to a closing one that ends them. -/
def Closes (cs : List Char) : Prop := (readQuoted '"' cs).map Prod.snd = some []

instance (cs : List Char) : Decidable (Closes cs) := inferInstanceAs (Decidable (_ = _))

variable {cs w p : List Char} {x c : Char}

theorem closes_iff : Closes cs ↔ ∃ points, readQuoted '"' cs = some (points, []) := by
  rw [Closes, Option.map_eq_some_iff]
  constructor
  · rintro ⟨⟨points, rest⟩, h, rfl⟩
    exact ⟨points, h⟩
  · rintro ⟨points, h⟩
    exact ⟨_, h, rfl⟩

theorem isLiteral_quote_iff {s : String} :
    IsLiteral ("\"" ++ s ++ "\"") ↔ Closes (s.toList ++ ['"']) := by
  rw [IsLiteral, closes_iff]
  cases h : readQuoted '"' (s.toList ++ ['"']) with
  | none => simp [readToken, isNameStart, h]
  | some r => simp [readToken, isNameStart, h, Prod.ext_iff]

/-! ### Escapes before a dash -/

theorem hexNumber?_eq_none (hx : Text.hexDigit? x = none) (h : x ∈ cs) :
    Text.hexNumber? cs = none := by
  have hdigits : cs.mapM Text.hexDigit? = none := by
    induction cs with
    | nil => simp at h
    | cons c cs ih =>
      rcases List.mem_cons.1 h with rfl | h
      · simp [List.mapM_cons, hx]
      · simp [List.mapM_cons, ih h]
  simp [Text.hexNumber?, hdigits]

theorem hexOf?_append_dash (n : Nat) (b t : List Char) :
    Text.hexOf? n (b ++ '-' :: t) = Text.hexOf? n b := by
  unfold Text.hexOf?
  by_cases hn : b.length < n
  · rw [if_pos hn]
    split
    · rfl
    · -- the dash is among the digits asked for
      refine hexNumber?_eq_none (x := '-') rfl ?_
      rw [List.take_append, List.mem_append]
      obtain ⟨k, hk⟩ := Nat.exists_eq_succ_of_ne_zero (Nat.sub_ne_zero_of_lt hn)
      simp [hk]
  · rw [if_neg hn, if_neg (by simp; omega), List.take_append_of_le_length (by omega)]

theorem takeWhile_append_of_not_mem (h : x ∉ cs) (more : List Char) :
    (cs ++ more).takeWhile (· ≠ x) = cs ++ more.takeWhile (· ≠ x) := by
  refine List.takeWhile_append_of_pos ?_
  intro c hc
  have hne : c ≠ x := fun heq => h (heq ▸ hc)
  simpa using hne

theorem readBraced_append_dash (b t : List Char) : readBraced (b ++ '-' :: t) = readBraced b := by
  by_cases hclosed : '\x7d' ∈ b
  · obtain ⟨digits, rest, rfl, hdigits⟩ := List.eq_append_cons_of_mem hclosed
    simp only [readBraced, List.append_assoc, List.cons_append,
      takeWhile_append_of_not_mem hdigits]
    simp
  · -- what is taken is all of the text, or holds the dash
    have hall := takeWhile_append_of_not_mem hclosed []
    have hdash := takeWhile_append_of_not_mem hclosed ('-' :: t)
    rw [List.takeWhile_cons_of_pos (by decide)] at hdash
    simp only [List.append_nil, List.takeWhile_nil] at hall
    simp only [readBraced, hall, hdash]
    rw [hexNumber?_eq_none (show Text.hexDigit? '-' = none from rfl) (by simp)]
    simp

theorem le_length_of_hexOf?_eq_some {n value : Nat} (h : Text.hexOf? n cs = some value) :
    n ≤ cs.length := by
  unfold Text.hexOf? at h
  split at h
  · cases h
  · omega

theorem readUnicode_append_dash (b t : List Char) :
    readUnicode (b ++ '-' :: t) = readUnicode b := by
  by_cases hopen : ∃ cs, b = '\x7b' :: cs
  · obtain ⟨cs, rfl⟩ := hopen
    simp only [List.cons_append, readUnicode, readBraced_append_dash]
  · have hopen' : ∀ cs, b ++ '-' :: t = '\x7b' :: cs → False := by
      intro cs h
      cases b with
      | nil => simp at h
      | cons c b =>
        simp only [List.cons_append, List.cons.injEq] at h
        exact hopen ⟨b, by rw [h.1]⟩
    rw [readUnicode.eq_2 _ hopen', readUnicode.eq_2 _ (fun cs h => hopen ⟨cs, h⟩),
      hexOf?_append_dash]
    cases hhigh : Text.hexOf? 4 b with
    | none => rfl
    | some high =>
      rw [List.drop_append_of_le_length (le_length_of_hexOf?_eq_some hhigh)]
      -- a second number may follow, and it ends before the dash as well
      rcases b.drop 4 with _ | ⟨c, _ | ⟨d, more⟩⟩
      · rfl
      · simp
      · by_cases hmore : c = '\\' ∧ d = 'u'
        · obtain ⟨rfl, rfl⟩ := hmore
          simp only [List.cons_append, hexOf?_append_dash]
        · simp_all

theorem takeWhile_isOctal_take (n : Nat) (b t : List Char) :
    ((b ++ '-' :: t).take n).takeWhile isOctal = (b.take n).takeWhile isOctal := by
  induction b generalizing n with
  | nil => cases n <;> rfl
  | cons c b ih =>
    cases n with
    | zero => rfl
    | succ n => simp only [List.cons_append, List.take_succ_cons, List.takeWhile_cons, ih]

theorem readOctal_append_dash (c : Char) (b t : List Char) :
    readOctal (c :: b ++ '-' :: t) = readOctal (c :: b) := by
  simp only [readOctal, takeWhile_isOctal_take]
  rfl

/-- **An escape does not look past a dash.** -/
theorem readEscape_append_dash {b : List Char} (hb : b ≠ []) (t : List Char) :
    readEscape (b ++ '-' :: t) = readEscape b := by
  fun_cases readEscape b with
  | case1 => exact absurd rfl hb
  | case4 b hb' =>
    -- a carriage return takes a line feed along, and the dash is none
    cases b with
    | nil => rfl
    | cons c b => simp_all [readEscape]
  | case13 b => simp [readEscape, hexOf?_append_dash]
  | case14 b => simp [readEscape, readUnicode_append_dash]
  | case15 c b _ _ _ _ _ _ _ _ _ _ _ _ _ hoctal =>
    have hdigits := readOctal_append_dash c b t
    show readEscape (c :: b ++ '-' :: t) = some ([(readOctal (c :: b)).1], (readOctal (c :: b)).2)
    simp_all [readEscape]
  | case16 => simp_all [readEscape]
  | _ => rfl

/-! ### Escapes are part of their text -/

theorem readBraced_le {r : Nat × Nat} (h : readBraced cs = some r) : r.2 ≤ cs.length + 1 := by
  simp only [readBraced] at h
  split at h
  · split at h
    · split at h
      · cases h
        simp only
        omega
      · cases h
    · cases h
  · cases h

theorem readUnicode_le {r : Point × Nat} (h : readUnicode cs = some r) : r.2 ≤ cs.length := by
  by_cases hopen : ∃ more, cs = '\x7b' :: more
  · obtain ⟨more, rfl⟩ := hopen
    obtain ⟨s, hs, rfl⟩ := Option.map_eq_some_iff.1 (readUnicode.eq_1 more ▸ h)
    exact readBraced_le hs
  · rw [readUnicode.eq_2 _ (fun more h => hopen ⟨more, h⟩)] at h
    split at h
    · cases h
    · rename_i high hhigh
      have hfour := le_length_of_hexOf?_eq_some hhigh
      split at h
      · rename_i more hmore
        have hlength := congrArg List.length hmore
        simp only [List.length_drop, List.length_cons] at hlength
        split at h
        · rename_i low hlow
          have hfour' := le_length_of_hexOf?_eq_some hlow
          split at h
          all_goals
            cases h
            simp only
            omega
        · cases h
          exact hfour
      · cases h
        exact hfour

theorem readOctal_le (cs : List Char) : (readOctal cs).2 ≤ cs.length :=
  Nat.le_trans (List.takeWhile_sublist _).length_le (List.length_take_le' ..)

/-- An escape is part of its text. -/
theorem readEscape_le {r : List Point × Nat} (h : readEscape cs = some r) : r.2 ≤ cs.length := by
  unfold readEscape at h
  split at h
  case h_1 => cases h
  case h_13 cs =>
    obtain ⟨value, hvalue, rfl⟩ := Option.map_eq_some_iff.1 h
    have := le_length_of_hexOf?_eq_some hvalue
    simp only [List.length_cons]
    omega
  case h_14 cs =>
    obtain ⟨s, hs, rfl⟩ := Option.map_eq_some_iff.1 h
    have := readUnicode_le hs
    simp only [List.length_cons]
    omega
  case h_15 =>
    split at h
    · cases h
      exact readOctal_le (_ :: _)
    · cases h
      simp
  all_goals
    cases h
    simp

/-! ### Closed words -/

/-- A character that stands for itself in a literal. -/
def IsPlain (c : Char) : Prop := c ≠ '\\' ∧ c ≠ '\n' ∧ c ≠ '\r' ∧ c ≠ '"'

instance (c : Char) : Decidable (IsPlain c) := inferInstanceAs (Decidable (_ ∧ _))

theorem closes_cons_of_isPlain (hc : IsPlain c) (cs : List Char) :
    Closes (c :: cs) ↔ Closes cs := by
  obtain ⟨h₁, h₂, h₃, h₄⟩ := hc
  simp [Closes, readQuoted, h₁, h₂, h₃, h₄]

theorem closes_escape_iff :
    Closes ('\\' :: cs) ↔ ∃ r, readEscape cs = some r ∧ Closes (cs.drop r.2) := by
  rw [Closes, readQuoted]
  cases h : readEscape cs with
  | none => simp
  | some r => simp [Closes]

theorem closes_quote_iff : Closes ('"' :: cs) ↔ cs = [] := by
  simp [Closes, readQuoted]

theorem not_closes_of_lineEnd (hc : c = '\n' ∨ c = '\r') (cs : List Char) : ¬ Closes (c :: cs) := by
  rcases hc with rfl | rfl <;> simp [Closes, readQuoted]

/-- A word is closed: what follows it cannot make up for it, or does not depend on it. -/
def Closed (w : List Char) : Prop :=
  (∀ more, ¬ Closes (w ++ more)) ∨ ∀ more, Closes (w ++ more) ↔ Closes more

theorem Closed.of_iff {w' : List Char} (hw : Closed w)
    (h : ∀ more, Closes (w' ++ more) ↔ Closes (w ++ more)) : Closed w' := by
  rcases hw with hw | hw
  · exact .inl fun more hcloses => hw more ((h more).1 hcloses)
  · exact .inr fun more => (h more).trans (hw more)

/-- Reading gets stuck before a dash, or goes on behind it. -/
theorem closed_append_dash (b : List Char) : Closed (b ++ ['-']) := by
  have hdash : IsPlain '-' := by decide
  -- along the reader: the text is consumed before the dash is reached, but for a last backslash
  fun_induction readQuoted '"' b with
  | case1 => exact .inr fun more => closes_cons_of_isPlain hdash more
  | case2 cs hescape =>
    cases cs with
    | nil => exact .inr fun more => closes_escape_iff.trans (by simp [readEscape, isOctal])
    | cons c cs =>
      refine .inl fun more hcloses => ?_
      simp only [List.append_assoc, List.cons_append, List.nil_append] at hcloses
      obtain ⟨r, hr, _⟩ := closes_escape_iff.1 hcloses
      rw [← List.cons_append, readEscape_append_dash (List.cons_ne_nil c cs), hescape] at hr
      cases hr
  | case3 cs points n hescape ih =>
    have hne : cs ≠ [] := by
      rintro rfl
      cases hescape
    refine ih.of_iff fun more => ?_
    simp only [List.append_assoc, List.cons_append, List.nil_append]
    rw [closes_escape_iff, readEscape_append_dash hne, hescape]
    simp [List.drop_append_of_le_length (readEscape_le hescape)]
  | case4 c cs _ hend => exact .inl fun more => not_closes_of_lineEnd hend _
  | case5 cs =>
    refine .inl fun more hcloses => ?_
    simpa using closes_quote_iff.1 hcloses
  | case6 c cs h₁ h₂ h₃ ih =>
    rw [not_or] at h₂
    exact ih.of_iff fun more => closes_cons_of_isPlain ⟨h₁, h₂.1, h₂.2, h₃⟩ _

theorem closes_append_of_isPlain (hp : ∀ c ∈ p, IsPlain c) (more : List Char) :
    Closes (p ++ more) ↔ Closes more := by
  induction p with
  | nil => rfl
  | cons c p ih =>
    obtain ⟨hc, hp⟩ := List.forall_mem_cons.1 hp
    exact (closes_cons_of_isPlain hc _).trans (ih hp)

theorem closed_of_isPlain (hp : ∀ c ∈ p, IsPlain c) : Closed p :=
  .inr fun more => closes_append_of_isPlain hp more

theorem Closed.append_isPlain (hw : Closed w) (hp : ∀ c ∈ p, IsPlain c) : Closed (w ++ p) := by
  unfold Closed
  simp only [List.append_assoc]
  rcases hw with hw | hw
  · exact .inl fun more => hw _
  · exact .inr fun more => (hw _).trans (closes_append_of_isPlain hp more)

theorem Closed.closes_append_iff (hw : Closed w) (more : List Char) :
    Closes (w ++ more) ↔ Closes (w ++ ['"']) ∧ Closes more := by
  rcases hw with hw | hw
  · simp [hw]
  · rw [hw, hw, closes_quote_iff]
    simp

/-- **A list of closed words is read if each of them is.** -/
theorem closes_intercalate_iff {ws : List (List Char)} (hws : ∀ w ∈ ws, Closed w) :
    Closes ([' '].intercalate ws ++ ['"']) ↔ ∀ w ∈ ws, Closes (w ++ ['"']) := by
  have hblank : IsPlain ' ' := by decide
  induction ws with
  | nil => simp [closes_quote_iff]
  | cons w ws ih =>
    obtain ⟨hw, hws⟩ := List.forall_mem_cons.1 hws
    cases ws with
    | nil => simp
    | cons w' ws =>
      rw [List.intercalate_cons_cons, List.append_assoc, List.append_assoc,
        hw.closes_append_iff, List.singleton_append, closes_cons_of_isPlain hblank,
        List.forall_mem_cons]
      exact and_congr_right fun _ => ih hws

end Script

end CssRune
