/-
**Where a brace is closed, in bytes.**

The searches read characters, and the places they find are counted in bytes.  Every sign a search
looks for is one byte, and every other character is a run of bytes that no search stops at; so a
search may as well read a text byte by byte, and then it reads any bytes at all.

Main results:

* `afterBrace_byteChars` — a search finds the same place byte by byte;
* `closingBrace?_eq_some_iff` — what is found is what closes the brace;
* `closingBrace_of_bytes` — **where a brace is closed**.
-/

import CssRune.Proofs.Markup.Balance
import CssRune.Text.Bytes

set_option autoImplicit false

namespace CssRune

open Text

/-! ### Characters of more than one byte -/

/-- Characters that are none of the signs. -/
def Wide (xs : List Char) : Prop := ∀ x ∈ xs, 128 ≤ x.toNat

/-- The text with each byte as a character. -/
def byteChars (cs : List Char) : List Char :=
  cs.flatMap fun c => (String.utf8EncodeChar c).map Char.ofUInt8

@[simp] theorem byteChars_nil : byteChars [] = [] := rfl

@[simp] theorem byteChars_append (cs ds : List Char) :
    byteChars (cs ++ ds) = byteChars cs ++ byteChars ds := List.flatMap_append

theorem byteChars_eq_map (cs : List Char) :
    byteChars cs = (cs.flatMap String.utf8EncodeChar).map Char.ofUInt8 :=
  (List.map_flatMap ..).symm

theorem length_flatMap_utf8EncodeChar (cs : List Char) :
    (cs.flatMap String.utf8EncodeChar).length = byteLength cs := by
  induction cs with
  | nil => rfl
  | cons c cs ih =>
    rw [List.flatMap_cons, List.length_append, ih, String.length_utf8EncodeChar,
      byteLength_cons]

theorem length_byteChars (cs : List Char) : (byteChars cs).length = byteLength cs := by
  rw [byteChars_eq_map, List.length_map, length_flatMap_utf8EncodeChar]

variable {n opening i : Nat} {c x : Char} {bytes : List UInt8}

theorem toNat_ofUInt8_ofNat (h : n < 256) : (Char.ofUInt8 (UInt8.ofNat n)).toNat = n := by
  change (UInt8.ofNat n).toNat = n
  rw [UInt8.toNat_ofNat', Nat.mod_eq_of_lt h]

theorem byteChars_cons_of_lt (h : c.toNat < 128) (cs : List Char) :
    byteChars (c :: cs) = c :: byteChars cs := by
  have hbytes : String.utf8EncodeChar c = [UInt8.ofNat c.toNat] := by
    rw [String.utf8EncodeChar]
    exact if_pos (Nat.le_of_lt_succ h)
  have hchar : Char.ofUInt8 (UInt8.ofNat c.toNat) = c :=
    Char.toNat_inj.1 (toNat_ofUInt8_ofNat (by omega))
  rw [byteChars, List.flatMap_cons, hbytes, List.map_singleton, hchar]
  rfl

/-- A character that is not one byte is a run of bytes of which none is a sign. -/
theorem exists_wide_of_le (h : 128 ≤ c.toNat) :
    ∃ x xs, Wide (x :: xs) ∧ ∀ cs, byteChars (c :: cs) = x :: (xs ++ byteChars cs) := by
  have hwide : Wide ((String.utf8EncodeChar c).map Char.ofUInt8) := by
    intro x hx
    obtain ⟨b, hb, rfl⟩ := List.mem_map.1 hx
    have hne : ¬c.val.toNat ≤ 127 := Nat.not_le_of_lt h
    simp only [String.utf8EncodeChar, hne, if_false] at hb
    obtain ⟨n, hn, hn', rfl⟩ : ∃ n, 128 ≤ n ∧ n < 256 ∧ b = UInt8.ofNat n := by
      split at hb
      · simp only [List.mem_cons, List.not_mem_nil, or_false] at hb
        rcases hb with rfl | rfl <;> exact ⟨_, by omega, by omega, rfl⟩
      split at hb
      · simp only [List.mem_cons, List.not_mem_nil, or_false] at hb
        rcases hb with rfl | rfl | rfl <;> exact ⟨_, by omega, by omega, rfl⟩
      · simp only [List.mem_cons, List.not_mem_nil, or_false] at hb
        rcases hb with rfl | rfl | rfl | rfl <;> exact ⟨_, by omega, by omega, rfl⟩
    rwa [toNat_ofUInt8_ofNat hn']
  obtain ⟨x, xs, hcons⟩ := List.exists_cons_of_ne_nil
    (List.ne_nil_of_length_pos (l := (String.utf8EncodeChar c).map Char.ofUInt8)
      (by rw [List.length_map, String.length_utf8EncodeChar]; exact c.utf8Size_pos))
  refine ⟨x, xs, hcons ▸ hwide, fun cs => ?_⟩
  rw [byteChars, List.flatMap_cons, hcons]
  rfl

theorem Wide.tail {xs : List Char} (h : Wide (x :: xs)) : Wide xs :=
  fun y hy => h y (List.mem_cons_of_mem x hy)

/-- A character is one byte, or it is wide. -/
theorem byteChars_cons_cases (c : Char) (cs : List Char) :
    c.toNat < 128 ∧ byteChars (c :: cs) = c :: byteChars cs ∨
      128 ≤ c.toNat ∧ ∃ x xs, Wide (x :: xs) ∧ byteChars (c :: cs) = x :: (xs ++ byteChars cs) := by
  rcases Nat.lt_or_ge c.toNat 128 with hc | hc
  · exact .inl ⟨hc, byteChars_cons_of_lt hc cs⟩
  · obtain ⟨x, xs, hwide, heq⟩ := exists_wide_of_le hc
    exact .inr ⟨hc, x, xs, hwide, heq cs⟩

theorem ne_of_wide {sign : Char} (hx : 128 ≤ x.toNat) (hsign : sign.toNat < 128) : x ≠ sign := by
  rintro rfl
  omega

/-! ### What the searches pass -/

section Pass

variable {xs : List Char}

/-- A search that passes single wide characters passes any number of them. -/
theorem Wide.append_eq {β : Type} {f : List Char → β} (h : Wide xs)
    (hpass : ∀ x cs, 128 ≤ x.toNat → f (x :: cs) = f cs) (cs : List Char) :
    f (xs ++ cs) = f cs := by
  induction xs with
  | nil => rfl
  | cons x xs ih => exact (hpass x _ (h x List.mem_cons_self)).trans (ih h.tail)

theorem Text.afterQuoted_append_of_wide (h : Wide xs) {quote : Char} (hquote : quote.toNat < 128)
    (cs : List Char) : afterQuoted quote (xs ++ cs) = afterQuoted quote cs := by
  refine h.append_eq (fun x cs hx => ?_) cs
  rw [afterQuoted, if_neg (ne_of_wide hx hquote)]
  exact ne_of_wide hx (by decide)

theorem Text.afterTemplate_append_of_wide (h : Wide xs) (cs : List Char) :
    afterTemplate (xs ++ cs) = afterTemplate cs :=
  h.append_eq (fun _ _ hx => afterTemplate_text (ne_of_wide hx (by decide))
    (ne_of_wide hx (by decide)) fun hdollar => absurd hdollar (ne_of_wide hx (by decide))) cs

theorem Text.afterComment_append_of_wide (h : Wide xs) (cs : List Char) :
    afterComment (xs ++ cs) = afterComment cs := by
  refine h.append_eq (fun x cs hx => ?_) cs
  rw [afterComment]
  exact fun _ hstar => absurd hstar (ne_of_wide hx (by decide))

theorem afterBrace_append_of_wide (h : Wide xs) (stack : List Opening) (cs : List Char) :
    afterBrace stack (xs ++ cs) = afterBrace stack cs :=
  h.append_eq (fun _ _ hx => afterBrace_ordinary
    ⟨⟨ne_of_wide hx (by decide), ne_of_wide hx (by decide)⟩, ne_of_wide hx (by decide),
      ⟨ne_of_wide hx (by decide), ne_of_wide hx (by decide)⟩,
      fun hslash => absurd hslash (ne_of_wide hx (by decide))⟩) cs

end Pass

/-! ### The searches byte by byte -/

theorem head?_byteChars (hc : c.toNat < 128) (cs : List Char) :
    (byteChars cs).head? = some c ↔ cs.head? = some c := by
  cases cs with
  | nil => rfl
  | cons d cs =>
    rcases byteChars_cons_cases d cs with ⟨_, heq⟩ | ⟨hd, x, xs, hwide, heq⟩
    · rw [heq]
      rfl
    · have hx : x ≠ c := ne_of_wide (hwide x List.mem_cons_self) hc
      have hdc : d ≠ c := ne_of_wide hd hc
      simp [heq, hx, hdc]

namespace Text

theorem afterQuoted_byteChars {quote : Char} (hquote : quote.toNat < 128) (cs : List Char) :
    afterQuoted quote (byteChars cs) = (afterQuoted quote cs).map byteChars := by
  fun_induction afterQuoted quote cs with
  | case1 => rfl
  | case2 => rfl
  | case3 c cs ih =>
    rw [byteChars_cons_of_lt (by decide), ← ih]
    rcases byteChars_cons_cases c cs with ⟨_, heq⟩ | ⟨_, x, xs, hwide, heq⟩
    · rw [heq, afterQuoted]
    · rw [heq, afterQuoted]
      exact afterQuoted_append_of_wide hwide.tail hquote _
  | case4 cs hescape =>
    rw [byteChars_cons_of_lt hquote, afterQuoted, if_pos rfl]
    · rfl
    · exact hescape
  | case5 c cs hescape hne ih =>
    rcases byteChars_cons_cases c cs with ⟨_, heq⟩ | ⟨_, x, xs, hwide, heq⟩
    · rw [heq, afterQuoted, if_neg hne, ih]
      exact hescape
    · rw [heq, ← ih]
      exact afterQuoted_append_of_wide hwide hquote _

theorem afterTemplate_byteChars (cs : List Char) :
    afterTemplate (byteChars cs) = (afterTemplate cs).map (Prod.map id byteChars) := by
  fun_induction afterTemplate cs with
  | case1 => rfl
  | case2 => rfl
  | case3 c cs ih =>
    rw [byteChars_cons_of_lt (by decide), ← ih]
    rcases byteChars_cons_cases c cs with ⟨_, heq⟩ | ⟨_, x, xs, hwide, heq⟩
    · rw [heq, afterTemplate]
    · rw [heq, afterTemplate]
      exact afterTemplate_append_of_wide hwide.tail _
  | case4 cs =>
    rw [byteChars_cons_of_lt (by decide), byteChars_cons_of_lt (by decide), afterTemplate]
    rfl
  | case5 cs =>
    rw [byteChars_cons_of_lt (by decide)]
    simp [afterTemplate]
  | case6 c cs hescape hhole hbacktick ih =>
    rcases byteChars_cons_cases c cs with ⟨_, heq⟩ | ⟨_, x, xs, hwide, heq⟩
    · rw [heq, ← ih]
      refine afterTemplate_text (fun h => hescape h) hbacktick fun hdollar hhead => ?_
      rw [head?_byteChars (by decide)] at hhead
      obtain ⟨rest, rfl⟩ := List.head?_eq_some_iff.1 hhead
      exact hhole rest hdollar rfl
    · rw [heq, ← ih]
      exact afterTemplate_append_of_wide hwide _

theorem afterComment_byteChars (cs : List Char) :
    afterComment (byteChars cs) = (afterComment cs).map byteChars := by
  fun_induction afterComment cs with
  | case1 => rfl
  | case2 cs =>
    rw [byteChars_cons_of_lt (by decide), byteChars_cons_of_lt (by decide), afterComment]
    rfl
  | case3 c cs hopen ih =>
    rcases byteChars_cons_cases c cs with ⟨_, heq⟩ | ⟨_, x, xs, hwide, heq⟩
    · rw [heq, afterComment, ih]
      intro rest hstar hslash
      have hhead : cs.head? = some '/' := by rw [← head?_byteChars (by decide), hslash]; rfl
      obtain ⟨more, rfl⟩ := List.head?_eq_some_iff.1 hhead
      exact hopen more hstar rfl
    · rw [heq, ← ih]
      exact afterComment_append_of_wide hwide _

end Text

theorem dropWhile_byteChars (cs : List Char) :
    (byteChars cs).dropWhile (· ≠ '\n') = byteChars (cs.dropWhile (· ≠ '\n')) := by
  induction cs with
  | nil => rfl
  | cons c cs ih =>
    rcases byteChars_cons_cases c cs with ⟨_, heq⟩ | ⟨hc, x, xs, hwide, heq⟩
    · by_cases hnewline : c = '\n'
      · rw [List.dropWhile_cons_of_neg (by simpa using hnewline), heq,
          List.dropWhile_cons_of_neg (by simpa using hnewline)]
      · rw [List.dropWhile_cons_of_pos (by simpa using hnewline), heq,
          List.dropWhile_cons_of_pos (by simpa using hnewline), ih]
    · have hnewline : c ≠ '\n' := ne_of_wide hc (by decide)
      rw [List.dropWhile_cons_of_pos (by simpa using hnewline), ← ih, heq, ← List.cons_append,
        List.dropWhile_append_of_pos]
      intro y hy
      simpa using ne_of_wide (hwide y hy) (by decide : '\n'.toNat < 128)

/-- A template is resumed byte by byte, if the search goes on so in what follows. -/
theorem resumeTemplate_byteChars {stack : List Opening} {cs : List Char}
    (h : ∀ stack rest, rest.length < cs.length →
      afterBrace stack (byteChars rest) = (afterBrace stack rest).map byteChars) :
    resumeTemplate stack (byteChars cs) = (resumeTemplate stack cs).map byteChars := by
  rw [resumeTemplate, resumeTemplate, afterTemplate_byteChars]
  cases hpiece : afterTemplate cs with
  | none => rfl
  | some piece =>
    obtain ⟨closed, rest⟩ := piece
    have hlt := afterTemplate_length hpiece
    cases closed with
    | true => exact h stack rest hlt
    | false => exact h (.hole :: stack) rest hlt

/-- **A search finds the same place byte by byte.** -/
theorem afterBrace_byteChars (stack : List Opening) (cs : List Char) :
    afterBrace stack (byteChars cs) = (afterBrace stack cs).map byteChars := by
  induction hn : cs.length using Nat.strongRecOn generalizing stack cs with
  | ind n ih =>
  subst hn
  have hshorter : ∀ stack rest, rest.length < cs.length →
      afterBrace stack (byteChars rest) = (afterBrace stack rest).map byteChars :=
    fun stack rest hlt => ih rest.length hlt stack rest rfl
  clear ih
  rcases code_cases cs with rfl | ⟨quote, more, hquote, rfl⟩ | ⟨more, rfl⟩ | ⟨more, rfl⟩ |
    ⟨more, rfl⟩ | ⟨more, rfl⟩ | ⟨more, rfl⟩ | ⟨c, more, rfl, hordinary⟩
  · simp
  · have hlt : quote.toNat < 128 := by rcases hquote with rfl | rfl <;> decide
    rw [byteChars_cons_of_lt hlt, afterBrace_quote hquote, afterBrace_quote hquote,
      afterQuoted_byteChars hlt]
    cases hafter : afterQuoted quote more with
    | none => rfl
    | some rest =>
      have hlength := afterQuoted_length hafter
      exact hshorter stack rest (by grind)
  · rw [byteChars_cons_of_lt (by decide), afterBrace_backtick, afterBrace_backtick]
    exact resumeTemplate_byteChars fun stack rest hlt => hshorter stack rest (by grind)
  · have hlength := (List.dropWhile_suffix (l := more) (fun c => decide (c ≠ '\n'))).length_le
    rw [byteChars_cons_of_lt (by decide), byteChars_cons_of_lt (by decide), afterBrace_slashes,
      afterBrace_slashes, dropWhile_byteChars]
    exact hshorter stack _ (by grind)
  · rw [byteChars_cons_of_lt (by decide), byteChars_cons_of_lt (by decide), afterBrace_block,
      afterBrace_block, afterComment_byteChars]
    cases hafter : afterComment more with
    | none => rfl
    | some rest =>
      have hlength := afterComment_length hafter
      exact hshorter stack rest (by grind)
  · rw [byteChars_cons_of_lt (by decide), afterBrace_open, afterBrace_open]
    exact hshorter _ more (by simp)
  · rw [byteChars_cons_of_lt (by decide)]
    cases stack with
    | nil => rw [afterBrace_close_nil, afterBrace_close_nil, Option.map_none]
    | cons o stack =>
      rw [afterBrace_close, afterBrace_close]
      split
      · rfl
      split
      · exact hshorter stack more (by simp)
      · exact resumeTemplate_byteChars fun stack rest hlt =>
          hshorter stack rest (by grind)
  · rw [afterBrace_ordinary hordinary, ← hshorter stack more (by simp)]
    rcases byteChars_cons_cases c more with ⟨_, heq⟩ | ⟨_, x, xs, hwide, heq⟩
    · rw [heq]
      refine afterBrace_ordinary ⟨hordinary.not_quote, hordinary.not_backtick, hordinary.not_brace,
        ?_⟩
      rw [Ne, Ne, head?_byteChars (by decide), head?_byteChars (by decide)]
      exact hordinary.not_comment
    · rw [heq]
      exact afterBrace_append_of_wide hwide stack _

theorem braced_byteChars (cs : List Char) :
    braced (byteChars cs) = (braced cs).map (Prod.map byteChars byteChars) := by
  rw [braced, braced, afterBrace_byteChars]
  cases hafter : afterBrace [.group] cs with
  | none => rfl
  | some after =>
    obtain ⟨inside, _, rfl⟩ := (afterBrace_singleton_iff _).1 hafter
    simp [byteChars_cons_of_lt (show '\x7d'.toNat < 128 by decide), dropLast_before_close]

/-! ### The byte that closes a brace -/

/-- The byte that closes the brace at byte `opening`. -/
def closingBrace? (bytes : List UInt8) (opening : Nat) : Option Nat :=
  (braced ((bytes.drop (opening + 1)).map Char.ofUInt8)).map fun found =>
    opening + 1 + found.1.length

/-- Byte `closing` is a brace, and what stands between it and the brace at byte `opening` is
balanced. -/
structure Closes (bytes : List UInt8) (opening closing : Nat) : Prop where
  lt : opening < closing
  brace : bytes[closing]? = some 0x7d
  balanced : Balanced .code (((bytes.take closing).drop (opening + 1)).map Char.ofUInt8)

theorem ofUInt8_eq_close_iff {b : UInt8} : Char.ofUInt8 b = '\x7d' ↔ b = 0x7d := by
  rw [← Char.toNat_inj, ← UInt8.toNat_inj]
  rfl

theorem exists_append_cons_of_getElem? {α : Type} {xs : List α} {x : α} (h : xs[n]? = some x) :
    ∃ front back, xs = front ++ x :: back ∧ front.length = n := by
  obtain ⟨hlt, rfl⟩ := List.getElem?_eq_some_iff.1 h
  refine ⟨xs.take n, xs.drop (n + 1), ?_, List.length_take_of_le (Nat.le_of_lt hlt)⟩
  rw [← List.drop_eq_getElem_cons hlt, List.take_append_drop]

/-- What the search finds is what closes the brace. -/
theorem closingBrace?_eq_some_iff {closing : Nat} :
    closingBrace? bytes opening = some closing ↔ Closes bytes opening closing := by
  rw [closingBrace?, Option.map_eq_some_iff]
  constructor
  · rintro ⟨⟨inside, after⟩, hfound, rfl⟩
    obtain ⟨hinside, hsplit⟩ := braced_iff.1 hfound
    obtain ⟨front, back, hdrop, rfl, hback⟩ := List.map_eq_append_iff.1 hsplit
    obtain ⟨b, rest, rfl, hb, rfl⟩ := List.map_eq_cons_iff.1 hback
    rw [ofUInt8_eq_close_iff] at hb
    subst hb
    refine ⟨by omega, ?_, ?_⟩
    · rw [List.length_map, ← List.getElem?_drop, hdrop]
      simp
    · rw [List.length_map, List.drop_take, hdrop, Nat.add_sub_cancel_left, List.take_left]
      exact hinside
  · rintro ⟨hlt, hbrace, hbalanced⟩
    obtain ⟨n, rfl⟩ := Nat.exists_eq_add_of_lt hlt
    rw [Nat.add_right_comm] at hbrace hbalanced
    rw [← List.getElem?_drop] at hbrace
    obtain ⟨front, back, hdrop, rfl⟩ := exists_append_cons_of_getElem? hbrace
    rw [List.drop_take, Nat.add_sub_cancel_left, hdrop, List.take_left] at hbalanced
    refine ⟨(front.map Char.ofUInt8, back.map Char.ofUInt8), braced_iff.2 ⟨hbalanced, ?_⟩, ?_⟩
    · rw [hdrop, List.map_append, List.map_cons]
      rfl
    · rw [List.length_map, Nat.add_right_comm]

theorem Closes.unique {j : Nat} (hi : Closes bytes opening i) (hj : Closes bytes opening j) :
    i = j := by
  rw [← closingBrace?_eq_some_iff] at hi hj
  exact Option.some.inj (hi.symm.trans hj)

/-- What closes a brace does not depend on the bytes after it. -/
theorem Closes.of_take_eq {bytes' : List UInt8} (h : Closes bytes opening i)
    (htake : bytes'.take (i + 1) = bytes.take (i + 1)) : Closes bytes' opening i := by
  have hfront : bytes'.take i = bytes.take i := by
    simpa [List.take_take] using congrArg (List.take i) htake
  have hget : bytes'[i]? = bytes[i]? := by
    simpa [List.getElem?_take] using congrArg (fun xs => xs[i]?) htake
  exact ⟨h.lt, hget.trans h.brace, hfront ▸ h.balanced⟩

/-- In the bytes of a text, what closes a brace is what ends the text between the braces. -/
theorem closingBrace?_utf8 (front cs : List Char) :
    closingBrace? ((front ++ '\x7b' :: cs).flatMap String.utf8EncodeChar) (byteLength front) =
      (braced cs).map fun found => byteLength front + 1 + byteLength found.1 := by
  have hdrop : ((front ++ '\x7b' :: cs).flatMap String.utf8EncodeChar).drop
      (byteLength front + 1) = cs.flatMap String.utf8EncodeChar := by
    rw [List.append_cons, List.flatMap_append]
    refine List.drop_left' ?_
    rw [length_flatMap_utf8EncodeChar, byteLength_append]
    rfl
  rw [closingBrace?, hdrop, ← byteChars_eq_map, braced_byteChars, Option.map_map]
  congr 1
  funext found
  simp [length_byteChars]

/-- **Where a brace is closed.**  What is found between two braces is the balanced text up to a
closing brace.  In any bytes the byte found is the one that closes the brace, there is only one, and
it stays if the bytes after it change; in the bytes of a text it ends what is found between the
braces. -/
theorem closingBrace_of_bytes :
    (∀ cs inside after : List Char, braced cs = some (inside, after) ↔
      Balanced .code inside ∧ cs = inside ++ '\x7d' :: after) ∧
    (∀ (bytes : List UInt8) (opening i : Nat),
      closingBrace? bytes opening = some i ↔ Closes bytes opening i) ∧
    (∀ (bytes : List UInt8) (opening i j : Nat),
      Closes bytes opening i → Closes bytes opening j → i = j) ∧
    (∀ (bytes bytes' : List UInt8) (opening i : Nat), closingBrace? bytes opening = some i →
      bytes'.take (i + 1) = bytes.take (i + 1) → closingBrace? bytes' opening = some i) ∧
    ∀ front cs : List Char,
      closingBrace? ((front ++ '\x7b' :: cs).flatMap String.utf8EncodeChar)
          (Text.byteLength front) =
        (braced cs).map fun found => Text.byteLength front + 1 + Text.byteLength found.1 := by
  refine ⟨fun _ _ _ => braced_iff, fun _ _ _ => closingBrace?_eq_some_iff,
    fun _ _ _ _ hi hj => hi.unique hj, ?_, closingBrace?_utf8⟩
  intro bytes bytes' opening i h htake
  rw [closingBrace?_eq_some_iff] at h ⊢
  exact h.of_take_eq htake

/-- A template that an expression with a quoted brace interrupts, then two comments. -/
def closedLate : List Char := "\x7b\x60é$\x7b'\x7d'\x7d\x60/*\x7d*///\x7d\n\x7d\x7d".toList

theorem closingBrace_of_bytes_closedLate :
    braced (closedLate.drop 1) = some (((closedLate.drop 1).dropLast).dropLast, ['\x7d']) ∧
      Closes (closedLate.flatMap String.utf8EncodeChar) 0 20 ∧
      closingBrace? ((closedLate.flatMap String.utf8EncodeChar).take 21) 0 = some 20 := by
  have hfound : closingBrace? (closedLate.flatMap String.utf8EncodeChar) 0 = some 20 := by
    decide +kernel
  obtain ⟨_, hcloses, _, hlocal, _⟩ := closingBrace_of_bytes
  refine ⟨by decide +kernel, (hcloses _ _ _).1 hfound, hlocal _ _ _ _ hfound ?_⟩
  rw [List.take_take, Nat.min_self]

end CssRune
