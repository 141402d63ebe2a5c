/-
**Reading a text item by item.**

To know where the brackets of a text are closed it is read in items: plain characters, brackets,
quoted strings, templates and, if they are skipped, comments.  A reading counts the brackets that
are open.  At each place at most one item can be read, so two readings of a text agree as far as
both go.

Main results:

* `TopLevel.Item.next_eq`, `TopLevel.exists_item_of_next` — the next item is found;
* `TopLevel.Reads.peel` — what is read after a part of a text;
* `TopLevel.exists_reads_of_balanced` — balanced text is read to its end.
-/

import CssRune.Proofs.Markup.Balance

set_option autoImplicit false

namespace CssRune

namespace TopLevel

/-! ### Items -/

/-- Whether a character opens a bracket. -/
def IsOpening (c : Char) : Prop := c = '(' ∨ c = '[' ∨ c = '\x7b'

/-- Whether a character closes a bracket. -/
def IsClosing (c : Char) : Prop := c = ')' ∨ c = ']' ∨ c = '\x7d'

instance (c : Char) : Decidable (IsOpening c) := inferInstanceAs (Decidable (_ ∨ _))

instance (c : Char) : Decidable (IsClosing c) := inferInstanceAs (Decidable (_ ∨ _))

/-- A character that is neither a quote, a backtick nor a bracket. -/
structure Plain (c : Char) : Prop where
  not_quote : ¬(c = '\'' ∨ c = '"')
  not_backtick : c ≠ '\x60'
  not_opening : ¬IsOpening c
  not_closing : ¬IsClosing c

/-- A comment with its ends. -/
inductive Comment : List Char → Prop
  | line {body : List Char} (hbody : '\n' ∉ body) : Comment ('/' :: '/' :: (body ++ ['\n']))
  | block {body : List Char} (hbody : ¬['*', '/'] <:+: body) :
      Comment ('/' :: '*' :: (body ++ ['*', '/']))

/-- **An item of a text**, with the number of brackets that are open before and after it; `rest` is
the text after the item.  If comments are not skipped they are read as any other text. -/
inductive Item (skips : Bool) (rest : List Char) : Nat → List Char → Nat → Prop
  | plain (depth : Nat) {c : Char} (hc : Plain c)
      (hcomment : skips = true → c = '/' → rest.head? ≠ some '/' ∧ rest.head? ≠ some '*') :
      Item skips rest depth [c] depth
  | opening (depth : Nat) {c : Char} (hc : IsOpening c) : Item skips rest depth [c] (depth + 1)
  | closing (depth : Nat) {c : Char} (hc : IsClosing c) : Item skips rest depth [c] (depth - 1)
  | quoted (depth : Nat) {quote : Char} {body : List Char} (hquote : quote = '\'' ∨ quote = '"')
      (hbody : QuotedText quote body) : Item skips rest depth (quote :: (body ++ [quote])) depth
  | template (depth : Nat) {body : List Char} (hbody : Balanced .template body) :
      Item skips rest depth ('\x60' :: (body ++ ['\x60'])) depth
  | comment (depth : Nat) {text : List Char} (hskips : skips = true) (htext : Comment text) :
      Item skips rest depth text depth

/-- **A reading of a text** item by item, with the number of brackets that are open before and after
it; `rest` is the text after what is read. -/
inductive Reads (skips : Bool) (rest : List Char) : Nat → List Char → Nat → Prop
  | nil (depth : Nat) : Reads skips rest depth [] depth
  | cons {depth depth' last : Nat} {word more : List Char}
      (hitem : Item skips (more ++ rest) depth word depth')
      (hmore : Reads skips rest depth' more last) : Reads skips rest depth (word ++ more) last

/-! ### The next item -/

/-- What follows the end of the line. -/
def afterLine (cs : List Char) : Option (List Char) :=
  match cs.dropWhile (· ≠ '\n') with
  | [] => none
  | _ :: rest => some rest

/-- The text after the next item, with the number of brackets that are open there. -/
def next (skips : Bool) (depth : Nat) : List Char → Option (Nat × List Char)
  | [] => none
  | c :: cs =>
    if c = '\'' ∨ c = '"' then (Text.afterQuoted c cs).map (depth, ·)
    else if c = '\x60' then (afterBacktick cs).map (depth, ·)
    else if IsOpening c then some (depth + 1, cs)
    else if IsClosing c then some (depth - 1, cs)
    else if skips = true ∧ c = '/' ∧ cs.head? = some '/' then
      (afterLine (cs.drop 1)).map (depth, ·)
    else if skips = true ∧ c = '/' ∧ cs.head? = some '*' then
      (Text.afterComment (cs.drop 1)).map (depth, ·)
    else some (depth, cs)

theorem afterLine_iff {cs r : List Char} :
    afterLine cs = some r ↔ ∃ body, '\n' ∉ body ∧ cs = body ++ '\n' :: r := by
  constructor
  · intro h
    by_cases hmem : '\n' ∈ cs
    · obtain ⟨body, rest, rfl, hbody⟩ := List.eq_append_cons_of_mem hmem
      rw [afterLine, dropWhile_append_newline hbody] at h
      cases h
      exact ⟨body, hbody, rfl⟩
    · rw [afterLine, dropWhile_eq_nil_of_newline_not_mem hmem] at h
      cases h
  · rintro ⟨body, hbody, rfl⟩
    rw [afterLine, dropWhile_append_newline hbody]

variable {skips : Bool} {depth depth' : Nat} {word rest : List Char}

/-- The next item is found. -/
theorem Item.next_eq (h : Item skips rest depth word depth') :
    next skips depth (word ++ rest) = some (depth', rest) := by
  cases h with
  | @plain c hc hcomment =>
    rw [List.singleton_append, next, if_neg hc.not_quote, if_neg hc.not_backtick,
      if_neg hc.not_opening, if_neg hc.not_closing, if_neg, if_neg]
    · rintro ⟨hskips, hslash, hhead⟩
      exact (hcomment hskips hslash).2 hhead
    · rintro ⟨hskips, hslash, hhead⟩
      exact (hcomment hskips hslash).1 hhead
  | opening hc =>
    rcases hc with rfl | rfl | rfl <;> rfl
  | closing hc =>
    rcases hc with rfl | rfl | rfl <;> rfl
  | @quoted quote body hquote hbody =>
    have hne : quote ≠ '\\' := by rintro rfl; simp at hquote
    rw [List.cons_append, List.append_assoc, List.singleton_append, next, if_pos hquote,
      (Text.afterQuoted_iff hne).2 ⟨body, hbody, rfl⟩, Option.map_some]
  | @template body hbody =>
    rw [List.cons_append, List.append_assoc, List.singleton_append, next, if_neg (by simp),
      if_pos rfl, afterBacktick_iff.2 ⟨body, hbody, rfl⟩, Option.map_some]
  | comment hskips htext =>
    have hslash : ¬IsOpening '/' ∧ ¬IsClosing '/' := by decide
    cases htext with
    | @line body hbody =>
      simp only [List.cons_append, List.append_assoc, List.nil_append]
      rw [next, if_neg (by decide), if_neg (by decide), if_neg hslash.1, if_neg hslash.2,
        if_pos ⟨hskips, rfl, rfl⟩, List.drop_one, List.tail_cons,
        afterLine_iff.2 ⟨body, hbody, rfl⟩, Option.map_some]
    | @block body hbody =>
      simp only [List.cons_append, List.append_assoc, List.nil_append]
      rw [next, if_neg (by decide), if_neg (by decide), if_neg hslash.1, if_neg hslash.2,
        if_neg (by simp), if_pos ⟨hskips, rfl, rfl⟩, List.drop_one, List.tail_cons,
        Text.afterComment_iff.2 ⟨body, hbody, rfl⟩, Option.map_some]

/-- What is found is the next item. -/
theorem exists_item_of_next {cs : List Char} (h : next skips depth cs = some (depth', rest)) :
    ∃ word, cs = word ++ rest ∧ Item skips rest depth word depth' := by
  cases cs with
  | nil => cases h
  | cons c cs =>
  rw [next] at h
  split at h
  · rename_i hquote
    have hne : c ≠ '\\' := by rintro rfl; simp at hquote
    obtain ⟨after, hafter, heq⟩ := Option.map_eq_some_iff.1 h
    cases heq
    obtain ⟨body, hbody, rfl⟩ := (Text.afterQuoted_iff hne).1 hafter
    exact ⟨_, by simp, .quoted depth hquote hbody⟩
  rename_i hquote
  split at h
  · rename_i hbacktick
    subst hbacktick
    obtain ⟨after, hafter, heq⟩ := Option.map_eq_some_iff.1 h
    cases heq
    obtain ⟨body, hbody, rfl⟩ := afterBacktick_iff.1 hafter
    exact ⟨_, by simp, .template depth hbody⟩
  rename_i hbacktick
  split at h
  · rename_i hopening
    cases h
    exact ⟨[c], rfl, .opening depth hopening⟩
  rename_i hopening
  split at h
  · rename_i hclosing
    cases h
    exact ⟨[c], rfl, .closing depth hclosing⟩
  rename_i hclosing
  split at h
  · rename_i hline
    obtain ⟨hskips, rfl, hhead⟩ := hline
    obtain ⟨cs, rfl⟩ := List.head?_eq_some_iff.1 hhead
    obtain ⟨after, hafter, heq⟩ := Option.map_eq_some_iff.1 h
    cases heq
    obtain ⟨body, hbody, hcs⟩ := afterLine_iff.1 hafter
    rw [List.drop_one, List.tail_cons] at hcs
    subst hcs
    exact ⟨_, by simp, .comment depth hskips (.line hbody)⟩
  rename_i hline
  split at h
  · rename_i hblock
    obtain ⟨hskips, rfl, hhead⟩ := hblock
    obtain ⟨cs, rfl⟩ := List.head?_eq_some_iff.1 hhead
    obtain ⟨after, hafter, heq⟩ := Option.map_eq_some_iff.1 h
    cases heq
    obtain ⟨body, hbody, hcs⟩ := Text.afterComment_iff.1 hafter
    rw [List.drop_one, List.tail_cons] at hcs
    subst hcs
    exact ⟨_, by simp, .comment depth hskips (.block hbody)⟩
  · rename_i hblock
    cases h
    refine ⟨[c], rfl, .plain depth ⟨hquote, hbacktick, hopening, hclosing⟩ fun hskips hslash => ?_⟩
    exact ⟨fun hhead => hline ⟨hskips, hslash, hhead⟩, fun hhead => hblock ⟨hskips, hslash, hhead⟩⟩

theorem Item.ne_nil (h : Item skips rest depth word depth') : word ≠ [] := by
  cases h with
  | comment _ htext => cases htext <;> simp
  | _ => simp

/-- At each place at most one item can be read. -/
theorem Item.unique {word' rest' : List Char} {depth'' : Nat}
    (h : Item skips rest depth word depth') (h' : Item skips rest' depth word' depth'')
    (heq : word ++ rest = word' ++ rest') : word = word' ∧ rest = rest' ∧ depth' = depth'' := by
  have hnext := h'.next_eq
  rw [← heq, h.next_eq] at hnext
  obtain ⟨rfl, rfl⟩ := Prod.mk.inj (Option.some.inj hnext)
  exact ⟨List.append_cancel_right heq, rfl, rfl⟩

/-- An item of a text with comments as text does not depend on what follows it. -/
theorem Item.of_rest (h : Item false rest depth word depth') (rest' : List Char) :
    Item false rest' depth word depth' := by
  cases h with
  | plain hc _ => exact .plain depth hc (by simp)
  | opening hc => exact .opening depth hc
  | closing hc => exact .closing depth hc
  | quoted hquote hbody => exact .quoted depth hquote hbody
  | template hbody => exact .template depth hbody
  | comment hskips _ => cases hskips

/-- Except for comments the items are the same. -/
theorem Item.comment_or (h : Item true rest depth word depth') :
    Comment word ∧ depth' = depth ∨ Item false rest depth word depth' := by
  cases h with
  | plain hc _ => exact .inr (.plain depth hc (by simp))
  | opening hc => exact .inr (.opening depth hc)
  | closing hc => exact .inr (.closing depth hc)
  | quoted hquote hbody => exact .inr (.quoted depth hquote hbody)
  | template hbody => exact .inr (.template depth hbody)
  | comment _ htext => exact .inl ⟨htext, rfl⟩

/-! ### Readings -/

section Readings

variable {front back : List Char} {last : Nat}

theorem Reads.of_rest (h : Reads false rest depth front depth') (rest' : List Char) :
    Reads false rest' depth front depth' := by
  induction h with
  | nil depth => exact .nil depth
  | cons hitem _ ih => exact .cons (hitem.of_rest _) ih

theorem Reads.append (h : Reads skips (back ++ rest) depth front depth')
    (h' : Reads skips rest depth' back last) : Reads skips rest depth (front ++ back) last := by
  induction h with
  | nil => exact h'
  | cons hitem _ ih =>
    rw [List.append_assoc]
    refine .cons ?_ (ih h')
    rwa [List.append_assoc]

theorem Reads.cons_char {c : Char} (h : Item skips (front ++ rest) depth [c] depth')
    (h' : Reads skips rest depth' front last) : Reads skips rest depth (c :: front) last :=
  .cons h h'

theorem Reads.of_item (h : Item skips rest depth word depth') :
    Reads skips rest depth word depth' := by
  rw [← List.append_nil word]
  exact .cons h (.nil depth')

/-- **What is read after a part of a text** is read from that part on. -/
theorem Reads.peel (h : Reads skips (back ++ rest) depth front depth')
    (h' : Reads skips rest depth (front ++ back) last) : Reads skips rest depth' back last := by
  induction h with
  | nil => exact h'
  | @cons depth depth₁ depth' word more hitem _ ih =>
    rw [List.append_assoc] at h'
    generalize htext : word ++ (more ++ back) = text at h'
    cases h' with
    | nil => exact absurd (List.append_eq_nil_iff.1 htext).1 hitem.ne_nil
    | @cons _ depth₂ _ word' more' hitem' hmore' =>
      have heq : word ++ (more ++ (back ++ rest)) = word' ++ (more' ++ rest) := by
        rw [← List.append_assoc, ← List.append_assoc, List.append_assoc word, htext,
          List.append_assoc]
      obtain ⟨rfl, _, rfl⟩ := hitem.unique hitem' heq
      exact ih (List.append_cancel_left htext ▸ hmore')

theorem reads_nil_iff : Reads skips rest depth [] last ↔ last = depth := by
  constructor
  · intro h
    generalize htext : ([] : List Char) = text at h
    cases h with
    | nil => rfl
    | cons hitem _ => exact absurd (List.append_eq_nil_iff.1 htext.symm).1 hitem.ne_nil
  · rintro rfl
    exact .nil _

theorem Reads.unique (h : Reads skips rest depth front depth')
    (h' : Reads skips rest depth front last) : depth' = last := by
  have hnil : Reads skips rest depth' [] last :=
    Reads.peel (by simpa using h) (by simpa using h')
  exact (reads_nil_iff.1 hnil).symm

end Readings

/-! ### Balanced text -/

theorem exists_item_of_ordinary {c : Char} (hc : Ordinary c rest) (depth : Nat) :
    ∃ depth', Item true rest depth [c] depth' := by
  by_cases hopening : IsOpening c
  · exact ⟨_, .opening depth hopening⟩
  by_cases hclosing : IsClosing c
  · exact ⟨_, .closing depth hclosing⟩
  · have hquote : ¬(c = '\'' ∨ c = '"') := by simpa using hc.not_quote
    have hplain : Plain c := ⟨hquote, hc.not_backtick, hopening, hclosing⟩
    exact ⟨depth, .plain depth hplain fun _ => hc.not_comment⟩

/-- **Balanced text is read to its end**, before a text that does not make a comment of its last
character. -/
theorem exists_reads_of_balanced {layer : Layer} {text : List Char} (h : Balanced layer text)
    (hlayer : layer = .code) {rest : List Char} (hslash : rest.head? ≠ some '/')
    (hstar : rest.head? ≠ some '*') (depth : Nat) : ∃ last, Reads true rest depth text last := by
  induction h generalizing rest depth with
  | nil => exact ⟨depth, .nil depth⟩
  | @ordinary c cs hc _ ih =>
    have hordinary : Ordinary c (cs ++ rest) := by
      refine ⟨hc.not_quote, hc.not_backtick, hc.not_brace, fun heq => ?_⟩
      cases cs with
      | nil => exact ⟨hslash, hstar⟩
      | cons d cs => exact hc.not_comment heq
    obtain ⟨depth', hitem⟩ := exists_item_of_ordinary hordinary depth
    obtain ⟨last, hlast⟩ := ih hlayer hslash hstar depth'
    exact ⟨last, .cons hitem hlast⟩
  | @quoted quote body cs hquote hbody _ ih =>
    obtain ⟨last, hlast⟩ := ih hlayer hslash hstar depth
    rw [List.append_cons, ← List.cons_append]
    exact ⟨last, .cons (.quoted depth hquote hbody) hlast⟩
  | @template body cs hbody _ _ ih =>
    obtain ⟨last, hlast⟩ := ih hlayer hslash hstar depth
    rw [List.append_cons, ← List.cons_append]
    exact ⟨last, .cons (.template depth hbody) hlast⟩
  | @line body cs hbody _ ih =>
    obtain ⟨last, hlast⟩ := ih hlayer hslash hstar depth
    rw [List.append_cons, ← List.cons_append, ← List.cons_append]
    exact ⟨last, .cons (.comment depth rfl (.line hbody)) hlast⟩
  | @block body cs hbody _ ih =>
    obtain ⟨last, hlast⟩ := ih hlayer hslash hstar depth
    rw [List.append_cons, List.append_cons, List.append_assoc body, ← List.cons_append,
      ← List.cons_append]
    exact ⟨last, .cons (.comment depth rfl (.block hbody)) hlast⟩
  | @group inside cs _ _ ihinside ih =>
    have hhead : ('\x7d' :: (cs ++ rest)).head? ≠ some '/' := by simp
    obtain ⟨middle, hinside⟩ := ihinside hlayer hhead (by simp) (depth + 1)
    obtain ⟨last, hlast⟩ := ih hlayer hslash hstar (middle - 1)
    refine ⟨last, .cons_char (.opening depth (by decide)) (hinside.append ?_)⟩
    exact .cons_char (.closing middle (by decide)) hlast
  | text | escape | hole => cases hlayer

end TopLevel

end CssRune
