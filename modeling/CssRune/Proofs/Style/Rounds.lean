/-
**The search for a delimiter as a loop.**

The search goes round by round: each round looks at one character, or at a whole string or comment,
and either ends the search or leaves it at another cursor.  Whether a slash opens a comment is seen
from the character after it, even when the text ends between the two; what is passed then ends where
the text does, and so the cursor stays where it is.  A search that comes to such a slash never ends.
Every other round moves on.

Main results:

* `delimiterRound_advances` — **every round moves on, but for one at a slash that the text ends with
  and a star follows**;
* `delimiterFrom_eq_found` — what is found is what a round leaves to find;
* `searchEnds_iff` — **the loop ends with what the search finds, unless that is a refusal to move
  on**.
-/

import CssRune.Proofs.Style.Delimiters
import CssRune.Proofs.Style.Refusals

set_option autoImplicit false

namespace CssRune

/-- How a round of the search leaves it. -/
inductive Round where
  /-- The search has ended. -/
  | done (outcome : Except ParseError (Delimiter × Cursor))
  /-- The search goes on from `c`, with `depth` brackets open. -/
  | again (depth : Nat) (c : Cursor)

/-- One round of the search for a delimiter.  The character after a slash may be the one beyond the
text, but comments are passed only as far as the text goes. -/
def delimiterRound (beyond : Option Char) (depth : Nat) (c : Cursor) : Round :=
  match c.rest with
  | [] => .done (.ok (.none, c))
  | ch :: rest =>
    if ch = '"' ∨ ch = '\'' then
      match Text.afterQuoted ch rest with
      | none => .done (.error ⟨.unterminatedString, c.pos⟩)
      | some after => .again depth (c.moveTo after)
    else if ch = '/' ∧ (rest ++ beyond.toList).head? = some '*' then
      match passBlanks c with
      | .error e => .done (.error e)
      | .ok blanks => .again depth blanks.next
    else
      match Delimiter.outside? depth ch with
      | some delimiter => .done (.ok (delimiter, c))
      | none => .again (depthAfter ch depth) c.next

/-- The rounds of a search end with an outcome. -/
inductive SearchEnds (beyond : Option Char) :
    Nat → Cursor → Except ParseError (Delimiter × Cursor) → Prop where
  | done {depth : Nat} {c : Cursor} {outcome : Except ParseError (Delimiter × Cursor)}
      (h : delimiterRound beyond depth c = .done outcome) : SearchEnds beyond depth c outcome
  | again {depth depth' : Nat} {c c' : Cursor} {outcome : Except ParseError (Delimiter × Cursor)}
      (h : delimiterRound beyond depth c = .again depth' c')
      (more : SearchEnds beyond depth' c' outcome) : SearchEnds beyond depth c outcome

/-- An outcome is not that of a reader that cannot move on. -/
def Returns {α : Type} (x : Except ParseError α) : Prop := ∀ e, x = .error e → e.fault ≠ .stalled

/-- What a reader refuses, if it does. -/
def refusal? {α : Type} : Except ParseError α → Option ParseError
  | .error e => some e
  | .ok _ => none

theorem not_returns_of_refusal? {α : Type} {x : Except ParseError α} {pos : Nat}
    (h : refusal? x = some ⟨.stalled, pos⟩) : ¬ Returns x := by
  cases x with
  | ok a => cases h
  | error e =>
    cases h
    exact fun hreturns => hreturns _ rfl rfl

/-! ### Outcomes -/

theorem Settles.returns {α : Type} {source : List Char} {x : Except ParseError α}
    (h : Settles source x) : Returns x := fun e he => (h e he).moves

/-- Every cursor stands in a text that ends where its own does. -/
theorem Cursor.exists_within (c : Cursor) :
    ∃ source, c.Within source ∧ Text.byteLength source = c.pos + Text.byteLength c.rest := by
  have hfront : Text.byteLength (List.replicate c.pos 'a') = c.pos := by
    induction c.pos with
    | zero => rfl
    | succ n ih =>
      rw [List.replicate_succ, Text.byteLength_cons, ih]
      exact Nat.add_comm ..
  refine ⟨List.replicate c.pos 'a' ++ c.rest, ⟨List.replicate c.pos 'a', [], by simp, hfront⟩, ?_⟩
  rw [Text.byteLength_append, hfront]

section Rounds

variable {beyond : Option Char} {depth depth' : Nat} {c c' : Cursor}
  {outcome : Except ParseError (Delimiter × Cursor)}

/-! ### Comments -/

theorem returns_passBlanks (c : Cursor) : Returns (passBlanks c) := by
  obtain ⟨source, hwithin, _⟩ := c.exists_within
  exact (settles_passBlanks hwithin).returns

/-- At a comment, something is passed. -/
theorem length_passBlanks_lt {rest : List Char} {b : Pace Unit c}
    (hc : c.rest = '/' :: rest) (hstar : rest.head? = some '*') (h : passBlanks c = .ok b) :
    b.next.length < c.length := by
  rw [passBlanks] at h
  split at h
  · rename_i hnil
    cases hc.symm.trans hnil
  · rename_i ch' rest' hc'
    obtain ⟨rfl, rfl⟩ := List.cons.inj (hc.symm.trans hc')
    rw [if_neg (by decide), if_pos ⟨rfl, hstar⟩] at h
    split at h
    · cases h
    · rename_i after hr
      obtain ⟨b', _, h⟩ := bind_eq_ok_iff.1 h
      rw [← pure_eq_ok_iff.1 h, Pace.next_after]
      exact Nat.lt_of_le_of_lt b'.noLonger (length_moveTo_comment hc hr)

theorem passBlanks_of_slash (hc : c.rest = ['/']) :
    passBlanks c = .ok ⟨(), c, c.length_le_self⟩ := by
  obtain ⟨pos, rest⟩ := c
  subst hc
  rw [passBlanks]
  rfl

/-! ### One round -/

/-- **Every round moves on**, but for one at a slash that the text ends with and a star follows:
that round changes nothing. -/
theorem delimiterRound_advances (h : delimiterRound beyond depth c = .again depth' c') :
    c'.length < c.length ∨
      c.rest = ['/'] ∧ beyond = some '*' ∧ depth' = depth ∧ c' = c := by
  unfold delimiterRound at h
  split at h
  · cases h
  · rename_i ch rest hc
    split at h
    · split at h
      · cases h
      · rename_i after hr
        cases h
        exact .inl (length_moveTo_quoted hc hr)
    · split at h
      · rename_i hopen
        obtain ⟨rfl, hstar⟩ := hopen
        split at h
        · cases h
        · rename_i b hb
          cases h
          cases rest with
          | nil =>
            rw [passBlanks_of_slash hc] at hb
            cases hb
            refine .inr ⟨hc, ?_, rfl, rfl⟩
            rwa [List.nil_append, Option.head?_toList] at hstar
          | cons next rest => exact .inl (length_passBlanks_lt hc hstar hb)
      · split at h
        · cases h
        · cases h
          exact .inl (Cursor.length_next_of_cons hc)

/-- The search in terms of its rounds. -/
def Round.found (beyond : Option Char) : Round → Except ParseError (Delimiter × Cursor)
  | done outcome => outcome
  | again depth c => delimiterFrom beyond depth c

/-- **A round leaves to find what there was to find.** -/
theorem delimiterFrom_eq_found {round : Round} (h : delimiterRound beyond depth c = round) :
    delimiterFrom beyond depth c = round.found beyond := by
  subst h
  symm
  unfold delimiterRound
  split
  · rename_i hnil
    exact (delimiterFrom_of_nil hnil).symm
  · rename_i ch rest hc
    split
    · rename_i hquote
      rw [delimiterFrom_cons hc, if_pos hquote]
      cases Text.afterQuoted ch rest <;> rfl
    · rename_i hquote
      split
      · rename_i hopen
        obtain ⟨rfl, hstar⟩ := hopen
        cases hb : passBlanks c with
        | ok b => exact (delimiterFrom_of_passBlanks hb).symm
        | error e => exact (delimiterFrom_of_passBlanks_eq_error hb).symm
      · rename_i hopen
        have hcomment : ¬(ch = '/' ∧ rest.head? = some '*') := by
          rintro ⟨hslash, hstar⟩
          refine hopen ⟨hslash, ?_⟩
          rw [List.head?_append, hstar, Option.some_or]
        have hcut : ¬(ch = '/' ∧ rest = [] ∧ beyond = some '*') := by
          rintro ⟨hslash, rfl, rfl⟩
          exact hopen ⟨hslash, rfl⟩
        rw [delimiterFrom_cons hc, if_neg hquote, if_neg hcomment, if_neg hcut]
        cases Delimiter.outside? depth ch <;> rfl

/-- No round ends the search for want of moving on. -/
theorem returns_of_done (h : delimiterRound beyond depth c = .done outcome) : Returns outcome := by
  unfold delimiterRound at h
  rintro e rfl
  split at h
  · cases h
  · split at h
    · split at h
      · cases h
        simp
      · cases h
    · split at h
      · split at h
        · rename_i e' he
          cases h
          exact returns_passBlanks c _ he
        · cases h
      · split at h <;> cases h

theorem delimiterFrom_of_slash (hc : c.rest = ['/']) (hbeyond : beyond = some '*') :
    delimiterFrom beyond depth c = .error ⟨.stalled, c.pos⟩ := by
  obtain ⟨pos, rest⟩ := c
  subst hc hbeyond
  rw [delimiterFrom, nextDelimiter]
  rfl

/-- **The loop ends with what the search finds, unless that is a refusal to move on**; then the
rounds never end. -/
theorem searchEnds_iff :
    SearchEnds beyond depth c outcome ↔
      delimiterFrom beyond depth c = outcome ∧ Returns outcome := by
  constructor
  · intro h
    induction h with
    | done h => exact ⟨delimiterFrom_eq_found h, returns_of_done h⟩
    | again h _ ih => exact ⟨(delimiterFrom_eq_found h).trans ih.1, ih.2⟩
  · rintro ⟨hfound, hreturns⟩
    induction hn : c.length using Nat.strongRecOn generalizing depth c with
    | ind n ih =>
      subst hn
      cases hround : delimiterRound beyond depth c with
      | done outcome' =>
        obtain rfl : outcome' = outcome := (delimiterFrom_eq_found hround).symm.trans hfound
        exact .done hround
      | again depth' c' =>
        rcases delimiterRound_advances hround with hlt | ⟨hslash, hstar, _⟩
        · exact .again hround (ih _ hlt ((delimiterFrom_eq_found hround).symm.trans hfound) rfl)
        · rw [delimiterFrom_of_slash hslash hstar] at hfound
          exact absurd rfl (hreturns _ hfound.symm)

/-- The loop ends if and only if the search is not refused for want of moving on. -/
theorem exists_searchEnds_iff :
    (∃ outcome, SearchEnds beyond depth c outcome) ↔ Returns (nextDelimiter beyond depth c) := by
  have hreturns :
      Returns (delimiterFrom beyond depth c) ↔ Returns (nextDelimiter beyond depth c) := by
    unfold delimiterFrom
    cases nextDelimiter beyond depth c with
    | ok r => exact iff_of_true (fun e h => nomatch h) fun e h => nomatch h
    | error e =>
      constructor
      all_goals
        intro h e' he'
        exact h e' (by cases he'; rfl)
  rw [← hreturns]
  constructor
  · rintro ⟨outcome, hends⟩
    obtain ⟨rfl, h⟩ := searchEnds_iff.1 hends
    exact h
  · exact fun h => ⟨_, searchEnds_iff.2 ⟨rfl, h⟩⟩

end Rounds

end CssRune
