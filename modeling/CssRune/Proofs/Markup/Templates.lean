/-
**Templates that are skipped and templates that are passed.**

A template is read in two ways.  Where its end is asked for, it is skipped as a whole: for each
expression that interrupts it a new search finds the closing brace.  The search for a closing brace
itself goes through a template instead: it marks an open brace as one that interrupts a template and
resumes the template when this brace is closed.  Both find the same end, at any depth and with any
braces open around the template, and if one finds none, so does the other.

Main results:

* `reaches_of_afterBacktick`, `afterBrace_eq_none_of_afterBacktick` — a template that is skipped is
  passed, and one that cannot be skipped is not;
* `templateEnd_agrees` — **the two ways agree** in any bytes.
-/

import CssRune.Proofs.Markup.Closing

set_option autoImplicit false

namespace CssRune

section Rounds

variable {stack : List Opening} {cs : List Char} {s : List Opening × List Char}

theorem resumed_ne_nil (hstack : stack ≠ []) (h : resumed stack cs = some s) : s.1 ≠ [] := by
  obtain ⟨piece, _, rfl⟩ := Option.map_eq_some_iff.1 h
  dsimp only
  split <;> simp [hstack]

/-- As long as the search goes on, a brace is open. -/
theorem nextRound_ne_nil (hstack : stack ≠ []) (h : nextRound stack cs = some s) : s.1 ≠ [] := by
  rcases code_cases cs with rfl | ⟨quote, more, hquote, rfl⟩ | ⟨more, rfl⟩ | ⟨more, rfl⟩ |
    ⟨more, rfl⟩ | ⟨more, rfl⟩ | ⟨more, rfl⟩ | ⟨c, more, rfl, hc⟩
  · cases h
  · rw [nextRound_quote hquote] at h
    obtain ⟨_, _, rfl⟩ := Option.map_eq_some_iff.1 h
    exact hstack
  · exact resumed_ne_nil hstack h
  · cases h
    exact hstack
  · obtain ⟨_, _, rfl⟩ := Option.map_eq_some_iff.1 h
    exact hstack
  · cases h
    simp
  · obtain ⟨o, stack, rfl⟩ := List.exists_cons_of_ne_nil hstack
    by_cases hbelow : stack = []
    · subst hbelow
      cases h
    · rw [nextRound_close o hbelow] at h
      split at h
      · cases h
        exact hbelow
      · exact resumed_ne_nil hbelow h
  · rw [nextRound_ordinary hc] at h
    cases h
    exact hstack

theorem Reaches.ne_nil {t : List Opening × List Char} (h : Reaches s t) (hs : s.1 ≠ []) :
    t.1 ≠ [] := by
  induction h with
  | refl => exact hs
  | tail _ hround ih => exact nextRound_ne_nil ih hround

/-- A template that is skipped is passed, and the same braces are open then. -/
theorem reaches_of_afterBacktick {rest : List Char} (hstack : stack ≠ [])
    (h : afterBacktick cs = some rest) : Reaches (stack, '\x60' :: cs) (stack, rest) := by
  obtain ⟨body, hbody, rfl⟩ := afterBacktick_iff.1 h
  obtain ⟨s, t, hs, ht, hreaches⟩ := hbody.reaches hstack rest
  cases resumed_backtick.symm.trans ht
  exact .round hs hreaches

/-- No search passes a template that cannot be skipped. -/
theorem afterBrace_eq_none_of_afterBacktick (hstack : stack ≠ [])
    (h : afterBacktick cs = none) : afterBrace stack ('\x60' :: cs) = none := by
  refine Option.eq_none_iff_forall_ne_some.2 fun r hr => ?_
  rw [afterBrace_backtick] at hr
  obtain ⟨body, rest, hcs, hbody, _⟩ := Layer.passes .template cs stack r hstack hr
  rw [afterBacktick_iff.2 ⟨body, hbody, hcs⟩] at h
  cases h

end Rounds

/-! ### The index after a template -/

theorem afterBacktick_byteChars (cs : List Char) :
    afterBacktick (byteChars cs) = (afterBacktick cs).map byteChars := by
  induction hn : cs.length using Nat.strongRecOn generalizing cs with
  | ind n ih =>
  subst hn
  rw [afterBacktick_eq, afterBacktick_eq cs, Text.afterTemplate_byteChars]
  cases hpiece : Text.afterTemplate cs with
  | none => rfl
  | some piece =>
    obtain ⟨closed, rest⟩ := piece
    cases closed with
    | true => rfl
    | false =>
      change (afterBrace [.group] (byteChars rest)).bind afterBacktick =
        ((afterBrace [.group] rest).bind afterBacktick).map byteChars
      rw [afterBrace_byteChars]
      cases hafter : afterBrace [.group] rest with
      | none => rfl
      | some after =>
        have hlt := Text.afterTemplate_length hpiece
        have hlt' := afterBrace_length hafter
        exact ih after.length (by omega) after rfl

/-- What a search reads of some bytes from index `i` on. -/
def charsFrom (bytes : List UInt8) (i : Nat) : List Char := (bytes.drop i).map Char.ofUInt8

/-- The index after the template whose opening backtick is at index `i`. -/
def templateEnd? (bytes : List UInt8) (i : Nat) : Option Nat :=
  (afterBacktick (charsFrom bytes (i + 1))).map fun rest => bytes.length - rest.length

theorem charsFrom_of_backtick {bytes : List UInt8} {i : Nat} (h : bytes[i]? = some 0x60) :
    charsFrom bytes i = '\x60' :: charsFrom bytes (i + 1) := by
  obtain ⟨hlt, hget⟩ := List.getElem?_eq_some_iff.1 h
  rw [charsFrom, List.drop_eq_getElem_cons hlt, hget]
  rfl

/-- A text that the bytes end with is read from its index on. -/
theorem charsFrom_of_suffix {bytes : List UInt8} {i : Nat} {rest : List Char}
    (h : rest <:+ charsFrom bytes i) : charsFrom bytes (bytes.length - rest.length) = rest := by
  have hwhole : rest <:+ bytes.map Char.ofUInt8 := by
    refine h.trans ?_
    rw [charsFrom, List.map_drop]
    exact List.drop_suffix _ _
  rw [List.suffix_iff_eq_drop, List.length_map] at hwhole
  rw [charsFrom, List.map_drop]
  exact hwhole.symm

/-- In the bytes of a text, a template ends where it ends in the text. -/
theorem templateEnd?_utf8 (front cs : List Char) :
    templateEnd? ((front ++ '\x60' :: cs).flatMap String.utf8EncodeChar) (Text.byteLength front) =
      (afterBacktick cs).map fun rest =>
        Text.byteLength (front ++ '\x60' :: cs) - Text.byteLength rest := by
  have hdrop : charsFrom ((front ++ '\x60' :: cs).flatMap String.utf8EncodeChar)
      (Text.byteLength front + 1) = byteChars cs := by
    rw [charsFrom, byteChars_eq_map, List.append_cons, List.flatMap_append, List.drop_left']
    rw [length_flatMap_utf8EncodeChar, Text.byteLength_append]
    rfl
  rw [templateEnd?, hdrop, afterBacktick_byteChars, Option.map_map, length_flatMap_utf8EncodeChar]
  congr 1
  funext rest
  rw [Function.comp_apply, length_byteChars]

/-- **Skipping a template and searching through it agree.**  From a backtick at any index of any
bytes, with any braces open: if the template ends before index `e`, the search for a closing brace
arrives at `e` with the same braces open, and if it does not end, the search finds nothing.  A
search has a brace open as long as it goes on, so these are all the braces it can have open.  In the
bytes of a text the template ends where it ends in the text. -/
theorem templateEnd_agrees :
    (∀ (bytes : List UInt8) (i : Nat) (stack : List Opening), bytes[i]? = some 0x60 →
      stack ≠ [] →
      (∀ e, templateEnd? bytes i = some e →
        Reaches (stack, charsFrom bytes i) (stack, charsFrom bytes e)) ∧
      (templateEnd? bytes i = none → afterBrace stack (charsFrom bytes i) = none)) ∧
    (∀ s t, Reaches s t → afterBrace s.1 s.2 = afterBrace t.1 t.2 ∧ (s.1 ≠ [] → t.1 ≠ [])) ∧
    ∀ front cs : List Char,
      templateEnd? ((front ++ '\x60' :: cs).flatMap String.utf8EncodeChar)
          (Text.byteLength front) =
        (afterBacktick cs).map fun rest =>
          Text.byteLength (front ++ '\x60' :: cs) - Text.byteLength rest := by
  refine ⟨fun bytes i stack hi hstack => ?_, fun _ _ h => ⟨h.afterBrace_eq, h.ne_nil⟩,
    templateEnd?_utf8⟩
  rw [charsFrom_of_backtick hi]
  constructor
  · intro e he
    obtain ⟨rest, hrest, rfl⟩ := Option.map_eq_some_iff.1 he
    rw [charsFrom_of_suffix (afterBacktick_suffix hrest)]
    exact reaches_of_afterBacktick hstack hrest
  · intro hnone
    exact afterBrace_eq_none_of_afterBacktick hstack (Option.map_eq_none_iff.1 hnone)

/-- A template inside an expression inside a template, with a quoted brace. -/
def nestedTemplate : List UInt8 :=
  "\x7b\x60é$\x7b\x60b$\x7b'\x7d'\x7d\x60\x7dc\x60\x7d".toList.flatMap String.utf8EncodeChar

theorem templateEnd_agrees_nestedTemplate :
    templateEnd? nestedTemplate 1 = some 18 ∧
      Reaches ([.hole, .group], charsFrom nestedTemplate 1)
        ([.hole, .group], charsFrom nestedTemplate 18) ∧
      templateEnd? (nestedTemplate.take 17) 1 = none ∧
      afterBrace [.group] (charsFrom (nestedTemplate.take 17) 1) = none := by
  have hends : templateEnd? nestedTemplate 1 = some 18 ∧
      templateEnd? (nestedTemplate.take 17) 1 = none := by decide +kernel
  obtain ⟨hagree, _, _⟩ := templateEnd_agrees
  refine ⟨hends.1, (hagree _ 1 _ (by decide) (by simp)).1 18 hends.1, hends.2, ?_⟩
  exact (hagree _ 1 _ (by decide) (by simp)).2 hends.2

end CssRune
