/-
**Words of a class list.**

A class list is a text whose words, separated by white space, are class names.  The words are
needed in two ways: alone, and together with the range at which each one is written.

Main results:

* `Text.words_eq_nil_iff` — a text has no words exactly when it is blank.
-/

import CssRune.Text.Blank
import CssRune.Text.Bytes

set_option autoImplicit false

namespace CssRune

namespace Text

theorem length_dropWhile_le {α : Type} (p : α → Bool) (l : List α) :
    (l.dropWhile p).length ≤ l.length :=
  (List.dropWhile_sublist p).length_le

/-- The maximal runs of characters that are not white space. -/
def words (cs : List Char) : List String :=
  match _h : cs.dropWhile isBlank with
  | [] => []
  | c :: rest =>
    String.ofList (c :: rest.takeWhile (!isBlank ·)) :: words (rest.dropWhile (!isBlank ·))
termination_by cs.length
decreasing_by
  have h₁ := length_dropWhile_le isBlank cs
  have h₂ := length_dropWhile_le (!isBlank ·) rest
  simp only [_h, List.length_cons] at h₁
  omega

/-- A text has no words exactly when it is blank. -/
theorem words_eq_nil_iff {cs : List Char} : words cs = [] ↔ cs.dropWhile isBlank = [] := by
  rw [words]
  split <;> simp_all

/-- One step of `wordSpans`: `open_` is the word being read, last character first, with the offset
it starts at. -/
def wordSpansFrom : Nat → Option (Nat × List Char) → List Char → List (String × Span)
  | _, none, [] => []
  | pos, some (start, word), [] => [(String.ofList word.reverse, ⟨start, pos⟩)]
  | pos, none, c :: cs =>
    if isBlank c then wordSpansFrom (pos + c.utf8Size) none cs
    else wordSpansFrom (pos + c.utf8Size) (some (pos, [c])) cs
  | pos, some (start, word), c :: cs =>
    if isBlank c then
      (String.ofList word.reverse, ⟨start, pos⟩) :: wordSpansFrom (pos + c.utf8Size) none cs
    else wordSpansFrom (pos + c.utf8Size) (some (start, c :: word)) cs

/-- The words of a text that starts at byte `base`, each with the range it is written at. -/
def wordSpans (base : Nat) (cs : List Char) : List (String × Span) := wordSpansFrom base none cs

end Text

end CssRune
