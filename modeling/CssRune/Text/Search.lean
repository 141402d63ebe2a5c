/-
**Looking for a piece of text.**

Main results:

* `Text.find_length_le` — what is found is no longer than where it was looked for;
* `Text.before_append` — the text before a suffix is what was put in front of it.
-/

set_option autoImplicit false

namespace CssRune

namespace Text

/-- The text from the first occurrence of a piece on. -/
def find (piece : List Char) : List Char → Option (List Char)
  | [] => if piece.isEmpty then some [] else none
  | c :: cs => if piece.isPrefixOf (c :: cs) then some (c :: cs) else find piece cs

def before (cs suffix : List Char) : List Char := cs.take (cs.length - suffix.length)

def occurs (piece cs : List Char) : Bool := (find piece cs).isSome

theorem find_length_le {piece cs r : List Char} (h : find piece cs = some r) :
    r.length ≤ cs.length := by
  induction cs with
  | nil =>
    rw [find] at h
    split at h
    · simp_all
    · simp at h
  | cons c cs ih =>
    rw [find] at h
    split at h
    · injection h with h
      simp [← h]
    · have := ih h
      simp only [List.length_cons]
      omega

@[simp] theorem before_append (cs suffix : List Char) : before (cs ++ suffix) suffix = cs := by
  simp [before]

end Text

end CssRune
