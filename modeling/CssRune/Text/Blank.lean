/-
**White space.**

Two notions of white space are at work.  Class lists, expressions and property names are split and
trimmed at every character with the Unicode property `White_Space`; markup and stylesheets only
treat the five ASCII characters that HTML and CSS name as blanks.

Main results:

* `Text.isBlank_of_isSpace` — the narrow notion is contained in the wide one.
-/

set_option autoImplicit false

namespace CssRune

namespace Text

/-- The ranges of characters with the Unicode property `White_Space`. -/
def blankRanges : List (Nat × Nat) :=
  [(0x09, 0x0d), (0x20, 0x20), (0x85, 0x85), (0xa0, 0xa0), (0x1680, 0x1680), (0x2000, 0x200a),
    (0x2028, 0x2029), (0x202f, 0x202f), (0x205f, 0x205f), (0x3000, 0x3000)]

/-- Whether a character has the Unicode property `White_Space`. -/
def isBlank (c : Char) : Bool :=
  blankRanges.any fun r => r.1 ≤ c.toNat && c.toNat ≤ r.2

/-- Whether a character is a blank of markup and stylesheets. -/
def isSpace (c : Char) : Bool :=
  c == ' ' || c == '\t' || c == '\n' || c == '\x0c' || c == '\r'

theorem isBlank_of_isSpace {c : Char} (h : isSpace c = true) : isBlank c = true := by
  simp only [isSpace, Bool.or_eq_true, beq_iff_eq] at h
  rcases h with (((rfl | rfl) | rfl) | rfl) | rfl <;> decide

/-! ### Trimming -/

def trimLeft (cs : List Char) : List Char := cs.dropWhile isBlank

def trimRight (cs : List Char) : List Char := (cs.reverse.dropWhile isBlank).reverse

def trim (cs : List Char) : List Char := trimRight (trimLeft cs)

/-- A text without the markup blanks at its end. -/
def trimSpaceRight (cs : List Char) : List Char := (cs.reverse.dropWhile isSpace).reverse

end Text

end CssRune
