/-
**Byte ranges into a component source.**

Every node of a component remembers where it was written as a half-open range of byte offsets into
the UTF-8 text.  Nothing here looks at the text itself: that is `CssRune/Text/Bytes.lean`.  Offsets
are natural numbers here; where they are kept in 32 bits, this is exact for sources of less than
`2 ^ 32` bytes.

Main results:

* `Span.intersects_comm` — sharing a byte is symmetric.
-/

set_option autoImplicit false

namespace CssRune

/-- A half-open range of byte offsets, `[start, stop)`. -/
structure Span where
  start : Nat
  stop : Nat
  deriving DecidableEq, Repr, Inhabited

namespace Span

/-- The range of `size` bytes that begins at `start`. -/
def sized (start size : Nat) : Span := ⟨start, start + size⟩

def contains (s : Span) (offset : Nat) : Bool := s.start ≤ offset && offset < s.stop

/-- A range is empty when it ends no later than it starts. -/
def isEmpty (s : Span) : Bool := s.stop ≤ s.start

def size (s : Span) : Nat := s.stop - s.start

/-- Both ends moved by the same number of bytes. -/
def shift (s : Span) (by_ : Nat) : Span := ⟨s.start + by_, s.stop + by_⟩

/-- Whether two ranges share at least one byte. -/
def intersects (s t : Span) : Bool := s.start < t.stop && t.start < s.stop

theorem contains_iff {s : Span} {p : Nat} : s.contains p = true ↔ s.start ≤ p ∧ p < s.stop := by
  simp [contains]

theorem intersects_comm (s t : Span) : s.intersects t = t.intersects s := by
  simp [intersects, Bool.and_comm]

@[simp] theorem shift_start (s : Span) (n : Nat) : (s.shift n).start = s.start + n := rfl

@[simp] theorem shift_stop (s : Span) (n : Nat) : (s.shift n).stop = s.stop + n := rfl

end Span

end CssRune
