/-
**Texts measured in UTF-8 bytes.**

The library reads texts character by character but reports byte offsets.  This module holds the
passage between the two: how many bytes a text takes, and how to cut one at a byte offset.

Main results:

* `Text.byteLength_append` — lengths add up;
* `Text.takeBytes_append_dropBytes` — nothing is lost when a text is cut;
* `Text.isBoundary_floorBoundary` — a text can be cut at the boundary below any offset.
-/

import CssRune.Span

set_option autoImplicit false

namespace CssRune

namespace Text

/-! ### Lengths -/

def byteLength : List Char → Nat
  | [] => 0
  | c :: cs => c.utf8Size + byteLength cs

@[simp] theorem byteLength_nil : byteLength [] = 0 := rfl

@[simp] theorem byteLength_cons (c : Char) (cs : List Char) :
    byteLength (c :: cs) = c.utf8Size + byteLength cs := rfl

@[simp] theorem byteLength_append (xs ys : List Char) :
    byteLength (xs ++ ys) = byteLength xs + byteLength ys := by
  induction xs with
  | nil => simp
  | cons c cs ih => simp [ih, Nat.add_assoc]

/-- Only the empty text takes no bytes. -/
theorem byteLength_eq_zero {cs : List Char} : byteLength cs = 0 ↔ cs = [] := by
  cases cs with
  | nil => simp
  | cons c cs => simp [Nat.ne_of_gt c.utf8Size_pos]

/-! ### Boundaries -/

/-- Whether a text can be cut after `n` bytes. -/
def isBoundary : Nat → List Char → Bool
  | 0, _ => true
  | _ + 1, [] => false
  | n + 1, c :: cs => c.utf8Size ≤ n + 1 && isBoundary (n + 1 - c.utf8Size) cs

/-- The last offset up to `n` at which the text can be cut. -/
def floorBoundary : Nat → List Char → Nat
  | _, [] => 0
  | n, c :: cs => if c.utf8Size ≤ n then c.utf8Size + floorBoundary (n - c.utf8Size) cs else 0

@[simp] theorem isBoundary_zero (cs : List Char) : isBoundary 0 cs = true := by
  cases cs <;> rfl

/-- Whatever the offset, a text can be cut at the boundary below it. -/
theorem isBoundary_floorBoundary (n : Nat) (cs : List Char) :
    isBoundary (floorBoundary n cs) cs = true := by
  induction cs generalizing n with
  | nil => simp [floorBoundary]
  | cons c cs ih =>
    by_cases h : c.utf8Size ≤ n
    · obtain ⟨k, hk⟩ : ∃ k, c.utf8Size = k + 1 :=
        ⟨c.utf8Size - 1, by have := c.utf8Size_pos; omega⟩
      have hsum : c.utf8Size + floorBoundary (n - c.utf8Size) cs
          = (k + floorBoundary (n - c.utf8Size) cs) + 1 := by omega
      have hdiff : (k + floorBoundary (n - c.utf8Size) cs) + 1 - c.utf8Size
          = floorBoundary (n - c.utf8Size) cs := by omega
      rw [floorBoundary, if_pos h, hsum, isBoundary, hdiff]
      simp [ih]
      omega
    · simp [floorBoundary, h]

/-- The boundary below an offset is not past it. -/
theorem floorBoundary_le (n : Nat) (cs : List Char) : floorBoundary n cs ≤ n := by
  induction cs generalizing n with
  | nil => simp [floorBoundary]
  | cons c cs ih =>
    rw [floorBoundary]
    split
    · have := ih (n - c.utf8Size)
      omega
    · omega

/-! ### Cutting -/

/-- What is left of a text after `n` bytes.  A cut inside a character falls after it. -/
def dropBytes : Nat → List Char → List Char
  | 0, cs => cs
  | _ + 1, [] => []
  | n + 1, c :: cs => dropBytes (n + 1 - c.utf8Size) cs

/-- The first `n` bytes of a text.  A cut inside a character falls after it. -/
def takeBytes : Nat → List Char → List Char
  | 0, _ => []
  | _ + 1, [] => []
  | n + 1, c :: cs => c :: takeBytes (n + 1 - c.utf8Size) cs

def slice (source : List Char) (span : Span) : List Char :=
  takeBytes (span.stop - span.start) (dropBytes span.start source)

@[simp] theorem dropBytes_zero (cs : List Char) : dropBytes 0 cs = cs := by
  cases cs <;> rfl

@[simp] theorem takeBytes_zero (cs : List Char) : takeBytes 0 cs = [] := by
  cases cs <;> rfl

/-- Nothing is lost when a text is cut. -/
theorem takeBytes_append_dropBytes (n : Nat) (cs : List Char) :
    takeBytes n cs ++ dropBytes n cs = cs := by
  induction cs generalizing n with
  | nil => cases n <;> rfl
  | cons c cs ih =>
    cases n with
    | zero => rfl
    | succ n => simp [takeBytes, dropBytes, ih]

/-- Cutting after the bytes of the first part gives the two parts back. -/
theorem dropBytes_byteLength_append (xs ys : List Char) :
    dropBytes (byteLength xs) (xs ++ ys) = ys := by
  induction xs with
  | nil => simp
  | cons c cs ih =>
    obtain ⟨k, hk⟩ : ∃ k, c.utf8Size = k + 1 :=
      ⟨c.utf8Size - 1, by have := c.utf8Size_pos; omega⟩
    have hsum : c.utf8Size + byteLength cs = (k + byteLength cs) + 1 := by omega
    have hdiff : (k + byteLength cs) + 1 - c.utf8Size = byteLength cs := by omega
    rw [byteLength_cons, hsum, List.cons_append, dropBytes, hdiff, ih]

theorem takeBytes_byteLength_append (xs ys : List Char) :
    takeBytes (byteLength xs) (xs ++ ys) = xs := by
  have h := takeBytes_append_dropBytes (byteLength xs) (xs ++ ys)
  rw [dropBytes_byteLength_append] at h
  exact List.append_cancel_right h

end Text

end CssRune
