/-
**Reading positions.**

A cursor is a byte offset together with the text that is still to be read.  Readers take a cursor
and return the one after what they have read; `Step` adds the proof that something was
read, which is what makes their loops end.

Main results:

* `Cursor.pos_moveTo` — moving over a piece of text moves the offset by its bytes;
* `Cursor.upTo_moveTo` — the text between a cursor and the one after a piece is the piece.
-/

import CssRune.Text.Blank
import CssRune.Text.Bytes
import CssRune.Text.Search

set_option autoImplicit false

namespace CssRune

/-- A byte offset and the text from there on. -/
structure Cursor where
  pos : Nat
  rest : List Char
  deriving DecidableEq, Repr

namespace Cursor

def length (c : Cursor) : Nat := c.rest.length

/-- The cursor after one character; at the end it stays. -/
def next (c : Cursor) : Cursor :=
  match c.rest with
  | [] => c
  | ch :: rest => ⟨c.pos + ch.utf8Size, rest⟩

def skip (c : Cursor) (n : Nat) : Cursor :=
  ⟨c.pos + Text.byteLength (c.rest.take n), c.rest.drop n⟩

/-- The cursor at a later suffix of the text. -/
def moveTo (c : Cursor) (suffix : List Char) : Cursor :=
  ⟨c.pos + Text.byteLength (Text.before c.rest suffix), suffix⟩

/-- The text between a cursor and a later one. -/
def upTo (c later : Cursor) : List Char := Text.before c.rest later.rest

/-- The cursor at the first character that is no blank of markup. -/
def skipSpace (c : Cursor) : Cursor := c.moveTo (c.rest.dropWhile Text.isSpace)

@[simp] theorem length_mk (pos : Nat) (rest : List Char) :
    (Cursor.mk pos rest).length = rest.length := rfl

@[simp] theorem length_moveTo (c : Cursor) (suffix : List Char) :
    (c.moveTo suffix).length = suffix.length := rfl

@[simp] theorem rest_moveTo (c : Cursor) (suffix : List Char) :
    (c.moveTo suffix).rest = suffix := rfl

variable {c : Cursor} {piece suffix rest : List Char} {ch : Char}

/-- Moving over a piece of text moves the offset by its bytes. -/
theorem pos_moveTo (h : c.rest = piece ++ suffix) :
    (c.moveTo suffix).pos = c.pos + Text.byteLength piece := by
  simp only [moveTo, h, Text.before_append]

/-- The text between a cursor and the one after a piece is the piece. -/
theorem upTo_moveTo (h : c.rest = piece ++ suffix) : c.upTo (c.moveTo suffix) = piece := by
  simp [upTo, h]

/-- No cursor has more left than itself. -/
theorem length_le_self (c : Cursor) : c.length ≤ c.length := Nat.le_refl _

theorem length_next_le (c : Cursor) : c.next.length ≤ c.length := by
  unfold next
  split
  · exact Nat.le_refl _
  · rename_i h
    simp [length, h]

theorem length_next_lt (h : c.rest ≠ []) : c.next.length < c.length := by
  unfold next
  split
  · contradiction
  · rename_i h
    simp [length, h]

theorem length_next_of_cons (h : c.rest = ch :: rest) :
    c.next.length < c.length := length_next_lt (h ▸ List.cons_ne_nil ch rest)

theorem rest_next (h : c.rest = ch :: rest) : c.next.rest = rest := by
  unfold next
  split
  · rename_i hn
    rw [hn] at h
    cases h
  · rename_i hr
    rw [hr] at h
    injection h

/-- Moving over a character leaves less. -/
theorem length_moveTo_lt (h : c.rest = ch :: rest) : (c.moveTo rest).length < c.length := by
  rw [length_moveTo, length, h, List.length_cons]
  exact Nat.lt_succ_self _

/-- Moving over a character, and over more after it, leaves less. -/
theorem length_moveTo_lt_of_le (h : c.rest = ch :: rest) (hs : suffix.length ≤ rest.length) :
    (c.moveTo suffix).length < c.length :=
  Nat.lt_of_le_of_lt hs (length_moveTo_lt h)

theorem length_skip_le (c : Cursor) (n : Nat) : (c.skip n).length ≤ c.length := by
  rw [skip, length, length, List.length_drop]
  exact Nat.sub_le _ _

theorem length_skipSpace_le (c : Cursor) : c.skipSpace.length ≤ c.length :=
  (List.dropWhile_sublist Text.isSpace).length_le

end Cursor

/-- A value read from a non-empty piece of the text at `c`. -/
structure Step (α : Type) (c : Cursor) where
  value : α
  next : Cursor
  shorter : next.length < c.length

/-- A value read from a possibly empty piece of the text at `c`. -/
structure Pace (α : Type) (c : Cursor) where
  value : α
  next : Cursor
  noLonger : next.length ≤ c.length

/-- Another value read from the same piece. -/
def Step.map {α β : Type} {c : Cursor} (f : α → β) (s : Step α c) : Step β c :=
  ⟨f s.value, s.next, s.shorter⟩

/-- What was read from a later cursor, as read from an earlier one. -/
def Step.after {α : Type} {c d : Cursor} (h : d.length ≤ c.length) (s : Step α d) : Step α c :=
  ⟨s.value, s.next, Nat.lt_of_lt_of_le s.shorter h⟩

/-- What was read from a later cursor, as read from an earlier one. -/
def Pace.after {α : Type} {c d : Cursor} (h : d.length < c.length) (p : Pace α d) : Pace α c :=
  ⟨p.value, p.next, Nat.le_of_lt (Nat.lt_of_le_of_lt p.noLonger h)⟩

variable {α β : Type} {c d : Cursor}

@[simp] theorem Pace.value_after (h : d.length < c.length) (p : Pace α d) :
    (p.after h).value = p.value := rfl

@[simp] theorem Pace.next_after (h : d.length < c.length) (p : Pace α d) :
    (p.after h).next = p.next := rfl

/-- What is read after some text leaves less than the text started with. -/
theorem Step.length_next_skip_lt {n : Nat} (s : Step α (c.skip n)) :
    s.next.length < c.length := Nat.lt_of_lt_of_le s.shorter (c.length_skip_le n)

@[simp] theorem Step.value_map (f : α → β) (s : Step α c) :
    (s.map f).value = f s.value := rfl

@[simp] theorem Step.next_map (f : α → β) (s : Step α c) :
    (s.map f).next = s.next := rfl

@[simp] theorem Step.value_after (h : d.length ≤ c.length) (s : Step α d) :
    (s.after h).value = s.value := rfl

@[simp] theorem Step.next_after (h : d.length ≤ c.length) (s : Step α d) :
    (s.after h).next = s.next := rfl

end CssRune
