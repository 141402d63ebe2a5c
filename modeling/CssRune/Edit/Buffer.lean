/-
**Edits against an unchanging source.**

An edit buffer keeps a source text and two lists of edits against it: overwrites, which replace a
range, and insertions, which add text at an offset.  An edit that conflicts with those already
recorded is refused when it is made, so a buffer can always be rendered; rendering is
`CssRune/Edit/Segments.lean`.
-/

import CssRune.Text.Bytes

set_option autoImplicit false

namespace CssRune

/-- Why an edit is refused. -/
inductive EditError where
  /-- The range holds no bytes. -/
  | emptyRange (offset : Nat)
  /-- The range does not lie in a source of the given length. -/
  | outOfBounds (span : Span) (length : Nat)
  /-- The offset lies inside a character. -/
  | insideCharacter (offset : Nat)
  /-- The range meets an earlier edit. -/
  | overlap (span : Span)
  deriving DecidableEq, Repr

/-- The wording of a refusal. -/
def EditError.message : EditError → String
  | emptyRange offset => s!"cannot edit an empty range at {offset}"
  | outOfBounds span length =>
    s!"range {span.start}..{span.stop} is out of bounds (source length {length})"
  | insideCharacter offset => s!"offset {offset} is not on a character boundary"
  | overlap span => s!"range {span.start}..{span.stop} overlaps an existing overwrite"

/-- Which neighbour an insertion sticks to: of the insertions at one offset, those on the left come
first. -/
inductive Side where
  | left
  | right
  deriving DecidableEq, Repr

/-- A range and the text that replaces it. -/
structure Overwrite where
  span : Span
  text : String
  deriving DecidableEq, Repr

/-- A text added at an offset. -/
structure Insertion where
  pos : Nat
  side : Side
  text : String
  deriving DecidableEq, Repr

/-- The order in which insertions are rendered; of equal ones the earlier comes first. -/
def Insertion.before (a b : Insertion) : Bool :=
  a.pos < b.pos || (a.pos == b.pos && !(a.side == .right && b.side == .left))

/-- A source text and the edits recorded against it. -/
structure EditBuffer where
  source : String
  overwrites : List Overwrite
  insertions : List Insertion
  deriving DecidableEq, Repr

namespace EditBuffer

def ofSource (source : String) : EditBuffer := ⟨source, [], []⟩

def isEdited (b : EditBuffer) : Bool := !b.overwrites.isEmpty || !b.insertions.isEmpty

/-- The source can be cut at both ends of the range. -/
def checkRange (b : EditBuffer) (span : Span) : Except EditError Unit :=
  let source := b.source.toList
  let length := Text.byteLength source
  if span.stop < span.start || length < span.stop then .error (.outOfBounds span length)
  else if !Text.isBoundary span.start source then .error (.insideCharacter span.start)
  else if !Text.isBoundary span.stop source then .error (.insideCharacter span.stop)
  else .ok ()

/-- Whether the offset lies strictly inside the range. -/
def splits (pos : Nat) (span : Span) : Bool := span.start < pos && pos < span.stop

/-- Whether a range meets an earlier edit. -/
def conflicts (b : EditBuffer) (span : Span) : Bool :=
  b.overwrites.any (fun o => o.span.intersects span) ||
    b.insertions.any (fun i => splits i.pos span)

/-- Replaces a range by a text. -/
def overwrite (b : EditBuffer) (span : Span) (text : String) : Except EditError EditBuffer := do
  if span.isEmpty then throw (.emptyRange span.start)
  b.checkRange span
  if b.conflicts span then throw (.overlap span)
  let before := b.overwrites.takeWhile fun o => o.span.start < span.start
  let after := b.overwrites.dropWhile fun o => o.span.start < span.start
  return { b with overwrites := before ++ ⟨span, text⟩ :: after }

/-- Adds a text at an offset, on the given side. -/
def insert (b : EditBuffer) (pos : Nat) (side : Side) (text : String) :
    Except EditError EditBuffer := do
  b.checkRange ⟨pos, pos⟩
  if b.overwrites.any (fun o => splits pos o.span) then throw (.overlap ⟨pos, pos⟩)
  let new : Insertion := ⟨pos, side, text⟩
  let before := b.insertions.takeWhile fun i => i.before new
  let after := b.insertions.dropWhile fun i => i.before new
  return { b with insertions := before ++ new :: after }

end EditBuffer

end CssRune
