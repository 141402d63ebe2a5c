/-
**Rendering an edit buffer.**

A rendered text is a row of segments: ranges of the source copied as they are, overwrites, and
insertions.  Both the text and the map back to the source are read off this row.
-/

import CssRune.Edit.Buffer

set_option autoImplicit false

namespace CssRune

/-- A piece of a rendered text. -/
inductive Segment where
  /-- A range of the source, as it is. -/
  | copied (span : Span) (text : List Char)
  /-- What replaces a range of the source. -/
  | replaced (span : Span) (text : List Char)
  /-- A text that stands for no range of the source. -/
  | inserted (text : List Char)
  deriving DecidableEq, Repr

namespace Segment

def text : Segment → List Char
  | copied _ text => text
  | replaced _ text => text
  | inserted text => text

/-- The range of the source a segment stands for. -/
def origin? : Segment → Option Span
  | copied span _ => some span
  | replaced span _ => some span
  | inserted _ => none

end Segment

namespace EditBuffer

/-- The copy of the source between two offsets; nothing when the second is not past the first. -/
def copy (source : List Char) (start stop : Nat) : List Segment :=
  if stop ≤ start then [] else [.copied ⟨start, stop⟩ (Text.slice source ⟨start, stop⟩)]

/-- The segments of a run of insertions after the offset `start`, and the offset after them. -/
def insertionRun (source : List Char) : Nat → List Insertion → List Segment × Nat
  | start, [] => ([], start)
  | start, i :: rest =>
    let (segments, last) := insertionRun source (max start i.pos) rest
    (copy source start i.pos ++ .inserted i.text.toList :: segments, last)

/-- The segments after the offset `start`, of the overwrites and insertions still to come. -/
def segmentsFrom (source : List Char) : Nat → List Overwrite → List Insertion → List Segment
  | start, [], insertions =>
    let (segments, last) := insertionRun source start insertions
    segments ++ copy source last (Text.byteLength source)
  | start, o :: overwrites, insertions =>
    let (segments, last) :=
      insertionRun source start (insertions.takeWhile fun i => i.pos ≤ o.span.start)
    segments ++ copy source last o.span.start ++ .replaced o.span o.text.toList ::
      segmentsFrom source o.span.stop overwrites
        (insertions.dropWhile fun i => i.pos ≤ o.span.start)

def segments (b : EditBuffer) : List Segment :=
  segmentsFrom b.source.toList 0 b.overwrites b.insertions

def render (b : EditBuffer) : String := String.ofList (b.segments.flatMap Segment.text)

end EditBuffer

/-! ### The map back to the source -/

/-- A range of the source and the range of the output that stands for it. -/
structure Mapping where
  origin : Span
  generated : Span
  deriving DecidableEq, Repr

/-- The mappings of a row of segments that starts at output offset `at_`. -/
def Mapping.ofSegments : Nat → List Segment → List Mapping
  | _, [] => []
  | at_, s :: rest =>
    let next := at_ + Text.byteLength s.text
    match s.origin? with
    | some span => ⟨span, ⟨at_, next⟩⟩ :: ofSegments next rest
    | none => ofSegments next rest

/-- Which ranges of an output stand for which ranges of a source.  Inserted text has no mapping. -/
structure SourceMap where
  source : String
  mappings : List Mapping
  deriving DecidableEq, Repr

/-- The source offset an output offset came from.  Inside an overwrite that is longer than the
range it replaces, the last byte of the range stands for the rest. -/
def SourceMap.originOffset? (m : SourceMap) (generated : Nat) : Option Nat :=
  (m.mappings.find? fun x => x.generated.contains generated).map fun x =>
    x.origin.start + min (generated - x.generated.start) (x.origin.size - 1)

/-- The map of a buffer whose source has the given name. -/
def EditBuffer.sourceMap (b : EditBuffer) (name : String) : SourceMap :=
  ⟨name, Mapping.ofSegments 0 b.segments⟩

end CssRune
