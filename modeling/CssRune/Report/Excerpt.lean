/-
**Source excerpts for diagnostics.**

A diagnostic shows the lines that lead up to a range of the source, the line the range starts in,
and a row of carets under the range.  Rows are at most 80 columns wide: the lines before are cut
short, the line of the range is wrapped far enough to show it.

Main results:

* `Report.length_cutRow` — a line before the range takes at most 80 columns;
* `Report.column_lt` — the carets start inside a row.
-/

import CssRune.Text.Bytes

set_option autoImplicit false

namespace CssRune

namespace Report

def maxWidth : Nat := 80

/-! ### Rows -/

/-- The lines of a text, without their line feeds. -/
def lines (cs : List Char) : List (List Char) := cs.splitOn '\n'

/-- A row cut short to the maximal width, with three dots at the end. -/
def cutRow (cs : List Char) : List Char :=
  if maxWidth < cs.length then cs.take (maxWidth - 3) ++ ['.', '.', '.'] else cs

/-- At most `count` rows of the maximal width. -/
def wrapRows : Nat → List Char → List (List Char)
  | 0, _ => []
  | _ + 1, [] => []
  | count + 1, c :: cs =>
    (c :: cs).take maxWidth :: wrapRows count ((c :: cs).drop maxWidth)

def joinRows (rows : List (List Char)) : List Char := ['\n'].intercalate rows

/-- A line with each tab shown as one space. -/
def showTabs (cs : List Char) : List Char := cs.map fun c => if c = '\t' then ' ' else c

/-- A line with its number, right-aligned to `width`, in front. -/
def numbered (width number : Nat) (line : List Char) : List Char :=
  let digits := (toString number).toList
  List.replicate (width - digits.length) ' ' ++ digits ++ [' ', '|'] ++ showTabs line

/-- A line before the range takes at most 80 columns. -/
theorem length_cutRow (cs : List Char) : (cutRow cs).length ≤ maxWidth := by
  unfold cutRow
  split
  · rename_i h
    simp only [maxWidth] at h
    simp only [maxWidth, List.length_append, List.length_take, List.length_cons, List.length_nil]
    omega
  · omega

/-! ### Captions -/

/-- A line centred under `width` columns from `column` on.  A line that does not fit stays where it
is. -/
def centred (column width : Nat) (line : List Char) : List Char :=
  let size : Int := line.length
  let padding : Int := (2 * column + width - size) / 2
  if padding ≤ 0 || maxWidth ≤ padding + size then line
  else List.replicate padding.toNat ' ' ++ line

/-- Every line of a message centred under `width` columns from `column` on. -/
def caption (message : String) (column width : Nat) : String :=
  String.ofList (joinRows ((lines message.toList).map (centred column width)))

/-! ### Excerpts -/

/-- A rendered excerpt. -/
structure Excerpt where
  text : String
  /-- The column the carets start at. -/
  column : Nat
  /-- The number of carets. -/
  width : Nat
  deriving DecidableEq, Repr

def Excerpt.caption (e : Excerpt) (message : String) : String :=
  Report.caption message e.column e.width

/-- The rows of the lines before the range: the last `height` of them. -/
def contextRows (height numberWidth line : Nat) (all : List (List Char)) : List (List Char) :=
  (((all.take line).zipIdx).drop (line - height)).map fun x => cutRow (numbered numberWidth x.2 x.1)

/-- The excerpt for a range of `content`, with up to `height` lines before it.  The ends of the
range are moved down to a character boundary; an empty file name leaves out the header. -/
def excerpt (filename content : String) (span : Span) (height : Nat) : Excerpt :=
  let chars := content.toList
  let start := Text.floorBoundary span.start chars
  let stop := Text.floorBoundary (max span.stop start) chars
  let before := Text.takeBytes start chars
  let line := before.count '\n'
  let offset := (before.reverse.takeWhile (· != '\n')).length
  let width := (Text.slice chars ⟨start, stop⟩).length
  let numberWidth := (toString line).length
  let column := offset + numberWidth + 2
  let all := lines chars
  let header := if filename.isEmpty then [] else filename.toList ++ ['\n', '\n']
  let context := (contextRows height numberWidth line all).flatMap (· ++ ['\n'])
  let here := wrapRows ((column + width) / maxWidth + 1) (numbered 0 line (all[line]?.getD []))
  let carets := List.replicate (column % maxWidth) ' ' ++ List.replicate width '^'
  { text := String.ofList (header ++ context ++ joinRows here ++ ['\n'] ++ carets ++ ['\n'])
    column := column % maxWidth
    width := width }

/-- The carets start inside a row. -/
theorem column_lt (filename content : String) (span : Span) (height : Nat) :
    (excerpt filename content span height).column < maxWidth := by
  simp only [excerpt, maxWidth]
  omega

/-- A message, the excerpt of the range it is about, and a caption under it. -/
def diagnostic (filename content message : String) (span : Span) (detail : Option String) :
    String :=
  let e := excerpt filename content span 5
  message ++ "\n\n" ++ e.text ++ (detail.map e.caption).getD ""

end Report

end CssRune
