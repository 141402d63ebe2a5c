/-
**Where rune selectors may stand.**

The host compiler accepts `:global(...)` only at the beginning or the end of a selector.  The
simple selectors of a complex selector are read in source order:

    .rune .rune .native .native .rune   -- accepted
    .rune .native .rune .native .rune   -- refused
    .native .mixed .native              -- refused, a mixed class must be first or last
-/

import CssRune.Lists
import CssRune.Rune.Fault

set_option autoImplicit false

namespace CssRune

/-- A simple selector that takes part in the placement check. -/
structure Occurrence where
  name : String
  span : Span
  placement : Placement
  /-- A class selector, as opposed to an id, a type or an attribute. -/
  isClass : Bool
  deriving DecidableEq, Repr

/-- What has been read so far. -/
structure PlacementState where
  /-- Only rune selectors have been read. -/
  inStart : Bool := true
  /-- A rune selector came after one that is not rune only. -/
  inEnd : Bool := false
  /-- The last selector that a rune names. -/
  cause : Option Occurrence := none
  deriving DecidableEq, Repr

namespace PlacementState

/-- Reads one occurrence; `isEdge` says that it is the first or the last.  The error is the
occurrence that is misplaced. -/
def step (s : PlacementState) (isEdge : Bool) (o : Occurrence) : Except Occurrence PlacementState :=
  let cause := if o.placement.isRune then some o else s.cause
  if o.placement = .mixed ∧ isEdge = false then .error o
  else if o.placement ≠ .rune ∧ s.inStart = true then .ok ⟨false, s.inEnd, cause⟩
  else
    let inEnd := s.inEnd || o.placement = .mixed || (!s.inStart && o.placement = .rune)
    if o.placement = .native ∧ inEnd = true then .error (cause.getD o)
    else .ok ⟨s.inStart, inEnd, cause⟩

/-- Reads the occurrences from the `i`-th of `count` on. -/
def run (count : Nat) : Nat → PlacementState → List Occurrence → Except Occurrence PlacementState
  | _, s, [] => .ok s
  | i, s, o :: rest =>
    match s.step (i = 0 || i + 1 = count) o with
    | .error misplaced => .error misplaced
    | .ok s' => run count (i + 1) s' rest

end PlacementState

/-- The occurrences in source order. -/
def inSourceOrder (occurrences : List Occurrence) : List Occurrence :=
  sortBy (fun a b => a.span.start ≤ b.span.start) occurrences

/-- Checks that rune selectors stand only where they can be escaped.  `list` is the range of the
whole selector list, which an error is reported at. -/
def checkPlacement (occurrences : List Occurrence) (list : Span) : Except RuneError Unit :=
  let sorted := inSourceOrder occurrences
  match PlacementState.run sorted.length 0 {} sorted with
  | .ok _ => .ok ()
  | .error o => .error ⟨.misplaced o.name o.placement, list⟩

end CssRune
