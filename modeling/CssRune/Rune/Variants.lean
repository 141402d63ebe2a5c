/-
**Escaping the rune selectors of a complex selector.**

A rune selector is escaped by wrapping its hashed name in `:global(...)`.  Escaped selectors that
follow one another directly share a wrapper, because the host compiler refuses two wrappers in a
row.  A class that is used natively as well has to keep matching the scoped class, so a complex
selector is expanded into every choice of which of its mixed classes are escaped.
-/

import CssRune.Rune.Fault
import CssRune.Text.Bytes

set_option autoImplicit false

namespace CssRune

/-- A rune selector of a complex selector. -/
structure Target where
  span : Span
  /-- The hashed class name. -/
  hashed : String
  /-- Whether the class is used natively as well. -/
  mixed : Bool
  deriving DecidableEq, Repr

/-- A range of a selector and the text that replaces it. -/
structure Run where
  span : Span
  text : String
  deriving DecidableEq, Repr

/-! ### Wrappers -/

/-- The wrapper of a list of hashed names, with `suffix` at its end. -/
def wrapper (names : List String) (suffix : String) : String :=
  ":global(" ++ String.join (names.map ("." ++ ·)) ++ suffix ++ ")"

/-- A run that is still growing: its range and its names, last one first. -/
structure OpenRun where
  span : Span
  names : List String

def OpenRun.close (suffix : String) (r : OpenRun) : Run :=
  ⟨r.span, wrapper r.names.reverse suffix⟩

/-- The runs from an open one and the targets still to come, each with whether it is escaped. -/
def runsFrom (suffix : String) : Option OpenRun → List (Target × Bool) → List Run
  | none, [] => []
  | some r, [] => [r.close suffix]
  | none, (_, false) :: rest => runsFrom suffix none rest
  | some r, (_, false) :: rest => r.close suffix :: runsFrom suffix none rest
  | none, (t, true) :: rest => runsFrom suffix (some ⟨t.span, [t.hashed]⟩) rest
  | some r, (t, true) :: rest =>
    if r.span.stop = t.span.start then
      runsFrom suffix (some ⟨⟨r.span.start, t.span.stop⟩, t.hashed :: r.names⟩) rest
    else r.close suffix :: runsFrom suffix (some ⟨t.span, [t.hashed]⟩) rest

/-- The wrappers for the targets chosen by `escaped`, in source order.  Chosen targets that follow
one another directly share a wrapper. -/
def wrappedRuns (targets : List Target) (escaped : List Bool) (suffix : String) : List Run :=
  runsFrom suffix none (targets.zip escaped)

/-! ### Variants -/

/-- The text from `at_` to the end of `span` with the runs put in place. -/
def variantFrom (source : List Char) (stop : Nat) : Nat → List Run → List Char
  | at_, [] => Text.slice source ⟨at_, stop⟩
  | at_, r :: rest =>
    Text.slice source ⟨at_, r.span.start⟩ ++ r.text.toList
      ++ variantFrom source stop r.span.stop rest

/-- The text of `span` with the chosen targets escaped. -/
def variant (source : List Char) (span : Span) (targets : List Target) (escaped : List Bool)
    (suffix : String) : String :=
  String.ofList (variantFrom source span.stop span.start (wrappedRuns targets escaped suffix))

/-- Every choice of the targets to escape: rune-only targets always are, mixed ones may be.  The
first mixed target decides first, and escaping comes before leaving alone. -/
def choices : List Target → List (List Bool)
  | [] => [[]]
  | t :: rest =>
    if t.mixed then (choices rest).map (true :: ·) ++ (choices rest).map (false :: ·)
    else (choices rest).map (true :: ·)

def mixedCount (targets : List Target) : Nat := targets.countP (·.mixed)

/-- Every variant of the complex selector at `span`, the one that escapes all targets first. -/
def variants (source : List Char) (span : Span) (targets : List Target) (suffix : String) :
    Except RuneError (List String) :=
  let count := mixedCount targets
  if maxMixedTargets < count then .error ⟨.tooManyMixed count, span⟩
  else .ok ((choices targets).map fun escaped => variant source span targets escaped suffix)

end CssRune
