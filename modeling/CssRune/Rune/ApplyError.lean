/-
**Why runes cannot be applied.**
-/

import CssRune.Edit.Buffer
import CssRune.Rune.Fault

set_option autoImplicit false

namespace CssRune

/-- Why runes cannot be applied. -/
inductive ApplyError where
  | rune (e : RuneError)
  | edit (e : EditError)
  deriving DecidableEq, Repr

/-- A check of runes as a step of applying runes. -/
def ofRuneCheck {α : Type} (r : Except RuneError α) : Except ApplyError α := r.mapError .rune

/-- An edit as a step of applying runes. -/
def ofEdit {α : Type} (r : Except EditError α) : Except ApplyError α := r.mapError .edit

end CssRune
