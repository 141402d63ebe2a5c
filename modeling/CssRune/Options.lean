/-
**Options.**
-/

import CssRune.Hash

set_option autoImplicit false

namespace CssRune

/-- What is warned about when classes are used with and without the rune. -/
inductive WarningLevel where
  /-- Nothing. -/
  | off
  /-- Each class that is used both ways. -/
  | use
  /-- Each class that is used both ways, and each selector that combines both kinds. -/
  | all
  deriving DecidableEq, Repr

namespace WarningLevel

def isEnabled (l : WarningLevel) : Bool := l != .off

def warnsSelectors (l : WarningLevel) : Bool := l == .all

def name : WarningLevel → String
  | off => "off"
  | use => "use"
  | all => "all"

/-- What is said about a name that no level has. -/
def invalidName (name : String) : String :=
  s!"invalid mixed use warning level `{name}` (expected off, use or all)"

/-- The level with a name; truth values name the lowest and the highest. -/
def ofName (name : String) : Except String WarningLevel :=
  if name = "off" ∨ name = "false" then .ok .off
  else if name = "use" then .ok .use
  else if name = "all" ∨ name = "true" then .ok .all
  else .error (invalidName name)

end WarningLevel

/-- The options of a run. -/
structure Options where
  /-- How the suffix of class names is computed. -/
  hasher : Hasher
  level : WarningLevel
  /-- Whether a sentinel class makes rune classes more specific. -/
  specific : Bool

def Options.default : Options := ⟨.djb2, .use, false⟩

end CssRune
