/-
**Reading hexadecimal digits.**
-/

import CssRune.Text.Radix

set_option autoImplicit false

namespace CssRune

namespace Text

/-- The value of a hexadecimal digit. -/
def hexDigit? (c : Char) : Option Nat :=
  if c.isDigit then some (c.toNat - 48)
  else if 'a' ≤ c ∧ c ≤ 'f' then some (c.toNat - 87)
  else if 'A' ≤ c ∧ c ≤ 'F' then some (c.toNat - 55)
  else none

/-- The value of one or more hexadecimal digits. -/
def hexNumber? (cs : List Char) : Option Nat :=
  if cs.isEmpty then none
  else (cs.mapM hexDigit?).map fun ds => ds.foldl (fun n d => 16 * n + d) 0

/-- The value of exactly `n` hexadecimal digits. -/
def hexOf? (n : Nat) (cs : List Char) : Option Nat :=
  if cs.length < n then none else hexNumber? (cs.take n)

end Text

end CssRune
