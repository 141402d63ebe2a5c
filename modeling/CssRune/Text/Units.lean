/-
**UTF-16 code units.**

Main results:

* `Text.units_append` — the units of two texts are the units of the one, then the other.
-/

set_option autoImplicit false

namespace CssRune

namespace Text

/-- The UTF-16 code units of a character: itself, or a pair of surrogates. -/
def charUnits (c : Char) : List UInt16 :=
  if c.toNat < 0x10000 then [c.toNat.toUInt16]
  else
    let v := c.toNat - 0x10000
    [(0xd800 + v / 0x400).toUInt16, (0xdc00 + v % 0x400).toUInt16]

def units (cs : List Char) : List UInt16 := cs.flatMap charUnits

/-- Whether a number is a surrogate that opens a pair. -/
def isHighSurrogate (n : Nat) : Bool := 0xd800 ≤ n && n ≤ 0xdbff

/-- Whether a number is a surrogate that closes a pair. -/
def isLowSurrogate (n : Nat) : Bool := 0xdc00 ≤ n && n ≤ 0xdfff

/-- The character of a pair of surrogates. -/
def ofPair (high low : Nat) : Char :=
  Char.ofNat (0x10000 + (high - 0xd800) * 0x400 + (low - 0xdc00))

theorem units_append (xs ys : List Char) : units (xs ++ ys) = units xs ++ units ys := by
  simp [units]

end Text

end CssRune
