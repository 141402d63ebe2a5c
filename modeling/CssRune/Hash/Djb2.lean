/-
**The rolling multiply hash.**

The hash walks the UTF-16 code units of a text from back to front and keeps a signed number of 32
bits.  Carriage returns are left out first, so a text hashes the same with either kind of line
ending.  The bits are printed in base 36: the digits come out last one first, so they are put into a
buffer of seven places from the back.

Main results:

* `Hash.djb2_filter` — carriage returns do not matter.
-/

import CssRune.Text.Radix
import CssRune.Text.Units

set_option autoImplicit false

namespace CssRune

namespace Hash

/-- One unit of the hash: the value so far is taken from itself shifted, in 64 bits, and what is
left of the difference in 32 bits is exclusive-ored with the unit. -/
def djb2Step (unit : UInt16) (hash : Int32) : Int32 :=
  let shifted := hash <<< 5
  (shifted.toInt64 - hash.toInt64).toInt32 ^^^ unit.toUInt32.toInt32

/-- The 32-bit hash of a list of code units, the last one first. -/
def djb2Units (units : List UInt16) : UInt32 := (units.foldr djb2Step 5381).toUInt32

/-! ### Digits -/

/-- Places for digits that are filled from the back: those from `start` on are taken. -/
structure DigitBuffer (size : Nat) where
  places : Vector Char size
  start : Fin (size + 1)

namespace DigitBuffer

variable {size : Nat}

def empty (size : Nat) : DigitBuffer size := ⟨.replicate size '\x00', .last size⟩

/-- One more digit, in front of the others; `none` if every place is taken. -/
def put? (buffer : DigitBuffer size) (c : Char) : Option (DigitBuffer size) :=
  match buffer.start with
  | ⟨0, _⟩ => none
  | ⟨k + 1, h⟩ =>
    some ⟨buffer.places.set k c (Nat.lt_of_succ_lt_succ h), ⟨k, Nat.lt_of_succ_lt h⟩⟩

/-- The digits of a value, the last one first. -/
def fill? (buffer : DigitBuffer size) (value : UInt32) : Option (DigitBuffer size) :=
  if h : 0 < value then
    (buffer.put? (Text.digit (value % 36).toNat)).bind fun next => next.fill? (value / 36)
  else some buffer
termination_by value.toNat
decreasing_by exact Nat.div_lt_self (UInt32.lt_iff_toNat_lt.1 h) (by decide)

def taken (buffer : DigitBuffer size) : List Char := buffer.places.toList.drop buffer.start

end DigitBuffer

/-- A value in base 36, without leading zeros; `none` if seven places are not enough. -/
def base36? (value : UInt32) : Option (List Char) :=
  if value = 0 then some ['0'] else ((DigitBuffer.empty 7).fill? value).map DigitBuffer.taken

/-! ### Texts -/

/-- The hash of a text, printed in base 36.  Seven places are always enough. -/
def djb2 (text : String) : String :=
  let units := (Text.units text.toList).filter (· != 0x0d)
  String.ofList ((base36? (djb2Units units)).getD [])

theorem units_filter_return (cs : List Char) :
    (Text.units (cs.filter (· != '\r'))).filter (· != 0x0d)
      = (Text.units cs).filter (· != 0x0d) := by
  induction cs with
  | nil => rfl
  | cons c cs ih =>
    by_cases h : c = '\r'
    · subst h
      have hr : (Text.units ('\r' :: cs)).filter (· != 0x0d)
          = (Text.units cs).filter (· != 0x0d) := by
        simp [Text.units, Text.charUnits]
      simpa [hr] using ih
    · have hc : (c != '\r') = true := by simpa using h
      simp only [Text.units, List.filter_cons, hc, if_true, List.flatMap_cons,
        List.filter_append] at ih ⊢
      rw [ih]

/-- Carriage returns do not matter. -/
theorem djb2_filter (s : String) :
    djb2 (String.ofList (s.toList.filter (· != '\r'))) = djb2 s := by
  simp only [djb2, String.toList_ofList, units_filter_return]

end Hash

end CssRune
