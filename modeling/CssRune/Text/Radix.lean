/-
**Numbers written in a base up to 36.**

Main results:

* `Text.inBase_zero` — zero is written as one digit.
-/

set_option autoImplicit false

namespace CssRune

namespace Text

/-- The character of a digit below 36. -/
def digit (d : Nat) : Char := if d < 10 then Char.ofNat (48 + d) else Char.ofNat (87 + d)

def digitValue (c : Char) : Nat := if c.toNat < 58 then c.toNat - 48 else c.toNat - 87

/-- The digits of a positive number, put in front of `acc`. -/
def digitsOnto (base : Nat) (n : Nat) (acc : List Char) : List Char :=
  if _h : 2 ≤ base ∧ 0 < n then digitsOnto base (n / base) (digit (n % base) :: acc) else acc
termination_by n
decreasing_by exact Nat.div_lt_self _h.2 _h.1

/-- A number in the given base, most significant digit first, without leading zeros. -/
def inBase (base n : Nat) : List Char := if n = 0 then ['0'] else digitsOnto base n []

/-- The number a list of digits stands for. -/
def ofBase (base : Nat) (cs : List Char) : Nat :=
  cs.foldl (fun n c => n * base + digitValue c) 0

/-- Digits filled up with zeros on the left. -/
def padded (width : Nat) (cs : List Char) : List Char :=
  List.replicate (width - cs.length) '0' ++ cs

@[simp] theorem inBase_zero (base : Nat) : inBase base 0 = ['0'] := rfl

end Text

end CssRune
