/-
**Values in base 36.**

The digits of a value are put into the places of a buffer from the back, so the loop divides once
for each place that it takes.  With `k` places left it comes to an end if the value is below
`36 ^ k`, and what the places then hold are the digits of the value in front of those that were
there.  A value of 32 bits is below `36 ^ 7`, so seven places are always enough, and everything
about the digits follows from what they are.

Main results:

* `Hash.DigitBuffer.map_taken_fill?` — what the loop leaves, and when it runs out of places;
* `Hash.base36?_eq` — seven places are enough for every value;
* `Hash.base36_canonical` — **every value has its digits, and can be read back from them**.
-/

import CssRune.Hash.Djb2
import CssRune.Proofs.Text.Radix
import Mathlib.Algebra.Group.Nat.Defs

set_option autoImplicit false

namespace CssRune

namespace Hash

open Text

/-! ### The buffer -/

namespace DigitBuffer

variable {size : Nat} {buffer : DigitBuffer size}

theorem length_taken_le (buffer : DigitBuffer size) : buffer.taken.length ≤ size := by
  rw [taken, List.length_drop, Vector.length_toList]
  exact Nat.sub_le _ _

theorem taken_empty : (empty size).taken = [] := by
  rw [taken, List.drop_eq_nil_iff, Vector.length_toList]
  exact Nat.le_refl size

theorem put?_of_start_eq_zero (h : buffer.start.val = 0) (c : Char) : buffer.put? c = none := by
  obtain ⟨places, ⟨k, hk⟩⟩ := buffer
  obtain rfl : k = 0 := h
  rfl

/-- A digit takes the place in front of the others. -/
theorem exists_put? {k : Nat} (h : buffer.start.val = k + 1) (c : Char) :
    ∃ next, buffer.put? c = some next ∧ next.start.val = k ∧ next.taken = c :: buffer.taken := by
  obtain ⟨places, ⟨_, hk⟩⟩ := buffer
  subst h
  refine ⟨_, rfl, rfl, ?_⟩
  have hlt : k < (places.toList.set k c).length := by
    rw [List.length_set, Vector.length_toList]
    omega
  rw [taken, taken, Vector.toList_set, List.drop_eq_getElem_cons hlt, List.getElem_set_self,
    List.drop_set_of_lt (Nat.lt_succ_self k)]

/-- The loop puts the digits of a value in front of those that were there, and runs out of places
exactly if those that are left are not enough for it. -/
theorem map_taken_fill? (buffer : DigitBuffer size) (value : UInt32) :
    (buffer.fill? value).map taken =
      if value.toNat < 36 ^ buffer.start.val then
        some (digitsOnto 36 value.toNat buffer.taken)
      else none := by
  fun_induction fill? buffer value with
  | case1 buffer value hpos ih =>
    have hvalue : 0 < value.toNat := UInt32.lt_iff_toNat_lt.1 hpos
    rw [digitsOnto, dif_pos ⟨by decide, hvalue⟩]
    cases hstart : buffer.start.val with
    | zero =>
      rw [put?_of_start_eq_zero hstart, if_neg (by omega)]
      rfl
    | succ k =>
      obtain ⟨next, hput, hnext, htaken⟩ := exists_put? hstart (digit (value % 36).toNat)
      -- one place less is left, for a value that is 36 times smaller
      rw [hput, Option.bind_some, ih, hnext, htaken, UInt32.toNat_div, UInt32.toNat_mod,
        Nat.pow_succ]
      simp only [UInt32.reduceToNat, Nat.div_lt_iff_lt_mul (show 0 < 36 by decide)]
  | case2 buffer value hpos =>
    have hvalue : value.toNat = 0 :=
      Nat.eq_zero_of_not_pos fun h => hpos (UInt32.lt_iff_toNat_lt.2 h)
    rw [hvalue, if_pos (Nat.pow_pos (by decide)), digitsOnto, dif_neg (by decide)]
    rfl

end DigitBuffer

/-! ### Values -/

theorem base36?_eq (value : UInt32) : base36? value = some (inBase 36 value.toNat) := by
  have hlt : value.toNat < 36 ^ 7 := Nat.lt_trans value.toNat_lt (by decide)
  have hzero : value = 0 ↔ value.toNat = 0 := UInt32.toNat_inj.symm
  unfold base36? inBase
  simp only [hzero, DigitBuffer.map_taken_fill?, DigitBuffer.taken_empty]
  split
  · rfl
  · exact if_pos hlt

theorem djb2_eq (text : String) :
    djb2 text = String.ofList
      (inBase 36 (djb2Units ((units text.toList).filter (· != 0x0d))).toNat) := by
  rw [djb2, base36?_eq, Option.getD_some]

theorem length_le_of_base36? {value : UInt32} {digits : List Char}
    (h : base36? value = some digits) : digits.length ≤ 7 := by
  unfold base36? at h
  split at h
  · cases h
    decide
  · obtain ⟨buffer, -, rfl⟩ := Option.map_eq_some_iff.1 h
    exact buffer.length_taken_le

/-- **Every value has its digits, and can be read back from them**: seven places are enough for
them, they are one to seven of `0` to `9` and `a` to `z`, only zero starts with a zero, and no two
values have the same ones. -/
theorem base36_canonical :
    (∀ value : UInt32, ∃ digits, base36? value = some digits ∧
      1 ≤ digits.length ∧ digits.length ≤ 7 ∧
      (∀ c ∈ digits, '0' ≤ c ∧ c ≤ '9' ∨ 'a' ≤ c ∧ c ≤ 'z') ∧
      (digits.head? = some '0' ↔ digits = ['0']) ∧
      ofBase 36 digits = value.toNat) ∧
    ∀ a b : UInt32, base36? a = base36? b ↔ a = b := by
  constructor
  · intro value
    obtain ⟨c, cs, hdigits, hzero⟩ :=
      inBase_eq_cons (show 2 ≤ 36 by decide) (by decide) value.toNat
    refine ⟨_, base36?_eq value, ?_, length_le_of_base36? (base36?_eq value),
      forall_mem_inBase (by decide) (by decide) _, ?_,
      ofBase_inBase (by decide) (by decide) _⟩
    · rw [hdigits]
      exact Nat.le_add_left 1 cs.length
    · constructor
      · intro hhead
        rw [hdigits, List.head?_cons, Option.some_inj, hzero] at hhead
        rw [hhead, inBase_zero]
      · intro hsingle
        rw [hsingle, List.head?_cons]
  · intro a b
    rw [base36?_eq, base36?_eq, Option.some_inj, inBase_inj (by decide) (by decide),
      UInt32.toNat_inj]

/-- The largest value takes all seven places. -/
example : base36? 0xffffffff = some "1z141z3".toList ∧
    ((DigitBuffer.empty 6).fill? 0xffffffff).isNone := by
  decide +kernel

end Hash

end CssRune
