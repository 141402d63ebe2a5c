/-
**Digits read back.**

A number is written digit by digit from the last one on, by division with remainder; a list of
digits is read from the first one on.  Reading what was written gives the number back, so two
numbers are never written alike.

Main results:

* `Text.inBase_eq_cons` — only zero starts with a zero;
* `Text.foldl_digitsOnto` — digits put in front of others are read as their number;
* `Text.ofBase_inBase` — **a number that is written can be read back**;
* `Text.inBase_inj` — two numbers are not written alike.
-/

import CssRune.Text.Radix

set_option autoImplicit false

namespace CssRune

namespace Text

theorem digit_eq_zero_iff : ∀ d < 36, digit d = '0' ↔ d = 0 := by decide

theorem digitValue_digit : ∀ d < 36, digitValue (digit d) = d := by decide

section Bases

variable {base : Nat} {P : Char → Prop}

/-! ### The digits that are written -/

theorem forall_mem_digitsOnto (hP : ∀ d < 36, P (digit d)) (hbase : base ≤ 36) (n : Nat)
    {acc : List Char} (hacc : ∀ c ∈ acc, P c) : ∀ c ∈ digitsOnto base n acc, P c := by
  fun_induction digitsOnto base n acc with
  | case1 n acc h ih =>
    have hdigit : n % base < 36 := Nat.lt_of_lt_of_le (Nat.mod_lt n (by omega)) hbase
    exact ih (List.forall_mem_cons.2 ⟨hP _ hdigit, hacc⟩)
  | case2 => exact hacc

theorem forall_mem_inBase (hP : ∀ d < 36, P (digit d)) (hbase : base ≤ 36) (n : Nat) :
    ∀ c ∈ inBase base n, P c := by
  unfold inBase
  split
  · exact List.forall_mem_singleton.2 (hP 0 (by decide))
  · exact forall_mem_digitsOnto hP hbase n (by simp)

/-- The first digit of a positive number is not zero. -/
theorem digitsOnto_eq_cons (hbase : 2 ≤ base) {n : Nat} (hn : 0 < n) (acc : List Char) :
    ∃ d cs, 0 < d ∧ d < base ∧ digitsOnto base n acc = digit d :: cs := by
  fun_induction digitsOnto base n acc with
  | case1 n acc h ih =>
    by_cases hlast : n < base
    · -- the last digit that is written is the number that is left
      refine ⟨n, acc, hn, hlast, ?_⟩
      rw [Nat.div_eq_of_lt hlast, Nat.mod_eq_of_lt hlast, digitsOnto, dif_neg (by omega)]
    · exact ih (Nat.div_pos (by omega) (by omega))
  | case2 n acc h => exact absurd ⟨hbase, hn⟩ h

theorem inBase_eq_cons (hbase : 2 ≤ base) (h : base ≤ 36) (n : Nat) :
    ∃ c cs, inBase base n = c :: cs ∧ (c = '0' ↔ n = 0) := by
  unfold inBase
  split
  · rename_i hn
    exact ⟨'0', [], rfl, by simp [hn]⟩
  · rename_i hn
    obtain ⟨d, cs, hpos, hd, hdigits⟩ := digitsOnto_eq_cons hbase (Nat.pos_of_ne_zero hn) []
    refine ⟨digit d, cs, hdigits, ?_⟩
    rw [digit_eq_zero_iff d (by omega)]
    omega

/-! ### The number they stand for -/

/-- Digits put in front of others are read as their number. -/
theorem foldl_digitsOnto (h : base ≤ 36) (n : Nat) (hbase : 2 ≤ base) (acc : List Char) :
    (digitsOnto base n acc).foldl (fun n c => n * base + digitValue c) 0
      = acc.foldl (fun n c => n * base + digitValue c) n := by
  fun_induction digitsOnto base n acc with
  | case1 n acc hn ih =>
    have hdigit : n % base < 36 := Nat.lt_of_lt_of_le (Nat.mod_lt n (by omega)) h
    rw [ih, List.foldl_cons, digitValue_digit _ hdigit, Nat.mul_comm, Nat.div_add_mod]
  | case2 n acc hn =>
    obtain rfl : n = 0 := by omega
    rfl

/-- **A number that is written can be read back.** -/
theorem ofBase_inBase (hbase : 2 ≤ base) (h : base ≤ 36) (n : Nat) :
    ofBase base (inBase base n) = n := by
  unfold inBase
  split
  · rename_i hn
    rw [hn]
    exact Nat.zero_mul base
  · exact foldl_digitsOnto h n hbase []

theorem inBase_inj (hbase : 2 ≤ base) (h : base ≤ 36) {m n : Nat} :
    inBase base m = inBase base n ↔ m = n := by
  constructor
  · intro hmn
    rw [← ofBase_inBase hbase h m, hmn, ofBase_inBase hbase h n]
  · rintro rfl
    rfl

end Bases

end Text

end CssRune
