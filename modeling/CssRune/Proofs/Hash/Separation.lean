/-
**Texts that the rolling hash tells apart.**

A step takes the value so far from itself shifted by five bits and exclusive-ors the unit, and that
is the value so far times 31, modulo `2 ^ 32`, exclusive or the unit.  As 31 is odd it has an
inverse, so a step loses nothing: neither of the value so far nor of the unit.  Two texts that
differ in one unit only are therefore at different values after that unit, and every unit that
follows keeps them apart.  The printed hash keeps them apart too, because a number can be read back
from its digits.

Main results:

* `Hash.djb2Step_eq` — a step is a multiplication by 31;
* `Hash.djb2Units_inj` — a change of one unit changes the 32 bits;
* `Hash.djb2_tells_apart` — **a change of one character changes the hash**, and carriage returns do
  not matter.
-/

import CssRune.Proofs.Hash.Base36

set_option autoImplicit false

namespace CssRune

namespace Hash

/-! ### Steps -/

theorem shiftLeft_five (hash : Int32) : hash <<< 5 = hash * 32 := by
  apply Int32.toBitVec.inj
  rw [Int32.toBitVec_shiftLeft, Int32.toBitVec_mul]
  exact BitVec.shiftLeft_eq_mul_twoPow hash.toBitVec 5

/-- A step is a multiplication by 31 and an exclusive or. -/
theorem djb2Step_eq (unit : UInt16) (hash : Int32) :
    djb2Step unit hash = hash * 31 ^^^ unit.toUInt32.toInt32 := by
  have hdifference : hash * 32 - hash = hash * 31 := by grind
  rw [djb2Step, Int64.toInt32_sub, Int32.toInt32_toInt64, Int32.toInt32_toInt64, shiftLeft_five,
    hdifference]

theorem mul_31_inj {a b : Int32} : a * 31 = b * 31 ↔ a = b := by
  have hinverse (x : Int32) : x * 31 * -1108378657 = x := by
    rw [Int32.mul_assoc]
    exact Int32.mul_one x
  constructor
  · intro h
    rw [← hinverse a, h, hinverse b]
  · rintro rfl
    rfl

theorem djb2Step_inj {unit : UInt16} {a b : Int32} :
    djb2Step unit a = djb2Step unit b ↔ a = b := by
  rw [djb2Step_eq, djb2Step_eq, Int32.xor_left_inj, mul_31_inj]

theorem djb2Step_unit_inj {u v : UInt16} {hash : Int32} :
    djb2Step u hash = djb2Step v hash ↔ u = v := by
  rw [djb2Step_eq, djb2Step_eq, Int32.xor_right_inj]
  exact ⟨fun h => UInt16.toUInt32_inj.1 (congrArg Int32.toUInt32 h), fun h => h ▸ rfl⟩

theorem foldr_djb2Step_inj {units : List UInt16} {a b : Int32} :
    units.foldr djb2Step a = units.foldr djb2Step b ↔ a = b := by
  induction units with
  | nil => exact Iff.rfl
  | cons unit units ih => rw [List.foldr_cons, List.foldr_cons, djb2Step_inj, ih]

theorem djb2Units_inj {front back : List UInt16} {u v : UInt16} :
    djb2Units (front ++ u :: back) = djb2Units (front ++ v :: back) ↔ u = v := by
  have hbits {a b : Int32} : a.toUInt32 = b.toUInt32 ↔ a = b :=
    ⟨congrArg UInt32.toInt32, congrArg Int32.toUInt32⟩
  rw [djb2Units, djb2Units, hbits, List.foldr_append, List.foldr_append, foldr_djb2Step_inj,
    List.foldr_cons, List.foldr_cons, djb2Step_unit_inj]

/-! ### Texts -/

theorem djb2_inj {a b : String} :
    djb2 a = djb2 b ↔ djb2Units ((Text.units a.toList).filter (· != 0x0d))
      = djb2Units ((Text.units b.toList).filter (· != 0x0d)) := by
  rw [djb2_eq, djb2_eq, String.ofList_inj, Text.inBase_inj (by decide) (by decide),
    UInt32.toNat_inj]

theorem toUInt16_inj {c d : Char} (hc : c.toNat < 0x10000) (hd : d.toNat < 0x10000) :
    c.toNat.toUInt16 = d.toNat.toUInt16 ↔ c = d := by
  rw [← UInt16.toNat_inj, Nat.toUInt16_eq, Nat.toUInt16_eq, UInt16.toNat_ofNat_of_lt' hc,
    UInt16.toNat_ofNat_of_lt' hd, Char.toNat_inj]

/-- The units of a text with a character of the basic multilingual plane in the middle. -/
theorem filter_units_push {c : Char} (hc : c.toNat < 0x10000) (hreturn : c ≠ '\r')
    (front back : String) :
    (Text.units (front.push c ++ back).toList).filter (· != 0x0d) =
      (Text.units front.toList).filter (· != 0x0d) ++ c.toNat.toUInt16 ::
        (Text.units back.toList).filter (· != 0x0d) := by
  have hunit : (c.toNat.toUInt16 != 0x0d) = true :=
    bne_iff_ne.2 fun h => hreturn ((toUInt16_inj hc (by decide)).1 h)
  have hunits : (Text.units [c]).filter (· != 0x0d) = [c.toNat.toUInt16] := by
    simp only [Text.units, Text.charUnits, List.flatMap_singleton, if_pos hc, List.filter_cons,
      hunit, if_true, List.filter_nil]
  rw [String.toList_append, String.toList_push, Text.units_append, Text.units_append,
    List.filter_append, List.filter_append, hunits, List.append_assoc]
  rfl

/-- **A change of one character changes the hash**, if both characters are of the basic multilingual
plane and neither is a carriage return; carriage returns do not matter. -/
theorem djb2_tells_apart :
    (∀ (front back : String) (c d : Char), c.toNat < 0x10000 → d.toNat < 0x10000 → c ≠ '\r' →
      d ≠ '\r' → c ≠ d → djb2 (front.push c ++ back) ≠ djb2 (front.push d ++ back)) ∧
    ∀ text : String, djb2 text = djb2 (String.ofList (text.toList.filter (· != '\r'))) := by
  refine ⟨?_, fun text => (djb2_filter text).symm⟩
  intro front back c d hc hd hcreturn hdreturn hne hhash
  rw [djb2_inj, filter_units_push hc hcreturn, filter_units_push hd hdreturn, djb2Units_inj,
    toUInt16_inj hc hd] at hhash
  exact hne hhash

/-- Two names of one letter in a text with line endings of either kind. -/
theorem djb2_tells_apart_letters :
    djb2 ("App.svelte\r\n.".push 'a' ++ "{}\r\n") ≠ djb2 ("App.svelte\r\n.".push 'é' ++ "{}\r\n") ∧
      djb2 "a\r\nb" = djb2 "a\nb" :=
  ⟨djb2_tells_apart.1 _ _ _ _ (by decide) (by decide) (by decide) (by decide) (by decide),
    djb2_tells_apart.2 "a\r\nb"⟩

end Hash

end CssRune
