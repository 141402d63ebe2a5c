/-
**Sorted lists.**

Sorting is insertion sort, so that what is known of it holds here.

Main results:

* `sortBy_perm` — sorting only reorders;
* `sortBy_pairwise` — the result is in order.
-/

import CssRune.Lists
import Mathlib.Data.List.Sort

set_option autoImplicit false

namespace CssRune

variable {α : Type} {precedes : α → α → Bool}

theorem insertBy_eq_orderedInsert (a : α) (l : List α) :
    insertBy precedes a l = l.orderedInsert (precedes · · = true) a := by
  induction l with
  | nil => rfl
  | cons b bs ih => rw [insertBy, List.orderedInsert_cons, ih]

theorem sortBy_eq_insertionSort (l : List α) :
    sortBy precedes l = l.insertionSort (precedes · · = true) := by
  induction l with
  | nil => rfl
  | cons a as ih => rw [sortBy, ih, insertBy_eq_orderedInsert, List.insertionSort_cons]

/-- Sorting only reorders. -/
theorem sortBy_perm (precedes : α → α → Bool) (l : List α) : (sortBy precedes l).Perm l := by
  rw [sortBy_eq_insertionSort]
  exact List.perm_insertionSort _ l

/-- The result of sorting is in order. -/
theorem sortBy_pairwise (total : ∀ a b, precedes a b = true ∨ precedes b a = true)
    (trans : ∀ a b c, precedes a b = true → precedes b c = true → precedes a c = true)
    (l : List α) : (sortBy precedes l).Pairwise fun x y => precedes x y = true := by
  have htotal : Std.Total fun a b => precedes a b = true := ⟨total⟩
  have htrans : IsTrans α fun a b => precedes a b = true := ⟨trans⟩
  rw [sortBy_eq_insertionSort]
  exact List.pairwise_insertionSort _ l

end CssRune
