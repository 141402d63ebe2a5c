/-
**Lists in order, and lists of keys with values.**

Main results:

* `lookup_insertBy_self`, `lookup_insertBy_of_ne` — what a list holds after a key was put into it;
* `lookup_filter_ne` — what it holds of the others after a key was taken out.
-/

set_option autoImplicit false

namespace CssRune

section Order

variable {α : Type}

/-- Puts an element in front of the first one it precedes. -/
def insertBy (precedes : α → α → Bool) (a : α) : List α → List α
  | [] => [a]
  | b :: bs => if precedes a b then a :: b :: bs else b :: insertBy precedes a bs

/-- Sorts a list, keeping the order of elements that precede each other. -/
def sortBy (precedes : α → α → Bool) : List α → List α
  | [] => []
  | a :: as => insertBy precedes a (sortBy precedes as)

end Order

/-! ### Keys -/

section Keys

variable {κ ν : Type} [BEq κ] [LawfulBEq κ] {key other : κ} {value : ν}

theorem lookup_cons_of_ne {e : κ × ν} (h : other ≠ e.1) (l : List (κ × ν)) :
    (e :: l).lookup other = l.lookup other := by
  rw [List.lookup_cons, beq_false_of_ne h]

/-- After a key was put into a list without it, the list holds its value. -/
theorem lookup_insertBy_self {precedes : κ × ν → κ × ν → Bool} {l : List (κ × ν)}
    (h : l.lookup key = none) : (insertBy precedes (key, value) l).lookup key = some value := by
  induction l with
  | nil => exact List.lookup_cons_self
  | cons e es ih =>
    have he : key ≠ e.1 := by
      rintro rfl
      cases List.lookup_cons_self.symm.trans h
    rw [lookup_cons_of_ne he] at h
    rw [insertBy]
    split
    · exact List.lookup_cons_self
    · rw [lookup_cons_of_ne he, ih h]

/-- Putting a key into a list changes nothing for the others. -/
theorem lookup_insertBy_of_ne {precedes : κ × ν → κ × ν → Bool} (h : other ≠ key)
    (l : List (κ × ν)) : (insertBy precedes (key, value) l).lookup other = l.lookup other := by
  induction l with
  | nil => exact lookup_cons_of_ne h []
  | cons e es ih =>
    rw [insertBy]
    split
    · exact lookup_cons_of_ne h _
    · rw [List.lookup_cons, ih, List.lookup_cons]

/-- Taking a key out of a list changes nothing for the others. -/
theorem lookup_filter_ne (h : other ≠ key) (l : List (κ × ν)) :
    (l.filter fun e => e.1 != key).lookup other = l.lookup other := by
  induction l with
  | nil => rfl
  | cons e es ih =>
    by_cases he : e.1 = key
    · rw [List.filter_cons_of_neg (by simp [he]), ih, lookup_cons_of_ne (he ▸ h)]
    · rw [List.filter_cons_of_pos (by simp [he]), List.lookup_cons, ih, List.lookup_cons]

end Keys

end CssRune
