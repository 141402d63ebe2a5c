/-
**Class names with the place of their last reference.**

Main results:

* `ClassSet.get?_insert` — what a set knows after a reference is recorded.
-/

import CssRune.Lists
import CssRune.Span

set_option autoImplicit false

namespace CssRune

/-- Class names, each with the range it was last referenced at. -/
structure ClassSet where
  entries : List (String × Span)
  deriving DecidableEq, Repr

namespace ClassSet

def empty : ClassSet := ⟨[]⟩

def get? (s : ClassSet) (name : String) : Option Span := s.entries.lookup name

def contains (s : ClassSet) (name : String) : Bool := (s.get? name).isSome

/-- Records a reference; a later one replaces an earlier one. -/
def insert (s : ClassSet) (name : String) (span : Span) : ClassSet :=
  ⟨(name, span) :: s.entries.filter (fun e => e.1 != name)⟩

def insertAll (s : ClassSet) (references : List (String × Span)) : ClassSet :=
  references.foldl (fun s r => s.insert r.1 r.2) s

def size (s : ClassSet) : Nat := s.entries.length

def isEmpty (s : ClassSet) : Bool := s.entries.isEmpty

/-- The order by position, then name. -/
def precedes (a b : String × Span) : Bool :=
  a.2.start < b.2.start || (a.2.start == b.2.start && a.1 ≤ b.1)

def sorted (s : ClassSet) : List (String × Span) := sortBy precedes s.entries

/-- A set without names holds none. -/
theorem contains_of_isEmpty {s : ClassSet} (h : s.isEmpty = true) (name : String) :
    s.contains name = false := by
  rw [contains, get?, List.isEmpty_iff.1 h]
  rfl

/-- After a reference is recorded the set knows its range, and all else as before. -/
theorem get?_insert (s : ClassSet) (name other : String) (span : Span) :
    (s.insert name span).get? other = if other = name then some span else s.get? other := by
  by_cases h : other = name
  · subst h
    simp [get?, insert]
  · have hb : (other == name) = false := by simpa using h
    simp [get?, insert, List.lookup_cons, hb, h, lookup_filter_ne h]

end ClassSet

end CssRune
