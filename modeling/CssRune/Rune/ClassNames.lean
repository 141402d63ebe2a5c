/-
**Hashed class names.**

Main results:

* `ClassNames.get?_add` — what is known after a name is added.
-/

import CssRune.Lists

set_option autoImplicit false

namespace CssRune

def hashedName (hash name : String) : String := name ++ "-" ++ hash

/-- Class names with their hashed names, in the order of the names. -/
structure ClassNames where
  entries : List (String × String)
  deriving DecidableEq, Repr

namespace ClassNames

def empty : ClassNames := ⟨[]⟩

def get? (names : ClassNames) (name : String) : Option String := names.entries.lookup name

/-- Gives a name its hashed name, unless it has one. -/
def add (names : ClassNames) (name hashed : String) : ClassNames :=
  if (names.get? name).isSome then names
  else ⟨insertBy (fun a b => decide (a.1 ≤ b.1)) (name, hashed) names.entries⟩

/-- The names with the given hashed names, the first of a name counting. -/
def ofList (entries : List (String × String)) : ClassNames :=
  entries.foldl (fun names e => names.add e.1 e.2) empty

/-- After a name is added it has a hashed name, and all else is as before. -/
theorem get?_add (names : ClassNames) (name hashed other : String) :
    (names.add name hashed).get? other =
      if other = name then some ((names.get? name).getD hashed) else names.get? other := by
  rw [add]
  cases hg : names.get? name with
  | some value =>
    by_cases ho : other = name
    · simp [ho, hg]
    · simp [ho]
  | none =>
    by_cases ho : other = name
    · subst ho
      simp [get?, lookup_insertBy_self hg]
    · simp [get?, lookup_insertBy_of_ne ho, ho]

end ClassNames

end CssRune
