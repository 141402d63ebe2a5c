/-
**Paths.**

A path is a text of segments with slashes between them.  Empty segments and single dots say nothing,
except that a path may start with a slash or with a dot.

Main results:

* `Path.precedes_total`, `Path.precedes_trans` — the order is a total preorder.
-/

set_option autoImplicit false

namespace CssRune

/-- One step of a path. -/
inductive PathStep where
  /-- To the root; only as the first step. -/
  | root
  /-- To where one is; only as the first step. -/
  | current
  /-- To the directory above. -/
  | parent
  | name (name : String)
  deriving DecidableEq, Repr

namespace Path

/-! ### Segments and steps -/

/-- The segments of a path; an absolute path has an empty one in front. -/
def segments (path : String) : List String := (path.toList.splitOn '/').map String.ofList

/-- What a segment after the first one says. -/
def stepOf? (segment : String) : Option PathStep :=
  if segment = "" ∨ segment = "." then none
  else if segment = ".." then some .parent
  else some (.name segment)

/-- What the first segment says; `more` tells whether others follow. -/
def firstStep? (more : Bool) (segment : String) : Option PathStep :=
  if segment = "" then if more then some .root else none
  else if segment = "." then some .current
  else if segment = ".." then some .parent
  else some (.name segment)

/-- The steps of a path. -/
def steps (path : String) : List PathStep :=
  match segments path with
  | [] => []
  | s :: ss => (firstStep? (!ss.isEmpty) s).toList ++ ss.filterMap stepOf?

/-! ### Parents -/

/-- Segments up to the last one that says something. -/
def trimEnd (ss : List String) : List String :=
  (ss.reverse.dropWhile fun s => (stepOf? s).isNone).reverse

/-- The path without its last step, as it is written; the root and the empty path have none. -/
def parent? (path : String) : Option String :=
  match segments path with
  | [] => none
  | s :: ss =>
    match trimEnd ss with
    | [] => if s = "" then none else some ""
    | kept =>
      match trimEnd kept.dropLast with
      | [] => if s = "" then some "/" else some s
      | above => some ("/".intercalate (s :: above))

/-! ### Names -/

/-- A path with a name below it. -/
def child (path name : String) : String :=
  if path = "" ∨ path.toList.getLast? = some '/' then path ++ name else path ++ "/" ++ name

def join (path : String) (names : List String) : String := names.foldl child path

/-- A name without its extension, and the extension: what follows the last dot, if there is a dot
after the first character. -/
def splitExtension? (name : String) : Option (String × String) :=
  let reversed := name.toList.reverse
  match reversed.dropWhile (· ≠ '.') with
  | _ :: stem =>
    if stem.isEmpty ∨ name = ".." then none
    else some (String.ofList stem.reverse, String.ofList (reversed.takeWhile (· ≠ '.')).reverse)
  | [] => none

def extension? (name : String) : Option String := (splitExtension? name).map (·.2)

def withExtension (name extension : String) : String :=
  ((splitExtension? name).map (·.1)).getD name ++ "." ++ extension

/-! ### Order -/

/-- The kinds of steps in their order. -/
def rank : PathStep → Nat
  | .root => 0
  | .current => 1
  | .parent => 2
  | .name _ => 3

/-- The text that orders steps of one kind. -/
def label : PathStep → String
  | .name s => s
  | _ => ""

/-- Whether a step comes strictly before another one. -/
def stepBefore (a b : PathStep) : Bool :=
  rank a < rank b || (rank a == rank b && decide (label a < label b))

/-- The order of paths: by the first steps that differ, a path before what is below it. -/
def precedes : List PathStep → List PathStep → Bool
  | [], _ => true
  | _ :: _, [] => false
  | a :: as, b :: bs => stepBefore a b || (a == b && precedes as bs)

theorem eq_of_rank_label {a b : PathStep} (hr : rank a = rank b) (hl : label a = label b) :
    a = b := by
  cases a <;> cases b <;> simp_all [rank, label]

theorem stepBefore_total (a b : PathStep) :
    stepBefore a b = true ∨ a = b ∨ stepBefore b a = true := by
  rcases Nat.lt_trichotomy (rank a) (rank b) with h | h | h
  · exact Or.inl (by simp [stepBefore, h])
  · by_cases h₁ : label a < label b
    · exact Or.inl (by simp [stepBefore, h, h₁])
    · by_cases h₂ : label b < label a
      · exact Or.inr (Or.inr (by simp [stepBefore, h, h₂]))
      · have hl : label a = label b := String.le_antisymm (String.not_lt.1 h₂) (String.not_lt.1 h₁)
        exact Or.inr (Or.inl (eq_of_rank_label h hl))
  · exact Or.inr (Or.inr (by simp [stepBefore, h]))

theorem stepBefore_trans {a b c : PathStep} (hab : stepBefore a b = true)
    (hbc : stepBefore b c = true) : stepBefore a c = true := by
  simp only [stepBefore, Bool.or_eq_true, Bool.and_eq_true, decide_eq_true_eq, beq_iff_eq] at *
  rcases hab with hab | ⟨hab, lab⟩
  · rcases hbc with hbc | ⟨hbc, _⟩
    · exact Or.inl (by omega)
    · exact Or.inl (by omega)
  · rcases hbc with hbc | ⟨hbc, lbc⟩
    · exact Or.inl (by omega)
    · exact Or.inr ⟨by omega, String.lt_trans lab lbc⟩

/-- Of two paths one precedes the other. -/
theorem precedes_total (as bs : List PathStep) : precedes as bs = true ∨ precedes bs as = true := by
  induction as generalizing bs with
  | nil => exact Or.inl rfl
  | cons a as ih =>
    cases bs with
    | nil => exact Or.inr rfl
    | cons b bs =>
      rcases stepBefore_total a b with h | rfl | h
      · exact Or.inl (by simp [precedes, h])
      · rcases ih bs with h | h
        · exact Or.inl (by simp [precedes, h])
        · exact Or.inr (by simp [precedes, h])
      · exact Or.inr (by simp [precedes, h])

/-- The order of paths is transitive. -/
theorem precedes_trans {as bs cs : List PathStep} (hab : precedes as bs = true)
    (hbc : precedes bs cs = true) : precedes as cs = true := by
  induction as generalizing bs cs with
  | nil => rfl
  | cons a as ih =>
    cases bs with
    | nil => simp [precedes] at hab
    | cons b bs =>
      cases cs with
      | nil => simp [precedes] at hbc
      | cons c cs =>
        simp only [precedes, Bool.or_eq_true, Bool.and_eq_true, beq_iff_eq] at *
        rcases hab with hab | ⟨rfl, hab⟩
        · rcases hbc with hbc | ⟨rfl, _⟩
          · exact Or.inl (stepBefore_trans hab hbc)
          · exact Or.inl hab
        · rcases hbc with hbc | ⟨rfl, hbc⟩
          · exact Or.inl hbc
          · exact Or.inr ⟨rfl, ih hab hbc⟩

end Path

end CssRune
