/-
**Runs of selectors.**

Selectors that are escaped and follow one another directly share a wrapper.  The runs they form are
described here without the text of the wrappers, as the lists of selectors they are made of: taken
together they hold the escaped selectors in order, and each of them fills its range.

* `groups` — the runs of the chosen elements of a list, and `hull`, the range of one;
* `wrappedRuns_eq` — the wrappers are those of the runs;
* `flatten_groups` — the runs hold the chosen elements;
* `filled_of_mem_groups` — the elements of a run fill its range;
* `row_hull_groups` — runs of a row of elements are a row;
* `length_choices` — `k` mixed classes give `2 ^ k` choices.
-/

import CssRune.Proofs.Spans
import CssRune.Rune.Variants
import Mathlib.Algebra.Group.Nat.Defs

set_option autoImplicit false

namespace CssRune

section Groups

variable {α : Type} (span : α → Span)

/-! ### Runs -/

/-- The runs of the chosen elements; the first list is the run that is still growing, its last
element first. -/
def groupsFrom : List α → List (α × Bool) → List (List α)
  | [], [] => []
  | o :: os, [] => [(o :: os).reverse]
  | [], (_, false) :: rest => groupsFrom [] rest
  | o :: os, (_, false) :: rest => (o :: os).reverse :: groupsFrom [] rest
  | [], (a, true) :: rest => groupsFrom [a] rest
  | o :: os, (a, true) :: rest =>
    if (span o).stop = (span a).start then groupsFrom (a :: o :: os) rest
    else (o :: os).reverse :: groupsFrom [a] rest

/-- The runs of the chosen elements. -/
def groups (xs : List α) (chosen : List Bool) : List (List α) := groupsFrom span [] (xs.zip chosen)

/-- The range from the start of the first element to the end of the last one. -/
def hull (xs : List α) : Span :=
  ⟨(xs.head?.map fun a => (span a).start).getD 0, (xs.getLast?.map fun a => (span a).stop).getD 0⟩

variable {span}

theorem hull_reverse_stop (o : α) (os : List α) :
    (hull span (o :: os).reverse).stop = (span o).stop := by
  simp [hull]

theorem hull_reverse_cons (a o : α) (os : List α) :
    hull span (a :: o :: os).reverse = ⟨(hull span (o :: os).reverse).start, (span a).stop⟩ := by
  simp [hull]

/-! ### The wrappers of runs -/

/-- The run that a growing one stands for. -/
def openRun (span : α → Span) (hashed : α → String) : List α → Option OpenRun
  | [] => none
  | o :: os => some ⟨hull span (o :: os).reverse, (o :: os).map hashed⟩

/-- The wrapper of a run. -/
def groupRun (span : α → Span) (hashed : α → String) (suffix : String) (xs : List α) : Run :=
  ⟨hull span xs, wrapper (xs.map hashed) suffix⟩

variable {target : α → Target} {a : α} {os xs : List α} {chosen : List Bool} {lo hi : Nat}

theorem runsFrom_eq (hspan : ∀ a, (target a).span = span a) (suffix : String) (os : List α)
    (rest : List (α × Bool)) :
    runsFrom suffix (openRun span (fun a => (target a).hashed) os)
        (rest.map fun p => (target p.1, p.2)) =
      (groupsFrom span os rest).map (groupRun span (fun a => (target a).hashed) suffix) := by
  have hclose : ∀ o (os : List α), OpenRun.close suffix
      ⟨hull span (o :: os).reverse, (o :: os).map fun a => (target a).hashed⟩ =
        groupRun span (fun a => (target a).hashed) suffix (o :: os).reverse := by
    intro o os
    rw [OpenRun.close, groupRun, List.map_reverse]
  have hstart : ∀ a, openRun span (fun a => (target a).hashed) [a] =
      some ⟨(target a).span, [(target a).hashed]⟩ := by
    intro a
    rw [hspan]
    rfl
  fun_induction groupsFrom span os rest with
  | case1 => rfl
  | case2 o os => rw [List.map_nil, openRun, runsFrom, hclose]; rfl
  | case3 a rest ih => rw [List.map_cons, openRun, runsFrom]; exact ih
  | case4 o os a rest ih =>
    rw [List.map_cons, openRun, runsFrom, hclose, List.map_cons]
    exact congrArg _ ih
  | case5 a rest ih => rw [List.map_cons, openRun, runsFrom, ← hstart]; exact ih
  | case6 o os a rest hjoin ih =>
    rw [List.map_cons, openRun, runsFrom, hull_reverse_stop, hspan, if_pos hjoin]
    rw [openRun, hull_reverse_cons] at ih
    exact ih
  | case7 o os a rest hjoin ih =>
    rw [List.map_cons, openRun, runsFrom, hull_reverse_stop, hspan, if_neg hjoin, hclose,
      List.map_cons, ← hspan, ← hstart]
    exact congrArg _ ih

/-- **The wrappers are those of the runs.** -/
theorem wrappedRuns_eq (hspan : ∀ a, (target a).span = span a) (xs : List α) (chosen : List Bool)
    (suffix : String) :
    wrappedRuns (xs.map target) chosen suffix =
      (groups span xs chosen).map (groupRun span (fun a => (target a).hashed) suffix) := by
  have hzip : (xs.map target).zip chosen = (xs.zip chosen).map fun p => (target p.1, p.2) := by
    rw [List.zip_map_left]
    rfl
  rw [wrappedRuns, hzip]
  exact runsFrom_eq hspan suffix [] (xs.zip chosen)

/-! ### What runs hold -/

theorem flatten_groupsFrom (os : List α) (rest : List (α × Bool)) :
    (groupsFrom span os rest).flatten = os.reverse ++ (rest.filter Prod.snd).map Prod.fst := by
  fun_induction groupsFrom span os rest with
  | case1 => rfl
  | case2 o os => simp
  | case3 a rest ih => simpa using ih
  | case4 o os a rest ih => simpa using ih
  | case5 a rest ih => simpa using ih
  | case6 o os a rest _ ih => simpa using ih
  | case7 o os a rest _ ih => simpa using ih

/-- **The runs hold the chosen elements**, in order. -/
theorem flatten_groups (xs : List α) (chosen : List Bool) :
    (groups span xs chosen).flatten = ((xs.zip chosen).filter Prod.snd).map Prod.fst := by
  rw [groups, flatten_groupsFrom]
  rfl

/-! ### Where runs lie -/

/-- The elements fill the space from the start of the first to the end of the last one. -/
def Filled (span : α → Span) (xs : List α) : Prop :=
  Span.Chain (hull span xs).start (hull span xs).stop (xs.map span)

theorem filled_singleton (h : (span a).start < (span a).stop) : Filled span [a] :=
  ⟨rfl, h, rfl⟩

/-- An element that starts where the last one ends can be added. -/
theorem Filled.cons {o : α} (h : Filled span (o :: os).reverse)
    (hjoin : (span o).stop = (span a).start) (ha : (span a).start < (span a).stop) :
    Filled span (a :: o :: os).reverse := by
  have hlast : (a :: o :: os).reverse = (o :: os).reverse ++ [a] := List.reverse_cons
  rw [Filled, hull_reverse_cons, hlast, List.map_append]
  refine Span.Chain.append h ?_
  rw [hull_reverse_stop]
  exact ⟨hjoin.symm, ha, rfl⟩

theorem filled_of_mem_groupsFrom {rest : List (α × Bool)} (hos : Filled span os.reverse)
    (hne : ∀ p ∈ rest, (span p.1).start < (span p.1).stop) :
    ∀ g ∈ groupsFrom span os rest, g ≠ [] ∧ Filled span g := by
  fun_induction groupsFrom span os rest with
  | case1 => simp
  | case2 o os => exact List.forall_mem_singleton.2 ⟨by simp, hos⟩
  | case3 a rest ih => exact ih hos (List.forall_mem_cons.1 hne).2
  | case4 o os a rest ih =>
    exact List.forall_mem_cons.2 ⟨⟨by simp, hos⟩, ih rfl (List.forall_mem_cons.1 hne).2⟩
  | case5 a rest ih =>
    obtain ⟨ha, hrest⟩ := List.forall_mem_cons.1 hne
    exact ih (filled_singleton ha) hrest
  | case6 o os a rest hjoin ih =>
    obtain ⟨ha, hrest⟩ := List.forall_mem_cons.1 hne
    exact ih (hos.cons hjoin ha) hrest
  | case7 o os a rest _ ih =>
    obtain ⟨ha, hrest⟩ := List.forall_mem_cons.1 hne
    exact List.forall_mem_cons.2 ⟨⟨by simp, hos⟩, ih (filled_singleton ha) hrest⟩

/-- **The elements of a run fill its range.** -/
theorem filled_of_mem_groups (hne : ∀ a ∈ xs, (span a).start < (span a).stop) :
    ∀ g ∈ groups span xs chosen, g ≠ [] ∧ Filled span g :=
  filled_of_mem_groupsFrom rfl fun p hp => hne p.1 (List.of_mem_zip hp).1

/-- The ranges of lists that follow one another in a row are a row. -/
theorem row_hull {gs : List (List α)} (hne : ∀ g ∈ gs, g ≠ [])
    (h : Span.Row 0 lo hi (gs.flatten.map span)) : Span.Row 0 lo hi (gs.map (hull span)) := by
  induction gs generalizing lo with
  | nil => exact Span.Row.nil _ _ _
  | cons g gs ih =>
    obtain ⟨hg, hgs⟩ := List.forall_mem_cons.1 hne
    rw [List.flatten_cons, List.map_append] at h
    obtain ⟨first, more, rfl⟩ := List.exists_cons_of_ne_nil hg
    have hlast : (first :: more).getLast? = some ((first :: more).getLast hg) :=
      List.getLast?_eq_some_getLast hg
    have hmap : ((first :: more).map span).getLast? = some (span ((first :: more).getLast hg)) := by
      rw [List.getLast?_map, hlast]
      rfl
    have hhull : hull span (first :: more) =
        ⟨(span first).start, (span ((first :: more).getLast hg)).stop⟩ := by
      rw [hull, hlast]
      rfl
    have hfront := h.sublist (List.sublist_append_left _ (gs.flatten.map span))
    obtain ⟨hlo, hlt, hle⟩ :=
      (hfront.to_last hmap).inside (span first) (List.mem_map_of_mem List.mem_cons_self)
    have hhi := (hfront.inside _ (List.mem_of_getLast? hmap)).2.2
    have hback := (h.sublist (List.sublist_append_right _ _)).within fun s hs =>
      ⟨(List.pairwise_append.1 h.apart).2.2 _ (List.mem_of_getLast? hmap) s hs,
        (h.inside s (List.mem_append_right _ hs)).2.2⟩
    rw [List.map_cons, hhull]
    exact Span.Row.cons hlo (Nat.lt_of_lt_of_le hlt hle) hhi (ih hgs hback)

theorem sublist_chosen (xs : List α) (chosen : List Bool) :
    (((xs.zip chosen).filter Prod.snd).map Prod.fst).Sublist xs := by
  induction xs generalizing chosen with
  | nil => exact List.Sublist.refl []
  | cons a as ih =>
    cases chosen with
    | nil => exact List.nil_sublist _
    | cons b bs =>
      cases b with
      | false => exact (ih bs).cons a
      | true => exact (ih bs).cons_cons a

theorem sublist_flatten_groups (xs : List α) (chosen : List Bool) :
    (groups span xs chosen).flatten.Sublist xs :=
  flatten_groups xs chosen ▸ sublist_chosen xs chosen

theorem sublist_of_mem_groups {g : List α} (h : g ∈ groups span xs chosen) : g.Sublist xs :=
  (List.sublist_flatten_of_mem h).trans (sublist_flatten_groups xs chosen)

/-- **Runs of a row of elements are a row.** -/
theorem row_hull_groups (h : Span.Row 0 lo hi (xs.map span)) :
    Span.Row 0 lo hi ((groups span xs chosen).map (hull span)) := by
  refine row_hull (fun g hg => ?_) (h.sublist ((sublist_flatten_groups xs chosen).map span))
  have hne : ∀ a ∈ xs, (span a).start < (span a).stop := fun a ha =>
    (h.inside _ (List.mem_map_of_mem ha)).2.1
  exact (filled_of_mem_groups hne g hg).1

theorem flatten_groups_all (span : α → Span) (xs : List α) :
    (groups span xs (xs.map fun _ => true)).flatten = xs := by
  rw [flatten_groups]
  induction xs with
  | nil => rfl
  | cons a as ih => exact congrArg (a :: ·) ih

end Groups

/-! ### Choices -/

theorem mixedCount_cons_of_mixed {t : Target} (h : t.mixed = true) (targets : List Target) :
    mixedCount (t :: targets) = mixedCount targets + 1 := List.countP_cons_of_pos h

theorem mixedCount_cons_of_not_mixed {t : Target} (h : t.mixed = false) (targets : List Target) :
    mixedCount (t :: targets) = mixedCount targets := List.countP_cons_of_neg (by simp [h])

/-- `k` mixed classes give `2 ^ k` choices. -/
theorem length_choices (targets : List Target) :
    (choices targets).length = 2 ^ mixedCount targets := by
  induction targets with
  | nil => rfl
  | cons t targets ih =>
    rw [choices]
    cases hmixed : t.mixed with
    | true =>
      rw [if_pos rfl, List.length_append, List.length_map, List.length_map, ih,
        mixedCount_cons_of_mixed hmixed, Nat.pow_succ, Nat.mul_two]
    | false =>
      rw [if_neg Bool.false_ne_true, List.length_map, ih, mixedCount_cons_of_not_mixed hmixed]

end CssRune
