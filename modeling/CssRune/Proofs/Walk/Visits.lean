/-
**The visits of a walk.**

A walk that leaves nothing out comes to every site of a tree.  Sites are told apart by the way down
to them: a list of numbers, each the place of a site among those directly below the one before it.
Pre-order is then the lexicographic order of these ways, in which a way comes before all that go on
from it, and one site is above another if its way is a part of the way to the other.

Main results:

* `Site.pairwise_before_visits` — **visits come in pre-order**, so none comes twice;
* `Site.exists_visit_iff` — **every site is visited, and nothing else**;
* `Site.handed_of_mem_visits` — **the state of every visit is handed down to it**.
-/

import CssRune.Proofs.Walk.Sites

set_option autoImplicit false

namespace CssRune

/-- The site at the end of a way down. -/
def Site.at? : Site → List Nat → Option Site
  | site, [] => some site
  | site, i :: path => site.children[i]?.bind fun c => c.at? path

/-- A site as it comes in a walk: the way down to it and the state it is shown with. -/
structure Visit (σ : Type) where
  path : List Nat
  site : Site
  state : σ

namespace Visit

variable {σ : Type}

/-- The visit seen from one site further up, where the way starts with `i`. -/
def under (i : Nat) (v : Visit σ) : Visit σ := { v with path := i :: v.path }

/-- What a log says about a visit. -/
def event (v : Visit σ) : WalkEvent σ := ⟨v.site, v.state⟩

/-- Whether the second visit is somewhere below the first. -/
def isAbove (u v : Visit σ) : Bool :=
  u.path.isPrefixOf v.path && u.path.length < v.path.length

/-- The way to the first visit comes before that to the second. -/
def Before (u v : Visit σ) : Prop := List.Lex (· < ·) u.path v.path

/-- Puts the visits below one site together. -/
def nest : Nat → List (List (Visit σ)) → List (Visit σ)
  | _, [] => []
  | i, vs :: rest => vs.map (under i) ++ nest (i + 1) rest

theorem isAbove_under (u v : Visit σ) (i j : Nat) :
    (u.under i).isAbove (v.under j) = (i == j && u.isAbove v) := by
  simp only [isAbove, under, List.isPrefixOf_cons_cons, List.length_cons, Nat.add_lt_add_iff_right,
    Bool.and_assoc]

/-- The state of a visit is what the nearest logged site above it passed down, or the state at the
start if no site above it is logged. -/
inductive Handed (rules : LogRules σ) (s : σ) (visits : List (Visit σ)) (v : Visit σ) : Prop where
  | passed (u : Visit σ) (mem : u ∈ visits) (above : u.isAbove v) (logged : rules.logs u.site.kind)
      (state : v.state = rules.pass u.state u.site)
      (nearest : ∀ w ∈ visits, w.isAbove v → rules.logs w.site.kind → ¬u.isAbove w)
  | start (state : v.state = s)
      (none_logged : ∀ u ∈ visits, u.isAbove v → ¬rules.logs u.site.kind)

theorem mem_nest {i : Nat} {vss : List (List (Visit σ))} {v : Visit σ} :
    v ∈ nest i vss ↔ ∃ (j : Nat) (vs : List (Visit σ)),
      vss[j]? = some vs ∧ ∃ u ∈ vs, v = u.under (i + j) := by
  induction vss generalizing i with
  | nil => simp [nest]
  | cons vs rest ih =>
    rw [nest, List.mem_append, List.mem_map, ih]
    constructor
    · rintro (⟨u, hu, rfl⟩ | ⟨j, vs', hvs', u, hu, rfl⟩)
      · exact ⟨0, vs, List.getElem?_cons_zero, u, hu, rfl⟩
      · refine ⟨j + 1, vs', ?_, u, hu, by rw [Nat.add_assoc, Nat.add_comm 1 j]⟩
        rw [List.getElem?_cons_succ, hvs']
    · rintro ⟨j, vs', hvs', u, hu, rfl⟩
      cases j with
      | zero =>
        rw [List.getElem?_cons_zero, Option.some_inj] at hvs'
        subst hvs'
        exact .inl ⟨u, hu, rfl⟩
      | succ j =>
        rw [List.getElem?_cons_succ] at hvs'
        exact .inr ⟨j, vs', hvs', u, hu, by rw [Nat.add_assoc, Nat.add_comm 1 j]⟩

/-- Visits that are in order stay so when they are put together. -/
theorem pairwise_before_nest {vss : List (List (Visit σ))}
    (h : ∀ vs ∈ vss, vs.Pairwise Before) (i : Nat) : (nest i vss).Pairwise Before := by
  induction vss generalizing i with
  | nil => exact List.Pairwise.nil
  | cons vs rest ih =>
    rw [nest, List.pairwise_append, List.pairwise_map]
    refine ⟨(h vs List.mem_cons_self).imp fun huv => List.Lex.cons huv,
      ih (fun vs' hvs' => h vs' (List.mem_cons_of_mem vs hvs')) (i + 1), ?_⟩
    intro u hu v hv
    obtain ⟨u', _, rfl⟩ := List.mem_map.1 hu
    obtain ⟨j, _, _, v', _, rfl⟩ := mem_nest.1 hv
    exact List.Lex.rel (by omega)

end Visit

namespace Site

variable {σ : Type} (rules : LogRules σ)

/-- All visits of a walk that leaves nothing out. -/
def visits (s : σ) (site : Site) : List (Visit σ) :=
  ⟨[], site, s⟩ ::
    Visit.nest 0 (site.children.attach.map fun c => visits (rules.down s site) c.val)
termination_by sizeOf site
decreasing_by exact sizeOf_lt_of_mem_children c.property

theorem visits_eq (s : σ) (site : Site) :
    site.visits rules s =
      ⟨[], site, s⟩ :: Visit.nest 0 (site.children.map (visits rules (rules.down s site))) := by
  rw [visits, List.attach_map_val]

/-- A visit is that of the site itself or comes from a visit below one of its children. -/
theorem mem_visits {s : σ} {site : Site} {v : Visit σ} :
    v ∈ site.visits rules s ↔ v = ⟨[], site, s⟩ ∨
      ∃ (i : Nat) (c : Site), site.children[i]? = some c ∧
        ∃ u ∈ c.visits rules (rules.down s site), v = u.under i := by
  rw [visits_eq, List.mem_cons, Visit.mem_nest]
  refine or_congr_right ⟨?_, ?_⟩
  · rintro ⟨i, vs, hvs, u, hu, rfl⟩
    rw [List.getElem?_map] at hvs
    obtain ⟨c, hc, rfl⟩ := Option.map_eq_some_iff.1 hvs
    exact ⟨i, c, hc, u, hu, by rw [Nat.zero_add]⟩
  · rintro ⟨i, c, hc, u, hu, rfl⟩
    refine ⟨i, _, ?_, u, hu, by rw [Nat.zero_add]⟩
    rw [List.getElem?_map, hc]
    rfl

/-- **Visits come in pre-order.** -/
theorem pairwise_before_visits (site : Site) (s : σ) :
    (site.visits rules s).Pairwise Visit.Before := by
  induction site using Site.induction generalizing s with
  | step site ih =>
    rw [visits_eq, List.pairwise_cons]
    constructor
    · intro v hv
      obtain ⟨i, _, _, u, _, rfl⟩ := Visit.mem_nest.1 hv
      exact List.Lex.nil
    · refine Visit.pairwise_before_nest (fun vs hvs => ?_) 0
      obtain ⟨c, hc, rfl⟩ := List.mem_map.1 hvs
      exact ih c hc _

/-- **Every site is visited, and nothing else.** -/
theorem exists_visit_iff (s : σ) (site : Site) (path : List Nat) (x : Site) :
    (∃ v ∈ site.visits rules s, v.path = path ∧ v.site = x) ↔ site.at? path = some x := by
  induction path generalizing s site with
  | nil =>
    rw [at?, Option.some_inj]
    constructor
    · rintro ⟨v, hv, hpath, rfl⟩
      rcases (mem_visits rules).1 hv with rfl | ⟨i, c, _, u, _, rfl⟩
      · rfl
      · cases hpath
    · rintro rfl
      exact ⟨_, (mem_visits rules).2 (.inl rfl), rfl, rfl⟩
  | cons i path ih =>
    rw [at?, Option.bind_eq_some_iff]
    constructor
    · rintro ⟨v, hv, hpath, rfl⟩
      rcases (mem_visits rules).1 hv with rfl | ⟨j, c, hc, u, hu, rfl⟩
      · cases hpath
      · cases hpath
        exact ⟨c, hc, (ih _ c).1 ⟨u, hu, rfl, rfl⟩⟩
    · rintro ⟨c, hc, hat⟩
      obtain ⟨u, hu, rfl, rfl⟩ := (ih (rules.down s site) c).2 hat
      exact ⟨u.under i, (mem_visits rules).2 (.inr ⟨i, c, hc, u, hu, rfl⟩), rfl, rfl⟩

section Above

variable {rules} {s : σ} {site c : Site} {i : Nat} {u v : Visit σ}

/-- Above a visit below a child are the visit of the site itself and those below the same child. -/
theorem above_under (hc : site.children[i]? = some c) (hu : u ∈ site.visits rules s)
    (h : u.isAbove (v.under i)) : u = ⟨[], site, s⟩ ∨
      ∃ w ∈ c.visits rules (rules.down s site), u = w.under i ∧ w.isAbove v := by
  rcases (mem_visits rules).1 hu with rfl | ⟨j, c', hc', w, hw, rfl⟩
  · exact .inl rfl
  · rw [Visit.isAbove_under, Bool.and_eq_true, beq_iff_eq] at h
    obtain ⟨rfl, habove⟩ := h
    cases hc.symm.trans hc'
    exact .inr ⟨w, hw, rfl, habove⟩

theorem not_isAbove_root (u : Visit σ) (site : Site) (s : σ) :
    ¬u.isAbove ⟨[], site, s⟩ := by
  cases hpath : u.path <;> simp [Visit.isAbove, hpath]

theorem root_isAbove_under (v : Visit σ) (i : Nat) (site : Site) (s : σ) :
    Visit.isAbove ⟨[], site, s⟩ (v.under i) := by
  simp [Visit.isAbove, Visit.under]

end Above

/-- **The state of every visit is handed down to it.** -/
theorem handed_of_mem_visits {s : σ} {site : Site} {v : Visit σ} (h : v ∈ site.visits rules s) :
    v.Handed rules s (site.visits rules s) := by
  induction hpath : v.path generalizing s site v with
  | nil =>
    rcases (mem_visits rules).1 h with rfl | ⟨i, c, _, u, _, rfl⟩
    · exact .start rfl fun u _ hu => absurd hu (not_isAbove_root u site s)
    · cases hpath
  | cons i path ih =>
    rcases (mem_visits rules).1 h with rfl | ⟨j, c, hc, v, hv, rfl⟩
    · cases hpath
    cases hpath
    have hroot : (⟨[], site, s⟩ : Visit σ) ∈ site.visits rules s :=
      (mem_visits rules).2 (.inl rfl)
    have hin : ∀ w ∈ c.visits rules (rules.down s site), w.under i ∈ site.visits rules s :=
      fun w hw => (mem_visits rules).2 (.inr ⟨i, c, hc, w, hw, rfl⟩)
    cases ih hv rfl with
    | passed u mem above logged state nearest =>
      refine .passed (u.under i) (hin u mem) ?_ logged state fun w hw hwv hlogged huw => ?_
      · rw [Visit.isAbove_under, above, beq_self_eq_true, Bool.true_and]
      · rcases above_under hc hw hwv with rfl | ⟨w, hw', rfl, hwv'⟩
        · exact not_isAbove_root _ _ _ huw
        · rw [Visit.isAbove_under, beq_self_eq_true, Bool.true_and] at huw
          exact nearest w hw' hwv' hlogged huw
    | start state none_logged =>
      -- nothing below the site is logged on the way, so its own state or what it passes counts
      by_cases hlogs : rules.logs site.kind
      · refine .passed _ hroot (root_isAbove_under v i site s) hlogs ?_ ?_
        · rw [LogRules.down, if_pos hlogs] at state
          exact state
        · intro w hw hwv hlogged huw
          rcases above_under hc hw hwv with rfl | ⟨w, hw', rfl, hwv'⟩
          · exact not_isAbove_root _ _ _ huw
          · exact none_logged w hw' hwv' hlogged
      · refine .start ?_ fun u hu huv => ?_
        · rw [LogRules.down, if_neg hlogs] at state
          exact state
        · rcases above_under hc hu huv with rfl | ⟨w, hw, rfl, hwv⟩
          · exact hlogs
          · exact none_logged w hw hwv

end Site

end CssRune
