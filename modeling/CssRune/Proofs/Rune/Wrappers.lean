/-
**The wrappers of the chosen targets.**

Chosen targets that follow one another directly share a wrapper, because the host compiler refuses
two wrappers in a row.  So the ranges of the wrappers have to be apart, also where a target that is
not chosen stands between two that are.  Ranges that are apart and cover the bytes of the chosen
targets are the largest ones without a gap, and that settles which targets share a wrapper.

Main results:

* `pairwise_hull_groups` — runs never touch;
* `exists_holds_of_covered` — ranges that are apart hold all that they cover without a gap;
* `covered_iff_joined` — what lies between two chosen targets is covered if and only if all targets
  there are chosen and each starts where the one before it ends;
* `runsOf_wrappedRuns` — the wrappers wrap the chosen targets;
* `wrappedRuns_maximal` — **wrappers never touch, and hold the targets that are joined**.
-/

import CssRune.Proofs.Rune.Runs
import Mathlib.Data.List.Nodup
import Mathlib.Data.List.Perm.Subperm

set_option autoImplicit false

namespace CssRune

namespace Span

/-- Whether a range lies in another one. -/
def holds (s t : Span) : Bool := s.start ≤ t.start && t.stop ≤ s.stop

theorem holds_iff {s t : Span} : s.holds t = true ↔ s.start ≤ t.start ∧ t.stop ≤ s.stop := by
  simp [holds]

/-- Ranges that fill a space contain its offsets. -/
theorem Chain.contains_iff {lo hi : Nat} {ss : List Span} (h : Chain lo hi ss) (n : Nat) :
    contains ⟨lo, hi⟩ n = true ↔ ∃ s ∈ ss, s.contains n = true := by
  induction ss generalizing lo with
  | nil =>
    obtain rfl : lo = hi := h
    simp [contains]
  | cons s ss ih =>
    obtain ⟨rfl, hlt, hrest⟩ := h
    have hle := hrest.le
    rw [List.exists_mem_cons_iff, ← ih hrest]
    simp only [Span.contains_iff]
    omega

end Span

/-! ### Runs are apart -/

section Groups

variable {α : Type} {span : α → Span}

variable {os xs : List α} {rest : List (α × Bool)}

/-- No run starts before the one that is still growing and the elements to come. -/
theorem le_start_of_mem_groupsFrom {lo : Nat} (hos : os ≠ [] → lo ≤ (hull span os.reverse).start)
    (hrest : ∀ p ∈ rest, lo ≤ (span p.1).start) :
    ∀ g ∈ groupsFrom span os rest, lo ≤ (hull span g).start := by
  fun_induction groupsFrom span os rest with
  | case1 => simp
  | case2 o os => exact List.forall_mem_singleton.2 (hos (by simp))
  | case3 a rest ih => exact ih hos (List.forall_mem_cons.1 hrest).2
  | case4 o os a rest ih =>
    exact List.forall_mem_cons.2
      ⟨hos (by simp), ih (by simp) (List.forall_mem_cons.1 hrest).2⟩
  | case5 a rest ih =>
    obtain ⟨ha, hrest⟩ := List.forall_mem_cons.1 hrest
    exact ih (fun _ => ha) hrest
  | case6 o os a rest _ ih =>
    refine ih (fun _ => ?_) (List.forall_mem_cons.1 hrest).2
    rw [hull_reverse_cons]
    exact hos (by simp)
  | case7 o os a rest _ ih =>
    obtain ⟨ha, hrest⟩ := List.forall_mem_cons.1 hrest
    exact List.forall_mem_cons.2 ⟨hos (by simp), ih (fun _ => ha) hrest⟩

theorem pairwise_hull_groupsFrom
    (hos : ∀ o ∈ os.head?, ∀ p ∈ rest, (span o).stop ≤ (span p.1).start)
    (hne : ∀ p ∈ rest, (span p.1).start < (span p.1).stop)
    (hrest : rest.Pairwise fun p q => (span p.1).stop ≤ (span q.1).start) :
    (groupsFrom span os rest).Pairwise fun g h => (hull span g).stop < (hull span h).start := by
  fun_induction groupsFrom span os rest with
  | case1 => exact .nil
  | case2 o os => exact List.pairwise_singleton ..
  | case3 a rest ih =>
    exact ih (by simp) (List.forall_mem_cons.1 hne).2 (List.pairwise_cons.1 hrest).2
  | case4 o os a rest ih =>
    -- the element that is not chosen stands between the two runs
    obtain ⟨ha, hne⟩ := List.forall_mem_cons.1 hne
    obtain ⟨hafter, hrest⟩ := List.pairwise_cons.1 hrest
    have hbefore : (span o).stop ≤ (span a).start := hos o rfl (a, false) List.mem_cons_self
    refine .cons (fun g hg => ?_) (ih (by simp) hne hrest)
    have hstart := le_start_of_mem_groupsFrom (by simp) hafter g hg
    rw [hull_reverse_stop]
    exact Nat.lt_of_le_of_lt hbefore (Nat.lt_of_lt_of_le ha hstart)
  | case5 a rest ih =>
    obtain ⟨hafter, hrest⟩ := List.pairwise_cons.1 hrest
    exact ih (by simpa using hafter) (List.forall_mem_cons.1 hne).2 hrest
  | case6 o os a rest _ ih =>
    obtain ⟨hafter, hrest⟩ := List.pairwise_cons.1 hrest
    exact ih (by simpa using hafter) (List.forall_mem_cons.1 hne).2 hrest
  | case7 o os a rest hjoin ih =>
    obtain ⟨ha, hne⟩ := List.forall_mem_cons.1 hne
    obtain ⟨hafter, hrest⟩ := List.pairwise_cons.1 hrest
    have hbefore : (span o).stop ≤ (span a).start := hos o rfl (a, true) List.mem_cons_self
    refine .cons (fun g hg => ?_) (ih (by simpa using hafter) hne hrest)
    have hstart : (span a).start ≤ (hull span g).start :=
      le_start_of_mem_groupsFrom (fun _ => Nat.le_refl _)
        (fun p hp => Nat.le_trans (Nat.le_of_lt ha) (hafter p hp)) g hg
    rw [hull_reverse_stop]
    omega

theorem pairwise_zip {R : α → α → Prop} (h : xs.Pairwise R) (chosen : List Bool) :
    (xs.zip chosen).Pairwise fun p q => R p.1 q.1 := by
  induction xs generalizing chosen with
  | nil => exact .nil
  | cons a as ih =>
    obtain ⟨ha, has⟩ := List.pairwise_cons.1 h
    cases chosen with
    | nil => exact .nil
    | cons b bs => exact .cons (fun p hp => ha p.1 (List.of_mem_zip hp).1) (ih has bs)

/-- **Runs never touch.** -/
theorem pairwise_hull_groups {chosen : List Bool} (hne : ∀ a ∈ xs, (span a).start < (span a).stop)
    (hxs : xs.Pairwise fun a b => (span a).stop ≤ (span b).start) :
    (groups span xs chosen).Pairwise fun g h => (hull span g).stop < (hull span h).start :=
  pairwise_hull_groupsFrom (by simp) (fun p hp => hne p.1 (List.of_mem_zip hp).1)
    (pairwise_zip hxs chosen)

end Groups

/-! ### What is covered without a gap -/

/-- Ranges that are apart hold all that they cover without a gap. -/
theorem exists_holds_of_covered {ss : List Span}
    (hapart : ss.Pairwise fun s t => s.stop < t.start) {a b : Nat} (hab : a < b)
    (h : ∀ n, a ≤ n → n < b → ∃ s ∈ ss, s.contains n = true) :
    ∃ s ∈ ss, s.holds ⟨a, b⟩ = true := by
  obtain ⟨k, rfl⟩ := Nat.exists_eq_add_of_lt hab
  induction k with
  | zero =>
    obtain ⟨s, hs, hin⟩ := h a (Nat.le_refl a) (Nat.lt_succ_self a)
    exact ⟨s, hs, Span.holds_iff.2 (Span.contains_iff.1 hin)⟩
  | succ k ih =>
    obtain ⟨s, hs, hholds⟩ := ih (by omega) fun n hn hnb => h n hn (by omega)
    obtain ⟨t, ht, hin⟩ := h (a + k + 1) (by omega) (by omega)
    rw [Span.holds_iff] at hholds
    rw [Span.contains_iff] at hin
    dsimp only at hholds
    refine ⟨s, hs, Span.holds_iff.2 ⟨hholds.1, ?_⟩⟩
    by_cases hst : s = t
    · exact hst ▸ hin.2
    · -- another range with the next byte would touch this one
      rcases rel_or_rel_of_pairwise hapart hs ht hst with hlt | hlt
      · omega
      · omega

section Joined

variable {α : Type} {span : α → Span} {xs : List α} {chosen : List Bool}

variable {a b : α} {i j : Nat}

theorem mem_zip_iff {b : Bool} :
    (a, b) ∈ xs.zip chosen ↔ ∃ i : Nat, xs[i]? = some a ∧ chosen[i]? = some b := by
  simp [List.mem_iff_getElem?, List.getElem?_zip_eq_some]

/-- A byte of a chosen element. -/
def Covered (span : α → Span) (xs : List α) (chosen : List Bool) (n : Nat) : Prop :=
  ∃ a, (a, true) ∈ xs.zip chosen ∧ (span a).contains n = true

/-- The elements from one place to another are chosen, and each starts where the one before it
ends. -/
def Joined (span : α → Span) (xs : List α) (chosen : List Bool) (i j : Nat) : Prop :=
  ∀ m, i ≤ m → m < j → ∃ a b, xs[m]? = some a ∧ xs[m + 1]? = some b ∧
    chosen[m + 1]? = some true ∧ (span a).stop = (span b).start

theorem covered_of_joined (ha : xs[i]? = some a) (hchosen : chosen[i]? = some true) (hij : i ≤ j)
    (hb : xs[j]? = some b) (h : Joined span xs chosen i j) {n : Nat} (hn : (span a).start ≤ n)
    (hn' : n < (span b).stop) : Covered span xs chosen n := by
  obtain ⟨k, rfl⟩ := Nat.exists_eq_add_of_le hij
  clear hij
  induction k generalizing b with
  | zero =>
    obtain rfl : a = b := Option.some.inj (ha.symm.trans hb)
    exact ⟨a, mem_zip_iff.2 ⟨i, ha, hchosen⟩, Span.contains_iff.2 ⟨hn, hn'⟩⟩
  | succ k ih =>
    obtain ⟨c, d, hc, hd, hchosen', hjoin⟩ := h (i + k) (by omega) (by omega)
    obtain rfl : d = b := Option.some.inj (hd.symm.trans hb)
    by_cases hlt : n < (span c).stop
    · exact ih hlt hc fun m hm hm' => h m hm (by omega)
    · exact ⟨d, mem_zip_iff.2 ⟨_, hd, hchosen'⟩, Span.contains_iff.2 ⟨by omega, hn'⟩⟩

variable (hne : ∀ a ∈ xs, (span a).start < (span a).stop)
  (hxs : xs.Pairwise fun a b => (span a).stop ≤ (span b).start)

include hxs in
theorem stop_le_start_of_lt (ha : xs[i]? = some a) (hb : xs[j]? = some b) (hij : i < j) :
    (span a).stop ≤ (span b).start := by
  obtain ⟨hi, rfl⟩ := List.getElem?_eq_some_iff.1 ha
  obtain ⟨hj, rfl⟩ := List.getElem?_eq_some_iff.1 hb
  exact List.pairwise_iff_getElem.1 hxs i j hi hj hij

include hne hxs in
theorem bounds_of_le (ha : xs[i]? = some a) (hb : xs[j]? = some b) (hij : i ≤ j) :
    (span a).start ≤ (span b).start ∧ (span a).stop ≤ (span b).stop := by
  rcases Nat.lt_or_eq_of_le hij with hlt | rfl
  · have hab := stop_le_start_of_lt hxs ha hb hlt
    have ha' := hne a (List.mem_of_getElem? ha)
    have hb' := hne b (List.mem_of_getElem? hb)
    omega
  · obtain rfl : a = b := Option.some.inj (ha.symm.trans hb)
    exact ⟨Nat.le_refl _, Nat.le_refl _⟩

include hne hxs in
/-- **What is covered without a gap is joined**, between two elements. -/
theorem covered_iff_joined (ha : xs[i]? = some a) (hb : xs[j]? = some b) (hij : i ≤ j)
    (hchosen : chosen[i]? = some true) :
    (∀ n, (span a).start ≤ n → n < (span b).stop → Covered span xs chosen n) ↔
      Joined span xs chosen i j := by
  refine ⟨fun h m him hmj => ?_, fun h n hn hn' => covered_of_joined ha hchosen hij hb h hn hn'⟩
  have hj : j < xs.length := (List.getElem?_eq_some_iff.1 hb).1
  obtain ⟨c, hc⟩ : ∃ c, xs[m]? = some c := ⟨_, List.getElem?_eq_getElem (by omega)⟩
  obtain ⟨d, hd⟩ : ∃ d, xs[m + 1]? = some d := ⟨_, List.getElem?_eq_getElem (by omega)⟩
  have hac := (bounds_of_le hne hxs ha hc him).1
  have hdb := (bounds_of_le hne hxs hd hb hmj).2
  have hcd := stop_le_start_of_lt hxs hc hd (Nat.lt_succ_self m)
  have hcne := hne c (List.mem_of_getElem? hc)
  have hdne := hne d (List.mem_of_getElem? hd)
  refine ⟨c, d, hc, hd, ?_, ?_⟩
  · -- only the element itself has its first byte
    obtain ⟨e, he, hin⟩ := h (span d).start (by omega) (by omega)
    obtain ⟨l, hl, hlchosen⟩ := mem_zip_iff.1 he
    rw [Span.contains_iff] at hin
    rcases Nat.lt_trichotomy l (m + 1) with hlt | rfl | hlt
    · have := stop_le_start_of_lt hxs hl hd hlt
      omega
    · exact hlchosen
    · have := stop_le_start_of_lt hxs hd hl hlt
      omega
  · -- a byte between two elements that follow one another is in none
    by_contra hgap
    obtain ⟨e, he, hin⟩ := h (span c).stop (by omega) (by omega)
    obtain ⟨l, hl, -⟩ := mem_zip_iff.1 he
    rw [Span.contains_iff] at hin
    rcases Nat.lt_or_ge m l with hlt | hge
    · have := (bounds_of_le hne hxs hd hl hlt).1
      omega
    · have := (bounds_of_le hne hxs hl hc hge).2
      omega

end Joined

/-! ### Wrappers -/

/-- Runs wrap the chosen ones of some targets: none of them is empty and no two touch, they cover
the bytes of the chosen targets, and the text of each is the wrapper of the targets in it. -/
structure RunsOf (targets : List Target) (chosen : List Bool) (suffix : String)
    (runs : List Run) : Prop where
  nonempty : ∀ r ∈ runs, r.span.start < r.span.stop
  apart : runs.Pairwise fun r s => r.span.stop < s.span.start
  covers : ∀ n, (∃ r ∈ runs, r.span.contains n = true) ↔ Covered Target.span targets chosen n
  text : ∀ r ∈ runs,
    r.text = wrapper ((targets.filter fun t => r.span.holds t.span).map Target.hashed) suffix

section Wrappers

variable {targets : List Target} {chosen : List Bool} {suffix : String} {runs : List Run}

theorem wrappedRuns_eq_map (targets : List Target) (chosen : List Bool) (suffix : String) :
    wrappedRuns targets chosen suffix = (groups Target.span targets chosen).map
      (groupRun Target.span Target.hashed suffix) := by
  have hspan : ∀ t : Target, (id t).span = t.span := fun _ => rfl
  have heq := wrappedRuns_eq hspan targets chosen suffix
  rwa [List.map_id] at heq

/-- A list in another one is what a test leaves of it. -/
theorem filter_eq_of_sublist {α : Type} {xs ys : List α} {p : α → Bool} (h : xs.Sublist ys)
    (hd : ys.Nodup) (hp : ∀ y ∈ ys, p y = true ↔ y ∈ xs) : ys.filter p = xs := by
  have hall : xs.filter p = xs := List.filter_eq_self.2 fun x hx => (hp x (h.subset hx)).2 hx
  have hsub : xs.Sublist (ys.filter p) := hall ▸ h.filter p
  have hle : (ys.filter p).length ≤ xs.length := by
    refine List.Subperm.length_le (List.subperm_of_subset (hd.filter p) fun y hy => ?_)
    obtain ⟨hy, hpy⟩ := List.mem_filter.1 hy
    exact (hp y hy).1 hpy
  exact (hsub.eq_of_length_le hle).symm

variable (hne : ∀ t ∈ targets, t.span.start < t.span.stop)
  (htargets : targets.Pairwise fun s t => s.span.stop ≤ t.span.start)

variable {s t : Target}

include htargets in
theorem eq_of_contains (hs : s ∈ targets) (ht : t ∈ targets) {n : Nat}
    (hsn : s.span.contains n = true) (htn : t.span.contains n = true) : s = t := by
  rw [Span.contains_iff] at hsn htn
  by_contra hst
  rcases rel_or_rel_of_pairwise htargets hs ht hst with hlt | hlt
  · omega
  · omega

include hne htargets in
/-- The targets in the range of a run are those of the run. -/
theorem filter_holds_hull {g : List Target} (hg : g ∈ groups Target.span targets chosen) :
    (targets.filter fun t => (hull Target.span g).holds t.span) = g := by
  have hsub := sublist_of_mem_groups hg
  obtain ⟨-, hfilled⟩ := filled_of_mem_groups hne g hg
  have hnodup : targets.Nodup := by
    refine htargets.imp_of_mem fun {s t} hs ht hst => ?_
    rintro rfl
    have := hne s hs
    omega
  refine filter_eq_of_sublist hsub hnodup fun t ht => ⟨fun hholds => ?_, fun htg => ?_⟩
  · -- the first byte of the target is one of the run
    have hlt := hne t ht
    rw [Span.holds_iff] at hholds
    have hfirst : (hull Target.span g).contains t.span.start = true :=
      Span.contains_iff.2 ⟨hholds.1, by omega⟩
    obtain ⟨s, hs, hin⟩ := (Span.Chain.contains_iff hfilled _).1 hfirst
    obtain ⟨u, hu, rfl⟩ := List.mem_map.1 hs
    have hself : t.span.contains t.span.start = true := Span.contains_iff.2 ⟨Nat.le_refl _, hlt⟩
    exact eq_of_contains htargets (hsub.subset hu) ht hin hself ▸ hu
  · have hin := hfilled.row.inside _ (List.mem_map_of_mem htg)
    exact Span.holds_iff.2 ⟨hin.1, hin.2.2⟩

include hne htargets in
/-- **The wrappers wrap the chosen targets.** -/
theorem runsOf_wrappedRuns (chosen : List Bool) (suffix : String) :
    RunsOf targets chosen suffix (wrappedRuns targets chosen suffix) := by
  rw [wrappedRuns_eq_map]
  refine ⟨List.forall_mem_map.2 fun g hg => ?_, List.pairwise_map.2
    (pairwise_hull_groups hne htargets), fun n => ?_, List.forall_mem_map.2 fun g hg => ?_⟩
  · obtain ⟨hgne, hfilled⟩ := filled_of_mem_groups hne g hg
    obtain ⟨t, ht⟩ := List.exists_mem_of_ne_nil g hgne
    have hin := hfilled.row.inside _ (List.mem_map_of_mem ht)
    show (hull Target.span g).start < (hull Target.span g).stop
    omega
  · have hmem : ∀ t, (t, true) ∈ targets.zip chosen ↔
        t ∈ (groups Target.span targets chosen).flatten := by
      simp [flatten_groups]
    constructor
    · rintro ⟨r, hr, hin⟩
      obtain ⟨g, hg, rfl⟩ := List.mem_map.1 hr
      obtain ⟨_, hs, hin⟩ := ((filled_of_mem_groups hne g hg).2.contains_iff n).1 hin
      obtain ⟨t, ht, rfl⟩ := List.mem_map.1 hs
      exact ⟨t, (hmem t).2 (List.mem_flatten_of_mem hg ht), hin⟩
    · rintro ⟨t, ht, hin⟩
      obtain ⟨g, hg, htg⟩ := List.mem_flatten.1 ((hmem t).1 ht)
      refine ⟨_, List.mem_map_of_mem hg, ?_⟩
      exact ((filled_of_mem_groups hne g hg).2.contains_iff n).2 ⟨_, List.mem_map_of_mem htg, hin⟩
  · show wrapper _ _ = wrapper _ _
    rw [show (groupRun Target.span Target.hashed suffix g).span = hull Target.span g from rfl,
      filter_holds_hull hne htargets hg]

include hne htargets in
/-- **Joined targets share a run**, and no others do. -/
theorem RunsOf.exists_holds_iff (h : RunsOf targets chosen suffix runs) {i j : Nat}
    (hs : targets[i]? = some s) (ht : targets[j]? = some t) (hij : i ≤ j)
    (hchosen : chosen[i]? = some true) :
    (∃ r ∈ runs, r.span.holds s.span = true ∧ r.span.holds t.span = true) ↔
      Joined Target.span targets chosen i j := by
  have hst := bounds_of_le hne htargets hs ht hij
  have hlt := hne s (List.mem_of_getElem? hs)
  rw [← covered_iff_joined hne htargets hs ht hij hchosen]
  constructor
  · rintro ⟨r, hr, hrs, hrt⟩ n hn hn'
    rw [Span.holds_iff] at hrs hrt
    exact (h.covers n).1 ⟨r, hr, Span.contains_iff.2 ⟨by omega, by omega⟩⟩
  · intro hcovered
    obtain ⟨q, hq, hholds⟩ := exists_holds_of_covered (List.pairwise_map.2 h.apart)
      (show s.span.start < t.span.stop by omega) fun n hn hn' => by
        obtain ⟨r, hr, hin⟩ := (h.covers n).2 (hcovered n hn hn')
        exact ⟨r.span, List.mem_map_of_mem hr, hin⟩
    obtain ⟨r, hr, rfl⟩ := List.mem_map.1 hq
    rw [Span.holds_iff] at hholds
    dsimp only at hholds
    exact ⟨r, hr, Span.holds_iff.2 ⟨by omega, by omega⟩, Span.holds_iff.2 ⟨by omega, by omega⟩⟩

end Wrappers

/-- What a test on places chooses. -/
theorem getElem?_map_range_eq_true {length i : Nat} {escaped : Nat → Bool} :
    ((List.range length).map escaped)[i]? = some true ↔ i < length ∧ escaped i = true := by
  rw [List.getElem?_map, Option.map_eq_some_iff]
  constructor
  · rintro ⟨j, hj, hescaped⟩
    obtain ⟨hi, rfl⟩ := List.getElem?_eq_some_iff.1 hj
    exact ⟨by simpa using hi, by simpa using hescaped⟩
  · rintro ⟨hi, hescaped⟩
    exact ⟨i, List.getElem?_range hi, hescaped⟩

/-- **Wrappers never touch, and hold the targets that are joined.**  For targets in order and any
test on their places, each wrapper ends before the next one starts, together they cover the bytes of
the escaped targets, two of these share a wrapper if and only if all targets from one to the other
are escaped and each starts where the one before it ends, and the text of a wrapper has the names of
the targets in it. -/
theorem wrappedRuns_maximal (targets : List Target) (escaped : Nat → Bool) (suffix : String)
    (hne : ∀ t ∈ targets, t.span.start < t.span.stop)
    (htargets : targets.Pairwise fun s t => s.span.stop ≤ t.span.start) :
    let runs := wrappedRuns targets ((List.range targets.length).map escaped) suffix
    (∀ r ∈ runs, r.span.start < r.span.stop) ∧
    (runs.Pairwise fun r s => r.span.stop < s.span.start) ∧
    (∀ n, (∃ r ∈ runs, r.span.contains n = true) ↔
      ∃ i, ∃ hi : i < targets.length, escaped i = true ∧ targets[i].span.contains n = true) ∧
    (∀ i j (hij : i < j) (hj : j < targets.length), escaped i = true → escaped j = true →
      ((∃ r ∈ runs, r.span.holds targets[i].span = true ∧ r.span.holds targets[j].span = true) ↔
        (∀ m, i < m → m < j → escaped m = true) ∧
          ∀ m (hm : m < j), i ≤ m → targets[m].span.stop = targets[m + 1].span.start)) ∧
    ∀ r ∈ runs, r.text = ":global(" ++ String.join ((targets.filter fun t =>
      r.span.holds t.span).map fun t => "." ++ t.hashed) ++ suffix ++ ")" := by
  intro runs
  have h := runsOf_wrappedRuns hne htargets ((List.range targets.length).map escaped) suffix
  refine ⟨h.nonempty, h.apart, fun n => ?_, fun i j hij hj hi hescaped => ?_, fun r hr => ?_⟩
  · rw [h.covers n, Covered]
    constructor
    · rintro ⟨t, ht, hin⟩
      obtain ⟨i, hget, hchosen⟩ := mem_zip_iff.1 ht
      obtain ⟨hi, rfl⟩ := List.getElem?_eq_some_iff.1 hget
      exact ⟨i, hi, (getElem?_map_range_eq_true.1 hchosen).2, hin⟩
    · rintro ⟨i, hi, hescaped, hin⟩
      exact ⟨targets[i], mem_zip_iff.2 ⟨i, List.getElem?_eq_getElem hi,
        getElem?_map_range_eq_true.2 ⟨hi, hescaped⟩⟩, hin⟩
  · rw [h.exists_holds_iff hne htargets (List.getElem?_eq_getElem (by omega))
      (List.getElem?_eq_getElem hj) (Nat.le_of_lt hij)
      (getElem?_map_range_eq_true.2 ⟨by omega, hi⟩)]
    constructor
    · intro hjoined
      refine ⟨fun m him hmj => ?_, fun m hm him => ?_⟩
      · obtain ⟨_, _, _, _, hchosen, _⟩ := hjoined (m - 1) (by omega) (by omega)
        rw [Nat.sub_add_cancel (by omega)] at hchosen
        exact (getElem?_map_range_eq_true.1 hchosen).2
      · obtain ⟨_, _, hget, hget', _, hjoin⟩ := hjoined m him hm
        obtain ⟨_, rfl⟩ := List.getElem?_eq_some_iff.1 hget
        obtain ⟨_, rfl⟩ := List.getElem?_eq_some_iff.1 hget'
        exact hjoin
    · rintro ⟨hall, hjoin⟩ m him hmj
      refine ⟨_, _, List.getElem?_eq_getElem (by omega), List.getElem?_eq_getElem (by omega), ?_,
        hjoin m hmj him⟩
      refine getElem?_map_range_eq_true.2 ⟨by omega, ?_⟩
      rcases Nat.lt_or_eq_of_le (show m + 1 ≤ j by omega) with hlt | heq
      · exact hall (m + 1) (by omega) hlt
      · rw [heq]
        exact hescaped
  · rw [h.text r hr, wrapper, List.map_map]
    rfl

/-- `.a.b.m .c` with `m` scoped: a wrapper for two classes, and one behind the blank. -/
theorem wrappedRuns_maximal_chain :
    let targets : List Target := [⟨⟨0, 2⟩, "a-h", false⟩, ⟨⟨2, 4⟩, "b-h", false⟩,
      ⟨⟨4, 6⟩, "m-h", true⟩, ⟨⟨7, 9⟩, "c-h", false⟩]
    let runs := wrappedRuns targets ((List.range targets.length).map (· != 2)) ".x"
    runs = [⟨⟨0, 4⟩, ":global(.a-h.b-h.x)"⟩, ⟨⟨7, 9⟩, ":global(.c-h.x)"⟩] ∧
      (∃ r ∈ runs, r.span.holds ⟨0, 2⟩ = true ∧ r.span.holds ⟨2, 4⟩ = true) ∧
      ¬∃ r ∈ runs, r.span.holds ⟨2, 4⟩ = true ∧ r.span.holds ⟨7, 9⟩ = true := by
  intro targets runs
  obtain ⟨_, _, _, hshared, _⟩ := wrappedRuns_maximal targets (· != 2) ".x" (by decide) (by decide)
  refine ⟨by decide, (hshared 0 1 (by decide) (by decide) rfl rfl).2 ⟨by omega, ?_⟩,
    fun hrun => ?_⟩
  · intro m hm _
    obtain rfl : m = 0 := by omega
    rfl
  · have hescaped := ((hshared 1 3 (by decide) (by decide) rfl rfl).1 hrun).1 2
      (by decide) (by decide)
    cases hescaped

end CssRune
