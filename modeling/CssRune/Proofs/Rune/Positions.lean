/-
**Placements by position.**

The check of placements reads the occurrences of a selector in source order, in whatever order they
are listed.  Said by positions, it accepts a sequence if mixed occurrences are at its ends and no
rune occurrence stands between one that is not rune only and a native one after it.  When it
refuses, it names an occurrence that a rune names: the mixed one that is not at an end, or the last
one before the native occurrence that comes too late.

Main results:

* `inSourceOrder_eq_of_perm` — the order of the list does not matter;
* `stands_iff` — where occurrences stand, by position;
* `PlacementState.Remembers.run_eq_error` — a refusal names an occurrence that a rune names;
* `checkPlacement_positions` — **what the check accepts, and what it says otherwise**.
-/

import CssRune.Proofs.Placement
import Mathlib.Data.List.Sort

set_option autoImplicit false

namespace CssRune

/-! ### Source order -/

variable {os : List Occurrence} {placement : Placement}

/-- Occurrences that start at different places can be put in order in one way. -/
theorem pairwise_inSourceOrder (hd : os.Pairwise fun x y => x.span.start ≠ y.span.start) :
    (inSourceOrder os).Pairwise fun x y => x.span.start < y.span.start := by
  have hle : (inSourceOrder os).Pairwise fun x y =>
      decide (x.span.start ≤ y.span.start) = true := by
    refine sortBy_pairwise (fun x y => ?_) (fun x y z => ?_) os
    · simpa using Nat.le_total x.span.start y.span.start
    · simpa using Nat.le_trans
  have hne : (inSourceOrder os).Pairwise fun x y => x.span.start ≠ y.span.start :=
    hd.perm (sortBy_perm _ os).symm fun h => h.symm
  refine (hle.and hne).imp fun h => Nat.lt_of_le_of_ne ?_ h.2
  simpa using h.1

/-- The order of a list does not matter for its source order. -/
theorem inSourceOrder_eq_of_perm {os' : List Occurrence}
    (hd : os.Pairwise fun x y => x.span.start ≠ y.span.start) (hp : os'.Perm os) :
    inSourceOrder os' = inSourceOrder os := by
  have hd' : os'.Pairwise fun x y => x.span.start ≠ y.span.start :=
    hd.perm hp.symm fun h => h.symm
  have hperm : (inSourceOrder os').Perm (inSourceOrder os) :=
    (sortBy_perm _ os').trans (hp.trans (sortBy_perm _ os).symm)
  refine hperm.eq_of_pairwise (fun x y _ _ hxy hyx => ?_) (pairwise_inSourceOrder hd')
    (pairwise_inSourceOrder hd)
  omega

/-! ### Positions -/

/-- Mixed occurrences are at the ends of a sequence. -/
def MixedAtEnds (os : List Occurrence) : Prop :=
  ∀ i (hi : i < os.length), os[i].placement = .mixed → i = 0 ∨ i + 1 = os.length

/-- A rune occurrence stands between one that is not rune only and a native one. -/
def RuneBetween (os : List Occurrence) : Prop :=
  ∃ f j k, ∃ (_ : f < j) (_ : j < k) (_ : k < os.length),
    os[f].placement ≠ .rune ∧ os[j].placement = .rune ∧ os[k].placement = .native

theorem pair_sublist_iff {α : Type} {x y : α} {l : List α} :
    [x, y].Sublist l ↔ ∃ i j : Nat, i < j ∧ l[i]? = some x ∧ l[j]? = some y := by
  constructor
  · intro h
    obtain ⟨front, back, rfl, hx, hy⟩ := List.cons_sublist_iff.1 h
    obtain ⟨i, hi⟩ := List.mem_iff_getElem?.1 hx
    obtain ⟨j, hj⟩ := List.mem_iff_getElem?.1 (List.singleton_sublist.1 hy)
    have hlt : i < front.length := (List.getElem?_eq_some_iff.1 hi).1
    refine ⟨i, front.length + j, by omega, ?_, ?_⟩
    · rw [List.getElem?_append_left hlt, hi]
    · rw [List.getElem?_append_right (by omega), Nat.add_sub_cancel_left, hj]
  · rintro ⟨i, j, hij, hi, hj⟩
    refine List.cons_sublist_iff.2 ⟨l.take j, l.drop j, (List.take_append_drop j l).symm, ?_,
      List.singleton_sublist.2 ?_⟩
    · exact List.mem_of_getElem? (i := i) (by rw [List.getElem?_take_of_lt hij, hi])
    · exact List.mem_of_getElem? (i := 0) (by rw [List.getElem?_drop, Nat.add_zero, hj])

/-- **Where occurrences stand, by position.** -/
theorem stands_iff :
    (∀ front o back, os = front ++ o :: back → Stands front o back) ↔
      MixedAtEnds os ∧ ¬RuneBetween os := by
  constructor
  · intro h
    have hsplit : ∀ i (hi : i < os.length), Stands (os.take i) os[i] (os.drop (i + 1)) :=
      fun i hi => h _ _ _ (by simp)
    refine ⟨fun i hi hmixed => ?_, ?_⟩
    · rcases (hsplit i hi).1 hmixed with hfront | hback
      · have hlength := congrArg List.length hfront
        rw [List.length_take, List.length_nil] at hlength
        omega
      · have hlength := List.drop_eq_nil_iff.1 hback
        omega
    · rintro ⟨f, j, k, hfj, hjk, hk, hf, hj, hnative⟩
      refine (hsplit k hk).2 hnative ⟨os[f], os[j], pair_sublist_iff.2 ⟨f, j, hfj, ?_, ?_⟩, hf, ?_⟩
      · rw [List.getElem?_take_of_lt (by omega), List.getElem?_eq_getElem]
      · rw [List.getElem?_take_of_lt hjk, List.getElem?_eq_getElem]
      · simp [hj]
  · rintro ⟨hends, hbetween⟩ front o back rfl
    have hhere : front.length < (front ++ o :: back).length := by simp
    have hat : (front ++ o :: back)[front.length] = o := by simp
    refine ⟨fun hmixed => ?_, fun hnative => ?_⟩
    · rcases hends front.length hhere (by rw [hat, hmixed]) with hfirst | hlast
      · exact Or.inl (List.length_eq_zero_iff.1 hfirst)
      · rw [List.length_append, List.length_cons] at hlast
        exact Or.inr (List.length_eq_zero_iff.1 (by omega))
    · rintro ⟨x, y, hs, hx, hy⟩
      obtain ⟨i, j, hij, hi, hj⟩ := pair_sublist_iff.1 hs
      obtain ⟨hilt, rfl⟩ := List.getElem?_eq_some_iff.1 hi
      obtain ⟨hjlt, rfl⟩ := List.getElem?_eq_some_iff.1 hj
      cases hp : front[j].placement with
      | native => exact hy hp
      | rune =>
        refine hbetween ⟨i, j, front.length, hij, hjlt, hhere, ?_, ?_, by rw [hat, hnative]⟩
        · rw [List.getElem_append_left hilt]
          exact hx
        · rw [List.getElem_append_left hjlt]
          exact hp
      | mixed =>
        -- it has one occurrence before and one after it
        have hend := hends j (by omega) (by rw [List.getElem_append_left hjlt, hp])
        rw [List.length_append, List.length_cons] at hend
        omega

/-! ### What a refusal names -/

namespace PlacementState

/-- The cause of a state is the last occurrence read that a rune names. -/
def Remembers (s : PlacementState) (front : List Occurrence) : Prop :=
  s.cause = (front.filter (·.placement.isRune)).getLast?

theorem remembers_nil : Remembers {} [] := rfl

variable {s : PlacementState} {front : List Occurrence} {isEdge : Bool} {o : Occurrence}

theorem Remembers.cause_concat (h : s.Remembers front) (o : Occurrence) :
    (if o.placement.isRune then some o else s.cause) =
      ((front ++ [o]).filter (·.placement.isRune)).getLast? := by
  rw [List.filter_append]
  cases hrune : o.placement.isRune with
  | true => simp [hrune]
  | false =>
    rw [List.filter_cons_of_neg (by simp [hrune]), List.filter_nil, List.append_nil]
    exact h

/-- Where the closing part of a selector was read, the state remembers an occurrence that a rune
names. -/
theorem Remembers.exists_cause (h : s.Remembers front) (hclosing : Closing front) :
    ∃ c, s.cause = some c ∧ c ∈ front ∧ c.placement ≠ .native := by
  obtain ⟨x, y, hs, -, hy⟩ := hclosing
  have hmem : y ∈ front.filter (·.placement.isRune) :=
    mem_runeOccurrences.2 ⟨hs.subset (by simp), hy⟩
  have hc := List.getLast?_eq_some_getLast (List.ne_nil_of_mem hmem)
  obtain ⟨hfront, hnamed⟩ := mem_runeOccurrences.1 (List.mem_of_getLast? hc)
  exact ⟨_, h.trans hc, hfront, hnamed⟩

/-- What the next state remembers. -/
theorem Remembers.step_eq_ok {s' : PlacementState} (h : s.Remembers front)
    (hstep : s.step isEdge o = .ok s') : s'.Remembers (front ++ [o]) := by
  refine Eq.trans ?_ (h.cause_concat o)
  unfold PlacementState.step at hstep
  dsimp only at hstep
  split at hstep
  · cases hstep
  · split at hstep
    · cases hstep
      rfl
    · split at hstep
      · cases hstep
      · cases hstep
        rfl

/-- A refusal names an occurrence that a rune names. -/
theorem Remembers.step_eq_error {misplaced : Occurrence} (h : s.Remembers front)
    (hfollows : s.Follows front) (hstep : s.step isEdge o = .error misplaced) :
    misplaced ∈ front ++ [o] ∧ misplaced.placement ≠ .native := by
  unfold PlacementState.step at hstep
  dsimp only at hstep
  split at hstep
  · rename_i hmixed
    cases hstep
    exact ⟨by simp, by simp [hmixed.1]⟩
  · split at hstep
    · cases hstep
    · split at hstep
      · -- a native occurrence after the closing part
        rename_i hlate
        cases hstep
        obtain ⟨hnative, hend⟩ := hlate
        have hclosing : Closing front := hfollows.inEnd.1 (by simpa [hnative] using hend)
        obtain ⟨c, hc, hmem, hnamed⟩ := h.exists_cause hclosing
        have hcause : (if o.placement.isRune then some o else s.cause) = some c := by
          simpa [hnative, Placement.isRune] using hc
        rw [hcause]
        exact ⟨List.mem_append_left _ hmem, hnamed⟩
      · cases hstep

/-- **A refusal names an occurrence that a rune names**, wherever in a selector it is made. -/
theorem Remembers.run_eq_error (count : Nat) (rest : List Occurrence) :
    ∀ {s : PlacementState} {front : List Occurrence} {misplaced : Occurrence},
      s.Remembers front → s.Follows front → count = front.length + rest.length →
      run count front.length s rest = .error misplaced →
      misplaced ∈ front ++ rest ∧ misplaced.placement ≠ .native := by
  induction rest with
  | nil =>
    intro s front misplaced _ _ _ hrun
    cases hrun
  | cons o rest ih =>
    intro s front misplaced h hfollows hcount hrun
    rw [run] at hrun
    rcases hfollows.step (o := o) (isEdge_iff hcount) with ⟨s', hs', hfollows', -⟩ | ⟨⟨m, hm⟩, -⟩
    · have hlength : front.length + 1 = (front ++ [o]).length := by simp
      rw [hs'] at hrun
      dsimp only at hrun
      rw [hlength] at hrun
      have hrest := ih (h.step_eq_ok hs') hfollows' (by simp at hcount ⊢; omega) hrun
      rwa [List.append_assoc] at hrest
    · rw [hm] at hrun
      cases hrun
      obtain ⟨hmem, hnamed⟩ := h.step_eq_error hfollows hm
      refine ⟨?_, hnamed⟩
      rw [← List.singleton_append, ← List.append_assoc]
      exact List.mem_append_left _ hmem

end PlacementState

/-- The error of a check is at the list, and is about an occurrence that a rune names. -/
theorem exists_occurrence_of_checkPlacement_eq_error {list : Span} {e : RuneError}
    (h : checkPlacement os list = .error e) :
    ∃ o ∈ os, o.placement ≠ .native ∧ e = ⟨.misplaced o.name o.placement, list⟩ := by
  rw [checkPlacement] at h
  split at h
  · cases h
  · rename_i misplaced hrun
    cases h
    obtain ⟨hmem, hnamed⟩ := PlacementState.remembers_nil.run_eq_error _ _
      PlacementState.follows_nil (by simp) hrun
    exact ⟨misplaced, mem_inSourceOrder.1 hmem, hnamed, rfl⟩

/-- The explanation of a placement is about the class, if a rune names it. -/
theorem exists_placementDetail (name : String) (h : placement ≠ .native) :
    ∃ rest, RuneFault.placementDetail name placement =
      "The class \"" ++ name ++ "\" is used with the $css rune" ++ rest := by
  cases placement with
  | native => exact absurd rfl h
  | rune | mixed =>
    unfold RuneFault.placementDetail
    simp only [toString, String.append_assoc, -String.reduceAppend]
    exact ⟨_, rfl⟩

/-- The caption of a misplaced class that a rune names. -/
theorem exists_detail_misplaced (name : String) (h : placement ≠ .native) :
    ∃ rest, (RuneFault.misplaced name placement).detail =
      "Contains a selector that is used by runes and is not in the beginning or end of the "
        ++ "selector list. \n\n"
        ++ ("The class \"" ++ name ++ "\" is used with the $css rune" ++ rest) := by
  obtain ⟨rest, hdetail⟩ := exists_placementDetail name h
  refine ⟨rest ++ "\n", ?_⟩
  change _ ++ RuneFault.placementDetail name placement ++ "\n" = _
  -- the headline is long: nothing here looks into it
  generalize "Contains a selector that is used by runes and is not in the beginning or end of the "
    ++ "selector list. \n\n" = headline
  rw [hdetail, String.append_assoc, String.append_assoc]

/-- **What the check of placements accepts, and what it says otherwise.**  If all occurrences start
at different places, only their source order matters.  They are accepted if and only if every mixed
one is the first or the last and no rune one stands between one that is not rune only and a native
one.  Otherwise the error is at the range of the list, and its caption is about the class of an
occurrence that a rune names. -/
theorem checkPlacement_positions (os : List Occurrence) (list : Span)
    (hd : os.Pairwise fun x y => x.span.start ≠ y.span.start) :
    ∃ sorted : List Occurrence, sorted.Perm os ∧
      (sorted.Pairwise fun x y => x.span.start < y.span.start) ∧
      (∀ os', os'.Perm sorted → checkPlacement os' list = checkPlacement os list) ∧
      (checkPlacement os list = .ok () ↔ MixedAtEnds sorted ∧ ¬RuneBetween sorted) ∧
      ∀ e, checkPlacement os list = .error e → e.span = list ∧ e.kind = .invalidPlacement ∧
        ∃ o ∈ os, o.placement ≠ .native ∧ ∃ rest, e.fault.detail =
          "Contains a selector that is used by runes and is not in the beginning or end of the "
            ++ "selector list. \n\n"
            ++ ("The class \"" ++ o.name ++ "\" is used with the $css rune" ++ rest) := by
  have hperm : (inSourceOrder os).Perm os := sortBy_perm _ os
  refine ⟨inSourceOrder os, hperm, pairwise_inSourceOrder hd, fun os' hp => ?_,
    checkPlacement_eq_ok_iff.trans stands_iff, fun e he => ?_⟩
  · rw [checkPlacement, checkPlacement, inSourceOrder_eq_of_perm hd (hp.trans hperm)]
  · obtain ⟨o, ho, hnamed, rfl⟩ := exists_occurrence_of_checkPlacement_eq_error he
    exact ⟨rfl, rfl, o, ho, hnamed, exists_detail_misplaced o.name hnamed⟩

/-- `.r q .s q`, listed backwards: the second rune class stands between natives, and is named. -/
theorem checkPlacement_positions_runeBetween :
    let os : List Occurrence := [⟨"q", ⟨8, 9⟩, .native, false⟩, ⟨"s", ⟨5, 7⟩, .rune, true⟩,
      ⟨"q", ⟨3, 4⟩, .native, false⟩, ⟨"r", ⟨0, 2⟩, .rune, true⟩]
    checkPlacement os ⟨0, 9⟩ = .error ⟨.misplaced "s" .rune, ⟨0, 9⟩⟩ ∧
      ∃ sorted : List Occurrence, sorted.Perm os ∧ RuneBetween sorted := by
  intro os
  have heval : checkPlacement os ⟨0, 9⟩ = .error ⟨.misplaced "s" .rune, ⟨0, 9⟩⟩ := by decide
  obtain ⟨sorted, hperm, _, _, hok, _⟩ := checkPlacement_positions os ⟨0, 9⟩ (by decide)
  refine ⟨heval, sorted, hperm, ?_⟩
  by_contra hbetween
  have hmixed : MixedAtEnds sorted := by
    intro i hi hplacement
    have hmem : sorted[i] ∈ os := hperm.mem_iff.1 (List.getElem_mem hi)
    have hnone : ∀ o ∈ os, o.placement ≠ .mixed := by decide
    exact absurd hplacement (hnone _ hmem)
  cases heval.symm.trans (hok.2 ⟨hmixed, hbetween⟩)

end CssRune
