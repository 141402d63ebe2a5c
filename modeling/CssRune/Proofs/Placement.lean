/-
**What the placement check accepts, and what its variants look like.**

`CssRune/Rune/Placement.lean` reads the occurrences of a selector with two flags.  This module says
what the flags stand for, derives which sequences are accepted, and compares that with the rule of
the host compiler: in every variant of an accepted selector the escaped selectors should stand at
the beginning and at the end, with the scoped ones in one block between them.

The comparison fails at one place.  A mixed class is welcome at the end of a selector, also after a
rune class that itself closes a block of scoped ones; in the variants that leave the mixed class
scoped, the wrapper of the rune class then stands between two scoped selectors.  This is the only
way to fail, `forall_compilable_iff`.

* `Compilable` — escaped, then scoped, then escaped, with `compilable_iff_not_sublist`;
* `PlacementState.Follows` — what the flags say about the occurrences that were read, kept by every
  step (`PlacementState.Follows.step`);
* `checkPlacement_eq_ok_iff` — **the accepted sequences**;
* `decision`, `map_decision` — a choice of a selector, as a function of its occurrences;
* `forall_compilable_iff` — when all variants of an accepted selector are compilable.
-/

import CssRune.Proofs.Lists
import CssRune.Rune.Selectors
import Mathlib.Data.List.Forall2

set_option autoImplicit false

namespace CssRune

/-! ### Escaped, scoped, escaped -/

/-- A row of selectors, `true` for the escaped ones, that the host compiler accepts: escaped ones at
the beginning and at the end only. -/
def Compilable (row : List Bool) : Prop :=
  ∃ a b c, row = List.replicate a true ++ List.replicate b false ++ List.replicate c true

variable {row choice : List Bool} {os : List Occurrence} {o : Occurrence} {list : Span}
  {hash : String}

theorem Compilable.cons_true (h : Compilable row) : Compilable (true :: row) := by
  obtain ⟨a, b, c, rfl⟩ := h
  exact ⟨a + 1, b, c, by simp [List.replicate_succ]⟩

/-- A row without a scoped selector after an escaped one. -/
theorem eq_replicate_of_not_sublist (h : ¬[true, false].Sublist row) :
    ∃ b c, row = List.replicate b false ++ List.replicate c true := by
  induction row with
  | nil => exact ⟨0, 0, rfl⟩
  | cons x row ih =>
    cases x with
    | false =>
      obtain ⟨b, c, rfl⟩ := ih fun hs => h (hs.cons false)
      exact ⟨b + 1, c, by simp [List.replicate_succ]⟩
    | true =>
      have hall : ∀ y ∈ row, y = true := by
        intro y hy
        cases y with
        | true => rfl
        | false => exact absurd ((List.singleton_sublist.2 hy).cons_cons true) h
      refine ⟨0, row.length + 1, ?_⟩
      rw [List.eq_replicate_of_mem hall]
      simp [List.replicate_succ]

/-- A row is compilable exactly when no escaped selector stands between two scoped ones. -/
theorem compilable_iff_not_sublist : Compilable row ↔ ¬[false, true, false].Sublist row := by
  constructor
  · rintro ⟨a, b, c, rfl⟩ hs
    -- the first scoped selector is behind the leading escaped ones, the last before the trailing
    rw [List.append_assoc, List.sublist_append_iff] at hs
    obtain ⟨l₁, l₂, hl, h₁, h₂⟩ := hs
    have hl₁ : l₁ = [] := by
      cases l₁ with
      | nil => rfl
      | cons x l₁ =>
        have hx := List.eq_of_mem_replicate (h₁.subset List.mem_cons_self)
        simp [hx] at hl
    subst hl₁
    rw [List.nil_append] at hl
    subst hl
    obtain ⟨m₁, m₂, hm, h₃, h₄⟩ := List.sublist_append_iff.1 h₂
    have hm₁ : m₁.length ≤ 1 := by
      rcases m₁ with _ | ⟨x, _ | ⟨y, m₁⟩⟩
      · simp
      · simp
      · have hy := List.eq_of_mem_replicate (h₃.subset (List.mem_cons_of_mem x List.mem_cons_self))
        simp [hy] at hm
    have hmem : false ∈ m₂ := by
      rcases m₁ with _ | ⟨x, _ | ⟨y, m₁⟩⟩
      · simp [← List.nil_append m₂ ▸ hm]
      · simp only [List.cons_append, List.nil_append, List.cons.injEq] at hm
        simp [← hm.2]
      · simp at hm₁
    exact Bool.noConfusion (List.eq_of_mem_replicate (h₄.subset hmem))
  · intro h
    induction row with
    | nil => exact ⟨0, 0, 0, rfl⟩
    | cons x row ih =>
      cases x with
      | true => exact (ih fun hs => h (hs.cons true)).cons_true
      | false =>
        obtain ⟨b, c, rfl⟩ :=
          eq_replicate_of_not_sublist fun hs => h (hs.cons_cons false)
        exact ⟨0, b + 1, c, by simp [List.replicate_succ]⟩

instance (row : List Bool) : Decidable (Compilable row) :=
  decidable_of_iff _ compilable_iff_not_sublist.symm

/-! ### The flags of the check -/

/-- An escape was seen after something that is not escaped in every variant. -/
def Closing (os : List Occurrence) : Prop :=
  ∃ x y, [x, y].Sublist os ∧ x.placement ≠ .rune ∧ y.placement ≠ .native

/-- An occurrence may stand between two parts of a selector: a mixed one is the first or the last,
and a native one comes before the escapes that close the selector. -/
def Stands (front : List Occurrence) (o : Occurrence) (back : List Occurrence) : Prop :=
  (o.placement = .mixed → front = [] ∨ back = []) ∧ (o.placement = .native → ¬Closing front)

theorem not_closing_of_forall_rune (h : ∀ o ∈ os, o.placement = .rune) : ¬Closing os := by
  rintro ⟨x, y, hs, hx, -⟩
  exact hx (h x (hs.subset List.mem_cons_self))

/-- What one more occurrence adds: it closes if it is named by a rune and does not come first among
those that are not rune only. -/
theorem closing_concat :
    Closing (os ++ [o]) ↔
      Closing os ∨ (o.placement ≠ .native ∧ ∃ x ∈ os, x.placement ≠ .rune) := by
  constructor
  · rintro ⟨x, y, hs, hx, hy⟩
    obtain ⟨l₁, l₂, hl, h₁, h₂⟩ := List.sublist_append_iff.1 hs
    rcases List.sublist_singleton.1 h₂ with rfl | rfl
    · rw [List.append_nil] at hl
      exact Or.inl ⟨x, y, hl ▸ h₁, hx, hy⟩
    · obtain ⟨rfl, rfl⟩ : l₁ = [x] ∧ o = y := by
        rcases l₁ with _ | ⟨a, _ | ⟨b, l₁⟩⟩ <;> simp_all
      exact Or.inr ⟨hy, x, List.singleton_sublist.1 h₁, hx⟩
  · rintro (⟨x, y, hs, hx, hy⟩ | ⟨ho, x, hx, hxr⟩)
    · exact ⟨x, y, hs.trans (List.sublist_append_left os [o]), hx, hy⟩
    · exact ⟨x, o, (List.singleton_sublist.2 hx).append (List.Sublist.refl [o]), hxr, ho⟩

namespace PlacementState

/-- The flags of a state describe the occurrences read so far. -/
structure Follows (s : PlacementState) (front : List Occurrence) : Prop where
  inStart : s.inStart = true ↔ ∀ o ∈ front, o.placement = .rune
  inEnd : s.inEnd = true ↔ Closing front

theorem follows_nil : Follows {} [] :=
  ⟨by simp, by simp [Closing]⟩

variable {front : List Occurrence} {o : Occurrence}

/-- An occurrence is read exactly when it may stand where it does, and the flags then describe it
as well.  The part after it only matters for whether it is the last. -/
theorem Follows.step {s : PlacementState} (h : s.Follows front) {isEdge : Bool}
    {back : List Occurrence} (hedge : isEdge = true ↔ front = [] ∨ back = []) :
    (∃ s', s.step isEdge o = .ok s' ∧ s'.Follows (front ++ [o]) ∧ Stands front o back) ∨
      (∃ misplaced, s.step isEdge o = .error misplaced) ∧ ¬Stands front o back := by
  obtain ⟨hstart, hend⟩ := h
  have hmem : (∀ x ∈ front ++ [o], x.placement = .rune) ↔
      (∀ x ∈ front, x.placement = .rune) ∧ o.placement = .rune := by
    simp [or_imp, forall_and]
  have hsome : (∃ x ∈ front, x.placement ≠ .rune) ↔ ¬∀ x ∈ front, x.placement = .rune := by
    simp
  cases hp : o.placement with
  | rune =>
    refine Or.inl ⟨_, by simp [PlacementState.step, hp]; rfl, ⟨?_, ?_⟩, by simp [hp], by simp [hp]⟩
    · rw [hmem, ← hstart]
      simp [hp]
    · rw [closing_concat, ← hend, hsome, ← hstart]
      cases s.inStart <;> cases s.inEnd <;> simp [hp]
  | native =>
    by_cases hs : s.inStart = true
    · have hnot : ¬Closing front := not_closing_of_forall_rune (hstart.1 hs)
      refine Or.inl ⟨_, by simp [PlacementState.step, hp, hs]; rfl, ⟨?_, ?_⟩, by simp [hp],
        fun _ => hnot⟩
      · rw [hmem]
        simp [hp]
      · rw [closing_concat, ← hend]
        simp [hp]
    · by_cases he : s.inEnd = true
      · refine Or.inr ⟨⟨_, by simp [PlacementState.step, hp, hs, he]; rfl⟩, fun hst => ?_⟩
        exact hst.2 hp (hend.1 he)
      · refine Or.inl ⟨_, by simp [PlacementState.step, hp, hs, he]; rfl, ⟨?_, ?_⟩, by simp [hp],
          fun _ hc => he (hend.2 hc)⟩
        · rw [hmem, ← hstart]
          simp [hp, hs]
        · rw [closing_concat, ← hend]
          simp [hp, he]
  | mixed =>
    by_cases hb : isEdge = true
    · by_cases hs : s.inStart = true
      · refine Or.inl ⟨_, by simp [PlacementState.step, hp, hs, hb]; rfl, ⟨?_, ?_⟩,
          fun _ => hedge.1 hb, by simp [hp]⟩
        · rw [hmem]
          simp [hp]
        · rw [closing_concat, ← hend, hsome, ← hstart]
          simp [hs]
      · refine Or.inl ⟨_, by simp [PlacementState.step, hp, hs, hb]; rfl, ⟨?_, ?_⟩,
          fun _ => hedge.1 hb, by simp [hp]⟩
        · rw [hmem, ← hstart]
          simp [hp, hs]
        · rw [closing_concat, ← hend, hsome, ← hstart]
          simp [hs, hp]
    · refine Or.inr ⟨⟨o, by simp [PlacementState.step, hp, hb]⟩, fun hst => ?_⟩
      exact hb (hedge.2 (hst.1 hp))

/-- The first and the last occurrence are at the edges. -/
theorem isEdge_iff {rest : List Occurrence} {count : Nat}
    (hcount : count = front.length + (o :: rest).length) :
    (decide (front.length = 0) || decide (front.length + 1 = count)) = true ↔
      front = [] ∨ rest = [] := by
  rw [hcount]
  simp only [List.length_cons, Bool.or_eq_true, decide_eq_true_eq, List.length_eq_zero_iff]
  constructor
  · rintro (hf | hf)
    · exact Or.inl hf
    · exact Or.inr (List.length_eq_zero_iff.1 (by omega))
  · rintro (hf | hf)
    · exact Or.inl hf
    · exact Or.inr (by simp [hf])

/-- Reading the rest of a selector succeeds exactly when all of it may stand where it does. -/
theorem Follows.run_eq_ok_iff (count : Nat) (rest : List Occurrence) :
    ∀ {s : PlacementState} {front : List Occurrence}, s.Follows front →
      count = front.length + rest.length →
      ((∃ t, run count front.length s rest = .ok t) ↔
        ∀ mid o back, rest = mid ++ o :: back → Stands (front ++ mid) o back) := by
  induction rest with
  | nil =>
    intro s front _ _
    simp [run]
  | cons o rest ih =>
    intro s front h hcount
    rcases h.step (o := o) (isEdge_iff hcount) with ⟨s', hs', hf', hst⟩ | ⟨⟨m, hm⟩, hst⟩
    · have hlen : front.length + 1 = (front ++ [o]).length := by simp
      rw [run, hs']
      simp only []
      rw [hlen, ih hf' (by simp at hcount ⊢; omega)]
      constructor
      · intro hall mid x back heq
        cases mid with
        | nil =>
          cases heq
          rwa [List.append_nil]
        | cons y mid =>
          cases heq
          simpa using hall mid x back rfl
      · intro hall mid x back heq
        simpa using hall (o :: mid) x back (by rw [heq, List.cons_append])
    · rw [run, hm]
      simp only [reduceCtorEq, exists_false, false_iff]
      intro hall
      exact hst (by simpa using hall [] o rest rfl)

end PlacementState

/-- **The accepted sequences**: every occurrence may stand where it does in source order. -/
theorem checkPlacement_eq_ok_iff :
    checkPlacement os list = .ok () ↔
      ∀ front o back, inSourceOrder os = front ++ o :: back → Stands front o back := by
  have hrun := PlacementState.follows_nil.run_eq_ok_iff (inSourceOrder os).length (inSourceOrder os)
    (by simp)
  simp only [List.nil_append] at hrun
  rw [← hrun, checkPlacement]
  simp only [List.length_nil]
  cases PlacementState.run (inSourceOrder os).length 0 {} (inSourceOrder os) with
  | ok t => simp
  | error o => simp

/-! ### Choices -/

/-- Whether a choice for the rune occurrences of a selector escapes an occurrence; one that no rune
names is scoped. -/
def decision (os : List Occurrence) (choice : List Bool) (o : Occurrence) : Bool :=
  (((runeOccurrences os).zip choice).lookup o).getD false

/-- The choices of a list of targets escape those that are not mixed, and decide freely on the
others. -/
theorem mem_choices_iff {targets : List Target} :
    choice ∈ choices targets ↔
      List.Forall₂ (fun t b => t.mixed = true ∨ b = true) targets choice := by
  induction targets generalizing choice with
  | nil => simp [choices]
  | cons t targets ih =>
    rw [choices, List.forall₂_cons_left_iff]
    by_cases hm : t.mixed = true
    · simp only [hm, if_true, List.mem_append, List.mem_map, ih, true_or, true_and]
      constructor
      · rintro (⟨c, hc, rfl⟩ | ⟨c, hc, rfl⟩)
        · exact ⟨true, c, hc, rfl⟩
        · exact ⟨false, c, hc, rfl⟩
      · rintro ⟨b, c, hc, rfl⟩
        cases b with
        | true => exact Or.inl ⟨c, hc, rfl⟩
        | false => exact Or.inr ⟨c, hc, rfl⟩
    · simp only [hm, Bool.false_eq_true, if_false, List.mem_map, ih, false_or]
      constructor
      · rintro ⟨c, hc, rfl⟩
        exact ⟨true, c, rfl, hc, rfl⟩
      · rintro ⟨b, c, rfl, hc, rfl⟩
        exact ⟨c, hc, rfl⟩

theorem mem_runeOccurrences : o ∈ runeOccurrences os ↔ o ∈ os ∧ o.placement ≠ .native := by
  simp [runeOccurrences, Placement.isRune]

/-- What is looked up in two rows of the same length is found, next to its key. -/
theorem lookup_zip_of_forall₂ {P : Occurrence → Bool → Prop} (h : List.Forall₂ P os choice)
    (ho : o ∈ os) : ∃ b, (os.zip choice).lookup o = some b ∧ P o b := by
  induction h with
  | nil => cases ho
  | @cons x b os choice hxb _ ih =>
    rw [List.zip_cons_cons, List.lookup_cons]
    by_cases hx : o = x
    · subst hx
      exact ⟨b, by simp, hxb⟩
    · have hb : (o == x) = false := by simpa using hx
      obtain ⟨c, hc, hP⟩ := ih ((List.mem_cons.1 ho).resolve_left hx)
      exact ⟨c, by simpa [hb] using hc, hP⟩

/-- A class that only runes use is escaped in every choice. -/
theorem decision_eq_true (hc : choice ∈ choices ((runeOccurrences os).map (targetOf hash)))
    (ho : o ∈ os) (hr : o.placement = .rune) : decision os choice o = true := by
  have hall := List.forall₂_map_left_iff.1 (mem_choices_iff.1 hc)
  obtain ⟨b, hb, hP⟩ :=
    lookup_zip_of_forall₂ hall (mem_runeOccurrences.2 ⟨ho, by simp [hr]⟩)
  rw [decision, hb]
  simpa [targetOf, hr] using hP

/-- A selector that no rune names is scoped in every choice. -/
theorem decision_eq_false (hn : o.placement = .native) : decision os choice o = false := by
  have hnone : ((runeOccurrences os).zip choice).lookup o = none := by
    rw [List.lookup_eq_none_iff]
    rintro ⟨x, b⟩ hx
    have hne := (mem_runeOccurrences.1 (List.of_mem_zip hx).1).2
    simp only [bne_iff_ne, ne_eq]
    rintro rfl
    exact hne hn
  rw [decision, hnone, Option.getD_none]

/-- The choice that a function makes is followed by the function. -/
theorem decision_map (f : Occurrence → Bool) (ho : o ∈ os) (hr : o.placement ≠ .native) :
    decision os ((runeOccurrences os).map f) o = f o := by
  have hall : List.Forall₂ (fun x b => f x = b) (runeOccurrences os) ((runeOccurrences os).map f) :=
    List.forall₂_map_right_iff.2 (List.forall₂_same.2 fun x _ => rfl)
  obtain ⟨b, hb, hf⟩ := lookup_zip_of_forall₂ hall (mem_runeOccurrences.2 ⟨ho, hr⟩)
  rw [decision, hb, Option.getD_some, hf]

/-- Looking up the keys of a row without repetitions gives the values back. -/
theorem map_lookup_zip (hd : os.Nodup) (hl : os.length = choice.length) :
    os.map (fun o => ((os.zip choice).lookup o).getD false) = choice := by
  induction os generalizing choice with
  | nil => exact (List.length_eq_zero_iff.1 hl.symm).symm
  | cons o os ih =>
    cases choice with
    | nil => simp at hl
    | cons b choice =>
      obtain ⟨ho, hd⟩ := List.nodup_cons.1 hd
      have hrest : os.map (fun x => (((o :: os).zip (b :: choice)).lookup x).getD false) =
          os.map (fun x => ((os.zip choice).lookup x).getD false) := by
        refine List.map_congr_left fun x hx => ?_
        have hne : (x == o) = false := by
          simp only [beq_eq_false_iff_ne, ne_eq]
          rintro rfl
          exact ho hx
        rw [List.zip_cons_cons, List.lookup_cons, hne]
      rw [List.map_cons, hrest, ih hd (by simpa using hl)]
      simp

/-- Where all occurrences start at different places, decisions are the choice itself. -/
theorem map_decision (hd : os.Pairwise fun x y => x.span.start ≠ y.span.start)
    (hl : (runeOccurrences os).length = choice.length) :
    (runeOccurrences os).map (decision os choice) = choice := by
  have hnodup : (runeOccurrences os).Nodup := by
    refine List.Pairwise.imp ?_ (hd.sublist List.filter_sublist)
    rintro x y hxy rfl
    exact hxy rfl
  exact map_lookup_zip hnodup hl

/-! ### Variants of accepted selectors -/

/-- A rune class stands between a selector that is not rune only and a mixed class after it. -/
def Trapped (os : List Occurrence) : Prop :=
  ∃ x y z, [x, y, z].Sublist os ∧
    x.placement ≠ .rune ∧ y.placement = .rune ∧ z.placement = .mixed

/-- In an accepted sequence, what is escaped between two selectors that are not always escaped is
rune only, and the later of the two is mixed. -/
theorem placements_of_sublist (h : ∀ front o back, os = front ++ o :: back → Stands front o back)
    {x y z : Occurrence} (hs : [x, y, z].Sublist os) (hx : x.placement ≠ .rune)
    (hy : y.placement ≠ .native) (hz : z.placement ≠ .rune) :
    y.placement = .rune ∧ z.placement = .mixed := by
  obtain ⟨a, rest, rfl, ha, hrest⟩ := List.cons_sublist_iff.1 hs
  obtain ⟨b, c, rfl, hb, hc⟩ := List.cons_sublist_iff.1 hrest
  obtain ⟨b₁, b₂, rfl⟩ := List.append_of_mem hb
  obtain ⟨c₁, c₂, rfl⟩ := List.append_of_mem (List.singleton_sublist.1 hc)
  constructor
  · cases hp : y.placement with
    | rune => rfl
    | native => exact absurd hp hy
    | mixed =>
      -- it has `x` before and `z` after it
      have hst := (h (a ++ b₁) y (b₂ ++ (c₁ ++ z :: c₂)) (by simp)).1 hp
      simp [List.ne_nil_of_mem ha] at hst
  · cases hp : z.placement with
    | mixed => rfl
    | rune => exact absurd hp hz
    | native =>
      have hst := (h (a ++ (b₁ ++ y :: b₂ ++ c₁)) z c₂ (by simp)).2 hp
      refine absurd ⟨x, y, ?_, hx, hy⟩ hst
      exact (List.singleton_sublist.2 ha).append
        (List.singleton_sublist.2 (by simp))

theorem mem_inSourceOrder :
    o ∈ inSourceOrder os ↔ o ∈ os := (sortBy_perm _ os).mem_iff

/-- A variant of an accepted sequence that is not compilable traps a rune class. -/
theorem trapped_of_not_compilable (ha : checkPlacement os list = .ok ())
    (hc : choice ∈ choices ((runeOccurrences os).map (targetOf hash)))
    (h : ¬Compilable ((inSourceOrder os).map (decision os choice))) :
    Trapped (inSourceOrder os) := by
  rw [compilable_iff_not_sublist, not_not, List.sublist_map_iff] at h
  obtain ⟨row, hs, hrow⟩ := h
  obtain ⟨x, y, z, rfl⟩ : ∃ x y z, row = [x, y, z] := by
    rcases row with _ | ⟨x, _ | ⟨y, _ | ⟨z, _ | ⟨w, row⟩⟩⟩⟩ <;> simp at hrow
    exact ⟨x, y, z, rfl⟩
  simp only [List.map_cons, List.map_nil, List.cons.injEq, and_true] at hrow
  obtain ⟨hx, hy, hz⟩ := hrow
  have hne : ∀ {o : Occurrence}, o ∈ [x, y, z] → decision os choice o = false →
      o.placement ≠ .rune := by
    intro o ho hf hr
    have htrue := decision_eq_true hc (mem_inSourceOrder.1 (hs.subset ho)) hr
    rw [hf] at htrue
    exact Bool.noConfusion htrue
  have hyn : y.placement ≠ .native := by
    intro hn
    rw [decision_eq_false hn] at hy
    exact Bool.noConfusion hy
  have hx' := hne (by simp) hx.symm
  obtain ⟨hyr, hzm⟩ :=
    placements_of_sublist (checkPlacement_eq_ok_iff.1 ha) hs hx' hyn (hne (by simp) hz.symm)
  exact ⟨x, y, z, hs, hx', hyr, hzm⟩

/-- A trapped rune class shows in the variant that leaves all mixed classes scoped. -/
theorem exists_not_compilable_of_trapped (hash : String) (h : Trapped (inSourceOrder os)) :
    ∃ choice ∈ choices ((runeOccurrences os).map (targetOf hash)),
      ¬Compilable ((inSourceOrder os).map (decision os choice)) := by
  obtain ⟨x, y, z, hs, hx, hy, hz⟩ := h
  let scoping : Occurrence → Bool := fun o => o.placement == .rune
  have hdec : ∀ o ∈ os, decision os ((runeOccurrences os).map scoping) o = scoping o := by
    intro o ho
    by_cases hn : o.placement = .native
    · rw [decision_eq_false hn]
      simp [scoping, hn]
    · exact decision_map scoping ho hn
  refine ⟨(runeOccurrences os).map scoping, ?_, ?_⟩
  · refine mem_choices_iff.2 (List.forall₂_map_left_iff.2 (List.forall₂_map_right_iff.2 ?_))
    refine List.forall₂_same.2 fun o ho => ?_
    have hn := (mem_runeOccurrences.1 ho).2
    cases hp : o.placement with
    | native => exact absurd hp hn
    | rune => exact Or.inr (by simp [scoping, hp])
    | mixed => exact Or.inl (by simp [targetOf, hp])
  · rw [compilable_iff_not_sublist, not_not]
    have hrow : (inSourceOrder os).map (decision os ((runeOccurrences os).map scoping)) =
        (inSourceOrder os).map scoping :=
      List.map_congr_left fun o ho => hdec o (mem_inSourceOrder.1 ho)
    have hpattern : [x, y, z].map scoping = [false, true, false] := by
      simp [scoping, hx, hy, hz]
    rw [hrow, ← hpattern]
    exact hs.map scoping

/-- **When an accepted selector is compilable in every variant.**  Where the occurrences start at
different places, every choice is one decision for each rune occurrence, and all variants are
compilable exactly when no rune class is trapped before a mixed one. -/
theorem forall_compilable_iff {os : List Occurrence} {list : Span} (hash : String)
    (hd : os.Pairwise fun x y => x.span.start ≠ y.span.start)
    (ha : checkPlacement os list = .ok ()) :
    (∀ choice ∈ choices ((runeOccurrences os).map (targetOf hash)),
        (runeOccurrences os).map (decision os choice) = choice) ∧
      ((∀ choice ∈ choices ((runeOccurrences os).map (targetOf hash)),
          Compilable ((inSourceOrder os).map (decision os choice))) ↔
        ¬Trapped (inSourceOrder os)) := by
  refine ⟨fun choice hc => map_decision hd ?_, ⟨fun hall ht => ?_, fun ht choice hc => ?_⟩⟩
  · simpa using (mem_choices_iff.1 hc).length_eq
  · obtain ⟨choice, hc, hnot⟩ := exists_not_compilable_of_trapped hash ht
    exact hnot (hall choice hc)
  · by_contra hnot
    exact ht (trapped_of_not_compilable ha hc hnot)

/-- A mixed class at the start, with a rune class at the end. -/
theorem forall_compilable_mixed_native_rune :
    let os : List Occurrence :=
      [⟨"m", ⟨0, 2⟩, .mixed, true⟩, ⟨"p", ⟨3, 4⟩, .native, false⟩, ⟨"r", ⟨5, 7⟩, .rune, true⟩]
    checkPlacement os ⟨0, 7⟩ = .ok () ∧
      ∀ choice ∈ choices ((runeOccurrences os).map (targetOf "h")),
        Compilable ((inSourceOrder os).map (decision os choice)) := by
  intro os
  have ha : checkPlacement os ⟨0, 7⟩ = .ok () := by decide
  refine ⟨ha, (forall_compilable_iff "h" (by decide) ha).2.2 ?_⟩
  rintro ⟨x, y, z, hs, -, hy, hz⟩
  have horder : inSourceOrder os = os := by decide
  rw [horder] at hs
  have hrow : [y, z].Sublist (os.drop 1) := (List.sublist_cons_iff.1 hs).elim
    (fun h => (List.sublist_cons_self x [y, z]).trans h)
    (fun ⟨r, hr, hsub⟩ => by rw [← (List.cons.inj hr).2] at hsub; exact hsub)
  have hmem : z ∈ os.drop 1 := hrow.subset (by simp)
  simp only [os, List.drop_succ_cons, List.drop_zero, List.mem_cons, List.not_mem_nil,
    or_false] at hmem
  rcases hmem with rfl | rfl <;> simp at hz

/-- `p .r .m`, where `m` is used both ways: the check accepts it, and the variant that leaves `m`
scoped has the wrapper of `r` between two scoped selectors. -/
theorem exists_not_compilable_native_rune_mixed :
    let os : List Occurrence :=
      [⟨"p", ⟨0, 1⟩, .native, false⟩, ⟨"r", ⟨2, 4⟩, .rune, true⟩, ⟨"m", ⟨5, 7⟩, .mixed, true⟩]
    (os.Pairwise fun x y => x.span.start ≠ y.span.start) ∧ checkPlacement os ⟨0, 7⟩ = .ok () ∧
      ∃ choice ∈ choices ((runeOccurrences os).map (targetOf "h")),
        (inSourceOrder os).map (decision os choice) = [false, true, false] ∧
          ¬Compilable ((inSourceOrder os).map (decision os choice)) := by
  intro os
  exact ⟨by decide, by decide, [true, false], by decide, by decide, by decide⟩

end CssRune
