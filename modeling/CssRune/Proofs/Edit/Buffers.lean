/-
**Which overwrites a buffer takes.**

An overwrite is taken exactly when its range is a non-empty piece of the source that no earlier edit
meets.  The overwrites of a buffer that has only been edited that way are a row, whatever the order
in which they were made.

* `EditBuffer.checkRange_eq_ok_iff` — the ranges that pass the check of a buffer;
* `EditBuffer.Accepts`, `EditBuffer.overwrite_eq_ok_iff` — **when an overwrite is taken, and what it
  does**;
* `EditBuffer.Sound` — the overwrites are a row of pieces of the source, with `Sound.withOverwrite`:
  an overwrite keeps it so;
* `EditBuffer.Extends`, `EditBuffer.extends_overwriteAll` — what a list of overwrites makes of a
  buffer;
* `EditBuffer.Ready`, `EditBuffer.Ready.overwriteAll` — **overwrites whose ranges share no byte are
  never refused**.
-/

import CssRune.Proofs.Spans
import CssRune.Rune.Selectors
import Mathlib.Data.List.TakeWhile

set_option autoImplicit false

namespace CssRune

namespace Text

/-- Where a text can be cut, it falls into two parts. -/
theorem isAt_nil_of_isBoundary {n : Nat} {cs : List Char} (h : isBoundary n cs = true) :
    IsAt cs n [] := by
  induction cs generalizing n with
  | nil =>
    cases n with
    | zero => exact isAt_self []
    | succ n => cases h
  | cons c cs ih =>
    cases n with
    | zero => exact ⟨[], c :: cs, rfl, rfl⟩
    | succ n =>
      rw [isBoundary, Bool.and_eq_true, decide_eq_true_eq] at h
      obtain ⟨front, back, hcs, hlength⟩ := ih h.2
      refine ⟨c :: front, back, by rw [hcs]; rfl, ?_⟩
      rw [byteLength_cons]
      omega

end Text

namespace EditBuffer

variable {b b' : EditBuffer} {span : Span} {text : String}

/-! ### One overwrite -/

/-- The check of a range passes exactly for the pieces of the source. -/
theorem checkRange_eq_ok_iff : b.checkRange span = .ok () ↔ span.Cuts b.source.toList := by
  constructor
  · intro h
    simp only [checkRange] at h
    split at h
    · cases h
    · rename_i hbounds
      split at h
      · cases h
      · rename_i hstart
        split at h
        · cases h
        · rename_i hstop
          simp only [Bool.or_eq_true, decide_eq_true_eq, not_or] at hbounds
          simp only [Bool.not_eq_true', Bool.not_eq_false] at hstart hstop
          exact Span.cuts_of_isAt (Text.isAt_nil_of_isBoundary hstart)
            (Text.isAt_nil_of_isBoundary hstop) (by omega)
  · intro h
    have hle := h.le
    have hstop := h.stop_le
    have hbounds : (decide (span.stop < span.start) ||
        decide (Text.byteLength b.source.toList < span.stop)) = false := by
      simp only [Bool.or_eq_false_iff, decide_eq_false_iff_not]
      omega
    simp only [checkRange, hbounds, h.isBoundary_start, h.isBoundary_stop]
    rfl

/-- What a buffer asks of an overwrite: its range is a non-empty piece of the source, shares no byte
with an earlier overwrite, and has no earlier insertion strictly inside. -/
structure Accepts (b : EditBuffer) (span : Span) : Prop where
  nonempty : span.start < span.stop
  cuts : span.Cuts b.source.toList
  apart : ∀ o ∈ b.overwrites, o.span.intersects span = false
  uncut : ∀ i ∈ b.insertions, splits i.pos span = false

theorem conflicts_eq_false_iff : b.conflicts span = false ↔
    (∀ o ∈ b.overwrites, o.span.intersects span = false) ∧
      ∀ i ∈ b.insertions, splits i.pos span = false := by
  rw [conflicts, Bool.or_eq_false_iff, List.any_eq_false, List.any_eq_false]
  simp only [Bool.not_eq_true]

/-- The overwrites of a buffer with one more at its place. -/
def withOverwrite (b : EditBuffer) (o : Overwrite) : EditBuffer :=
  { b with overwrites := b.overwrites.takeWhile (fun p => p.span.start < o.span.start) ++
      o :: b.overwrites.dropWhile fun p => p.span.start < o.span.start }

/-- **An overwrite is taken exactly when the buffer accepts its range**, and is put at its place. -/
theorem overwrite_eq_ok_iff :
    b.overwrite span text = .ok b' ↔ b.Accepts span ∧ b' = b.withOverwrite ⟨span, text⟩ := by
  have hempty : span.isEmpty = true ↔ ¬span.start < span.stop := by
    rw [Span.isEmpty, decide_eq_true_eq, Nat.not_lt]
  unfold overwrite
  by_cases he : span.isEmpty = true
  · rw [if_pos he]
    refine ⟨fun h => ?_, fun h => absurd h.1.nonempty (hempty.1 he)⟩
    cases h
  · rw [if_neg he]
    have hne : span.start < span.stop := Classical.not_not.1 (mt hempty.2 he)
    constructor
    · intro h
      obtain ⟨_, hrange, h⟩ := bind_eq_ok_iff.1 h
      split at h
      · cases h
      · rename_i hconflict
        obtain ⟨happart, huncut⟩ := conflicts_eq_false_iff.1 (Bool.eq_false_iff.2 hconflict)
        exact ⟨⟨hne, checkRange_eq_ok_iff.1 hrange, happart, huncut⟩, (pure_eq_ok_iff.1 h).symm⟩
    · rintro ⟨haccepts, rfl⟩
      have hrange := checkRange_eq_ok_iff.2 haccepts.cuts
      have hconflict := conflicts_eq_false_iff.2 ⟨haccepts.apart, haccepts.uncut⟩
      rw [hrange]
      show (if b.conflicts span = true then _ else _) = _
      rw [if_neg (Bool.eq_false_iff.1 hconflict)]
      rfl

theorem withOverwrite_perm (b : EditBuffer) (o : Overwrite) :
    (b.withOverwrite o).overwrites.Perm (o :: b.overwrites) := by
  refine List.perm_middle.trans ?_
  rw [List.takeWhile_append_dropWhile]

/-! ### Sound buffers -/

/-- The overwrites of the buffer are a row of pieces of its source. -/
structure Sound (b : EditBuffer) : Prop where
  row : Span.Row 0 0 (Text.byteLength b.source.toList) (b.overwrites.map Overwrite.span)
  cuts : ∀ o ∈ b.overwrites, o.span.Cuts b.source.toList

theorem sound_ofSource (source : String) : (ofSource source).Sound :=
  ⟨Span.Row.nil _ _ _, by simp [ofSource]⟩

variable {o : Overwrite}

/-- The overwrites from the place of a new one on start no earlier than it. -/
theorem Sound.start_le_of_mem_dropWhile (h : b.Sound) {p : Overwrite}
    (hp : p ∈ b.overwrites.dropWhile fun p => p.span.start < o.span.start) :
    o.span.start ≤ p.span.start := by
  cases hd : b.overwrites.dropWhile (fun p => p.span.start < o.span.start) with
  | nil =>
    rw [hd] at hp
    cases hp
  | cons first rest =>
    have hfirst : o.span.start ≤ first.span.start := by
      have hnot := List.head?_dropWhile_not (fun p : Overwrite =>
        decide (p.span.start < o.span.start)) b.overwrites
      rw [hd] at hnot
      simpa using hnot
    have hsub : (first :: rest).Sublist b.overwrites := hd ▸ List.dropWhile_sublist _
    have hrow := h.row.sublist (hsub.map Overwrite.span)
    rw [hd] at hp
    rcases List.mem_cons.1 hp with rfl | hp
    · exact hfirst
    · obtain ⟨_, hlt, _, hrest⟩ := Span.Row.of_cons hrow
      have := (hrest.inside _ (List.mem_map_of_mem hp)).1
      omega

/-- **An accepted overwrite keeps a buffer sound.** -/
theorem Sound.withOverwrite (h : b.Sound) (ha : b.Accepts o.span) : (b.withOverwrite o).Sound := by
  have hmem : ∀ p ∈ (b.withOverwrite o).overwrites, p = o ∨ p ∈ b.overwrites := fun p hp =>
    List.mem_cons.1 ((b.withOverwrite_perm o).mem_iff.1 hp)
  have hinside : ∀ p ∈ b.overwrites, p.span.start < p.span.stop ∧
      p.span.stop ≤ Text.byteLength b.source.toList := fun p hp =>
    (h.row.inside _ (List.mem_map_of_mem hp)).2
  have hapart : ∀ p ∈ b.overwrites, p.span.stop ≤ o.span.start ∨ o.span.stop ≤ p.span.start := by
    intro p hp
    have hp' := ha.apart p hp
    simp only [Span.intersects, Bool.and_eq_false_iff, decide_eq_false_iff_not] at hp'
    omega
  have hne := ha.nonempty
  have hstop := ha.cuts.stop_le
  refine ⟨?_, fun p hp => ?_⟩
  · show Span.Row 0 0 (Text.byteLength b.source.toList) (List.map Overwrite.span
      (b.overwrites.takeWhile (fun p => p.span.start < o.span.start) ++
        o :: b.overwrites.dropWhile fun p => p.span.start < o.span.start))
    rw [List.map_append, List.map_cons]
    have hbefore := h.row.sublist ((List.takeWhile_sublist
      (fun p : Overwrite => decide (p.span.start < o.span.start))).map Overwrite.span)
    have hafter := h.row.sublist ((List.dropWhile_sublist
      (fun p : Overwrite => decide (p.span.start < o.span.start))).map Overwrite.span)
    -- what starts before the new range ends before it, and what does not starts after it
    refine Span.Row.append (hbefore.within ?_) (Span.Row.cons (Nat.le_refl _) hne hstop
      (hafter.within ?_)) (Nat.zero_le _) (Nat.le_trans (Nat.le_of_lt hne) hstop)
    · refine List.forall_mem_map.2 fun p hp => ⟨Nat.zero_le _, ?_⟩
      have hlt : p.span.start < o.span.start := by simpa using List.mem_takeWhile_imp hp
      have := hapart p ((List.takeWhile_sublist _).subset hp)
      show p.span.stop ≤ o.span.start
      omega
    · refine List.forall_mem_map.2 fun p hp => ?_
      have hle := h.start_le_of_mem_dropWhile hp
      have hp' := (List.dropWhile_sublist _).subset hp
      have := hapart p hp'
      have := hinside p hp'
      exact ⟨by omega, by omega⟩
  · rcases hmem p hp with rfl | hp
    · exact ha.cuts
    · exact h.cuts p hp

/-! ### Lists of overwrites -/

end EditBuffer

/-- A run as an overwrite. -/
def Run.toOverwrite (r : Run) : Overwrite := ⟨r.span, r.text⟩

/-- What a list of overwrites makes of a buffer: a sound buffer stays sound, and it holds the new
overwrites beside the old ones. -/
structure EditBuffer.Extends (b b' : EditBuffer) (edits : List Overwrite) : Prop where
  source_eq : b'.source = b.source
  insertions_eq : b'.insertions = b.insertions
  overwrites : b'.overwrites.Perm (edits ++ b.overwrites)
  sound : b.Sound → b'.Sound

namespace EditBuffer

theorem Extends.refl (b : EditBuffer) : b.Extends b [] := ⟨rfl, rfl, List.Perm.refl _, id⟩

variable {b b' : EditBuffer} {span : Span} {runs : List Run} {pending : List Span}

theorem Extends.trans {b₁ b₂ : EditBuffer} {os ps : List Overwrite} (h : b.Extends b₁ os)
    (h' : b₁.Extends b₂ ps) : b.Extends b₂ (os ++ ps) where
  source_eq := h'.source_eq.trans h.source_eq
  insertions_eq := h'.insertions_eq.trans h.insertions_eq
  overwrites := by
    refine h'.overwrites.trans ((h.overwrites.append_left ps).trans ?_)
    rw [← List.append_assoc]
    exact List.perm_append_comm.append_right _
  sound := fun hb => h'.sound (h.sound hb)

theorem extends_overwrite {text : String} (h : b.overwrite span text = .ok b') :
    b.Extends b' [⟨span, text⟩] := by
  obtain ⟨ha, rfl⟩ := overwrite_eq_ok_iff.1 h
  exact ⟨rfl, rfl, b.withOverwrite_perm _, fun hb => hb.withOverwrite ha⟩

theorem extends_overwriteAll (h : overwriteAll b runs = .ok b') :
    b.Extends b' (runs.map Run.toOverwrite) := by
  induction runs generalizing b with
  | nil =>
    cases h
    exact Extends.refl _
  | cons r rs ih =>
    obtain ⟨b₁, h₁, h⟩ := bind_eq_ok_iff.1 h
    exact (extends_overwrite h₁).trans (ih h)

/-! ### Overwrites that are never refused -/

/-- The buffer has no insertions, and what it holds shares no byte with the ranges still to come. -/
structure Ready (b : EditBuffer) (pending : List Span) : Prop where
  insertions_eq : b.insertions = []
  sited : Span.Sited b.source.toList 0 (Text.byteLength b.source.toList)
    (b.overwrites.map Overwrite.span ++ pending)

theorem ready_ofSource {source : String}
    (h : Span.Sited source.toList 0 (Text.byteLength source.toList) pending) :
    (ofSource source).Ready pending := ⟨rfl, h⟩

/-- The next range is never refused, and the buffer is ready for those after it. -/
theorem Ready.overwrite (text : String) (h : b.Ready (span :: pending)) :
    ∃ b', b.overwrite span text = .ok b' ∧ b'.Ready pending := by
  have hmem : span ∈ b.overwrites.map Overwrite.span ++ span :: pending := by simp
  obtain ⟨_, hne, _⟩ := h.sited.clear.inside span hmem
  have hpair := (List.pairwise_append.1 h.sited.clear.apart).2.2
  have ha : b.Accepts span := by
    refine ⟨hne, h.sited.cuts span hmem, fun o ho => ?_, by simp [h.insertions_eq]⟩
    exact hpair o.span (List.mem_map_of_mem ho) span List.mem_cons_self
  refine ⟨_, overwrite_eq_ok_iff.2 ⟨ha, rfl⟩, h.insertions_eq, ?_⟩
  refine h.sited.perm ?_
  have hnew := (b.withOverwrite_perm ⟨span, text⟩).map Overwrite.span
  exact List.perm_middle.trans (hnew.symm.append_right pending)

/-- **Overwrites whose ranges share no byte are never refused.** -/
theorem Ready.overwriteAll (h : b.Ready (runs.map Run.span ++ pending)) :
    ∃ b', CssRune.overwriteAll b runs = .ok b' ∧ b'.Ready pending := by
  induction runs generalizing b with
  | nil => exact ⟨b, rfl, h⟩
  | cons r rs ih =>
    obtain ⟨b₁, h₁, hready⟩ := Ready.overwrite r.text h
    obtain ⟨b₂, h₂, hready'⟩ := ih hready
    exact ⟨b₂, bind_eq_ok_iff.2 ⟨b₁, h₁, h₂⟩, hready'⟩

end EditBuffer

end CssRune
