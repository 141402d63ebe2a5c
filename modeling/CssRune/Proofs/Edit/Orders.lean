/-
**The order of edits does not matter.**

Whether a list of edits can be made depends on the edits alone: each has to be one that a fresh
buffer takes, and any two of them have to be compatible.  So the order of the calls decides nothing
but how insertions at the same place and side follow one another.

* `EditBuffer.Holds.eq_of_perm` — what a buffer holds determines it;
* `Edit.SameOrder` — insertions at the same place and side follow one another alike;
* `EditBuffer.applyAll_order_independent` — **edits are accepted or refused together, in whatever
  order**, and render the same.
-/

import CssRune.Proofs.Edit.Rendering

set_option autoImplicit false

namespace CssRune

namespace Edit

/-- Whether an edit inserts at the given place and side. -/
def insertsAt (pos : Nat) (side : Side) : Edit → Bool
  | insert p s _ => p == pos && s == side
  | overwrite _ _ => false

/-- In both lists, insertions at the same place and side follow one another alike. -/
def SameOrder (es fs : List Edit) : Prop :=
  ∀ pos side, es.filter (insertsAt pos side) = fs.filter (insertsAt pos side)

/-- The insertions of one rank are those at one place and side. -/
theorem filter_rank_eq (es : List Edit) (pos : Nat) (side : Side) :
    (es.filterMap insertion?).filter (fun i => i.rank = (Insertion.mk pos side "").rank) =
      (es.filter (insertsAt pos side)).filterMap insertion? := by
  induction es with
  | nil => rfl
  | cons e es ih =>
    cases e with
    | overwrite span text => exact ih
    | insert p s text =>
      have hrank : (Insertion.mk p s text).rank = (Insertion.mk pos side "").rank ↔
          insertsAt pos side (insert p s text) = true := by
        cases s <;> cases side <;> simp [Insertion.rank, insertsAt] <;> omega
      have hhead : (insert p s text :: es).filterMap insertion? =
          ⟨p, s, text⟩ :: es.filterMap insertion? := rfl
      rw [hhead]
      by_cases h : insertsAt pos side (insert p s text) = true
      · rw [List.filter_cons_of_pos (by simpa using hrank.2 h), List.filter_cons_of_pos h, ih]
        rfl
      · rw [List.filter_cons_of_neg (by simpa using mt hrank.1 h), List.filter_cons_of_neg h, ih]

theorem exists_rank_eq (k : Nat) : ∃ pos side, k = (Insertion.mk pos side "").rank := by
  by_cases heven : k % 2 = 0
  · refine ⟨k / 2, .left, ?_⟩
    simp only [Insertion.rank]
    omega
  · refine ⟨k / 2, .right, ?_⟩
    simp only [Insertion.rank]
    omega

theorem SameOrder.filter_rank_eq {es fs : List Edit} (h : SameOrder es fs) (k : Nat) :
    (es.filterMap insertion?).filter (fun i => i.rank = k) =
      (fs.filterMap insertion?).filter fun i => i.rank = k := by
  obtain ⟨pos, side, rfl⟩ := exists_rank_eq k
  rw [Edit.filter_rank_eq, Edit.filter_rank_eq, h pos side]

end Edit

namespace EditBuffer

/-- **What a buffer holds determines it**: the same edits, with insertions at the same place and
side in the same order, give the same buffer. -/
theorem Holds.eq_of_perm {b b' : EditBuffer} {source : String} {es fs : List Edit}
    (h : b.Holds source es) (h' : b'.Holds source fs) (hp : es.Perm fs)
    (horder : Edit.SameOrder es fs) : b = b' := by
  have hstarts : ∀ {b : EditBuffer}, b.Sound →
      b.overwrites.Pairwise fun o p => o.span.start ≤ p.span.start := by
    intro b hb
    refine (List.pairwise_map.1 hb.row.apart).imp_of_mem ?_
    intro o p ho _ hstop
    have := (hb.row.inside _ (List.mem_map_of_mem ho)).2.1
    omega
  have hoverwrites : b.overwrites = b'.overwrites := by
    have hperm : b.overwrites.Perm b'.overwrites :=
      h.overwrites.trans ((hp.filterMap _).trans h'.overwrites.symm)
    refine hperm.eq_of_pairwise ?_ (hstarts h.tidy.sound) (hstarts h'.tidy.sound)
    intro o p ho hp' hle hge
    exact h.tidy.sound.eq_of_start_eq ho (hperm.mem_iff.2 hp') (Nat.le_antisymm hle hge)
  have hinsertions : b.insertions = b'.insertions := by
    refine eq_of_filter_rank_eq h.tidy.sorted h'.tidy.sorted ?_
    intro k
    rw [h.insertions k, h'.insertions k, horder.filter_rank_eq k]
  cases b
  cases b'
  have hsource := h.source_eq.trans h'.source_eq.symm
  simp_all

theorem exists_apply_ofSource_iff {source : String} {e : Edit} :
    (∃ b, (ofSource source).apply e = .ok b) ↔ e.Fits source.toList := by
  constructor
  · rintro ⟨b, hb⟩
    exact ((tidy_ofSource source).apply_eq_ok_iff.1 hb).1.1
  · intro h
    exact ⟨_, (tidy_ofSource source).apply_eq_ok_iff.2 ⟨⟨h, by simp [edits, ofSource]⟩, rfl⟩⟩

/-- A fresh buffer takes a list of edits exactly if it takes each of them and they are
compatible. -/
theorem exists_applyAll_ofSource_iff {source : String} {es : List Edit} :
    (∃ b, (ofSource source).applyAll es = .ok b) ↔
      (∀ e ∈ es, ∃ b, (ofSource source).apply e = .ok b) ∧ es.Pairwise Edit.Compatible := by
  simp only [exists_apply_ofSource_iff]
  constructor
  · rintro ⟨b, hb⟩
    obtain ⟨⟨hfits, _, hpairs⟩, _⟩ := (tidy_ofSource source).applyAll_eq_ok_iff.1 hb
    exact ⟨hfits, hpairs⟩
  · rintro ⟨hfits, hpairs⟩
    have hold : ∀ e ∈ es, ∀ f ∈ (ofSource source).edits, f.Compatible e := by simp [edits, ofSource]
    exact ⟨_, (tidy_ofSource source).applyAll_eq_ok_iff.2 ⟨⟨hfits, hold, hpairs⟩, rfl⟩⟩

/-- **Edits are accepted or refused together, in whatever order**: a list of edits is accepted
exactly if each of them is accepted alone and any two are compatible.  Every permutation of an
accepted list is accepted, and two of them that keep the order of insertions at the same place and
side render the same text with the same map. -/
theorem applyAll_order_independent (source : String) (es : List Edit) :
    ((∃ b, (ofSource source).applyAll es = .ok b) ↔
      (∀ e ∈ es, ∃ b, (ofSource source).apply e = .ok b) ∧ es.Pairwise Edit.Compatible) ∧
    ((∃ b, (ofSource source).applyAll es = .ok b) → ∀ fs gs, es.Perm fs → es.Perm gs →
      ∃ b c, (ofSource source).applyAll fs = .ok b ∧ (ofSource source).applyAll gs = .ok c ∧
        (Edit.SameOrder fs gs →
          b.render = c.render ∧ ∀ name, b.sourceMap name = c.sourceMap name)) := by
  refine ⟨exists_applyAll_ofSource_iff, ?_⟩
  intro haccepted fs gs hfs hgs
  have hperm : ∀ {hs : List Edit}, es.Perm hs → ∃ b, (ofSource source).applyAll hs = .ok b := by
    intro hs hp
    obtain ⟨halone, hpairs⟩ := exists_applyAll_ofSource_iff.1 haccepted
    refine exists_applyAll_ofSource_iff.2 ⟨?_, hpairs.perm hp Edit.Compatible.symm⟩
    intro e he
    exact halone e (hp.mem_iff.2 he)
  obtain ⟨b, hb⟩ := hperm hfs
  obtain ⟨c, hc⟩ := hperm hgs
  refine ⟨b, c, hb, hc, ?_⟩
  intro horder
  have heq : b = c :=
    (holds_of_applyAll hb).eq_of_perm (holds_of_applyAll hc) (hfs.symm.trans hgs) horder
  rw [heq]
  exact ⟨rfl, fun _ => rfl⟩

/-- An overwrite and then insertions at both its ends. -/
def overwriteFirst : List Edit :=
  [.overwrite ⟨1, 3⟩ "N", .insert 1 .right "[", .insert 3 .left "]", .insert 1 .left "<",
    .insert 1 .right "("]

/-- The same edits with the overwrite last. -/
def overwriteLast : List Edit :=
  [.insert 1 .left "<", .insert 1 .right "[", .insert 1 .right "(", .insert 3 .left "]",
    .overwrite ⟨1, 3⟩ "N"]

theorem sameOrder_overwriteFirst_overwriteLast : Edit.SameOrder overwriteFirst overwriteLast := by
  intro pos side
  by_cases hfirst : pos = 1
  · subst hfirst
    cases side <;> decide
  · by_cases hsecond : pos = 3
    · subst hsecond
      cases side <;> decide
    · simp [overwriteFirst, overwriteLast, Edit.insertsAt, Ne.symm hfirst, Ne.symm hsecond]

/-- Whether the overwrite is made first or last, the same is rendered. -/
theorem applyAll_order_independent_around :
    ∃ b c, (ofSource "añbc").applyAll overwriteFirst = .ok b ∧
      (ofSource "añbc").applyAll overwriteLast = .ok c ∧
      b.render = c.render ∧ ∀ name, b.sourceMap name = c.sourceMap name := by
  have hperm : overwriteFirst.Perm overwriteLast := by decide
  obtain ⟨b, c, hb, hc, hsame⟩ := (applyAll_order_independent "añbc" overwriteFirst).2 ⟨_, rfl⟩
    _ _ (List.Perm.refl _) hperm
  exact ⟨b, c, hb, hc, hsame sameOrder_overwriteFirst_overwriteLast⟩

end EditBuffer

end CssRune
