/-
**Histories of edit calls.**

A buffer is only ever changed by calls, and a call that is refused changes nothing.  This module
says exactly which calls are taken, whatever calls were made before, and what a buffer holds after
any number of them: its overwrites by where they start, its insertions by where they stand, and of
insertions at the same place and side the earlier call first.

Main results:

* `EditBuffer.Tidy.apply_eq_ok_iff` — **when a call is taken, and what it does**;
* `EditBuffer.Tidy.applyAll_eq_ok_iff` — when all calls of a list are taken;
* `EditBuffer.applyAll_accepted` — a replay makes the calls that are taken;
* `EditBuffer.Holds`, `EditBuffer.holds_of_applyAll` — **what a buffer holds after a list of
  calls**.
-/

import CssRune.Proofs.Edit.Buffers

set_option autoImplicit false

namespace CssRune

/-! ### Lists sorted by a rank -/

section Ranked

variable {α : Type} (rank : α → Nat)

/-- A list with one more element, after all that rank no higher. -/
def insertAfter (a : α) (xs : List α) : List α :=
  xs.takeWhile (fun x => rank x ≤ rank a) ++ a :: xs.dropWhile fun x => rank x ≤ rank a

variable {rank}

theorem insertAfter_perm (a : α) (xs : List α) : (insertAfter rank a xs).Perm (a :: xs) := by
  refine List.perm_middle.trans ?_
  rw [List.takeWhile_append_dropWhile]

variable {a x : α} {xs : List α}

/-- What comes from the place of a new element on ranks higher. -/
theorem rank_lt_of_mem_dropWhile (h : xs.Pairwise fun x y => rank x ≤ rank y)
    (hx : x ∈ xs.dropWhile fun x => rank x ≤ rank a) : rank a < rank x := by
  induction xs with
  | nil => cases hx
  | cons y ys ih =>
    obtain ⟨hy, hys⟩ := List.pairwise_cons.1 h
    by_cases hle : rank y ≤ rank a
    · rw [List.dropWhile_cons_of_pos (by simpa using hle)] at hx
      exact ih hys hx
    · rw [List.dropWhile_cons_of_neg (by simpa using hle)] at hx
      rcases List.mem_cons.1 hx with rfl | hx
      · omega
      · have := hy x hx
        omega

theorem rank_le_of_mem_takeWhile (hx : x ∈ xs.takeWhile fun x => rank x ≤ rank a) :
    rank x ≤ rank a := by
  simpa using List.mem_takeWhile_imp hx

theorem pairwise_insertAfter (h : xs.Pairwise fun x y => rank x ≤ rank y) :
    (insertAfter rank a xs).Pairwise fun x y => rank x ≤ rank y := by
  refine List.pairwise_append.2 ⟨h.sublist (List.takeWhile_sublist _), ?_, ?_⟩
  · refine List.pairwise_cons.2 ⟨?_, h.sublist (List.dropWhile_sublist _)⟩
    intro x hx
    exact Nat.le_of_lt (rank_lt_of_mem_dropWhile h hx)
  · intro x hx y hy
    have hxa := rank_le_of_mem_takeWhile hx
    rcases List.mem_cons.1 hy with rfl | hy
    · exact hxa
    · have := rank_lt_of_mem_dropWhile h hy
      omega

/-- Of equal rank, the new element comes last. -/
theorem filter_insertAfter (h : xs.Pairwise fun x y => rank x ≤ rank y) (k : Nat) :
    (insertAfter rank a xs).filter (fun x => rank x = k) =
      xs.filter (fun x => rank x = k) ++ [a].filter fun x => rank x = k := by
  have hsplit : xs.filter (fun x => rank x = k) =
      (xs.takeWhile fun x => rank x ≤ rank a).filter (fun x => rank x = k) ++
        (xs.dropWhile fun x => rank x ≤ rank a).filter fun x => rank x = k := by
    rw [← List.filter_append, List.takeWhile_append_dropWhile]
  have hcons : insertAfter rank a xs = xs.takeWhile (fun x => rank x ≤ rank a) ++
      ([a] ++ xs.dropWhile fun x => rank x ≤ rank a) := rfl
  rw [hcons, List.filter_append, List.filter_append, hsplit]
  by_cases hk : rank a = k
  · -- nothing of the same rank is left behind the place of the new element
    have hnone : (xs.dropWhile fun x => rank x ≤ rank a).filter (fun x => rank x = k) = [] := by
      refine List.filter_eq_nil_iff.2 ?_
      intro x hx
      have := rank_lt_of_mem_dropWhile h hx
      simp only [decide_eq_true_eq]
      omega
    rw [hnone, List.append_nil, List.append_nil]
  · simp [hk]

/-- **Sorted lists with the same elements of each rank, in the same order, are equal.** -/
theorem eq_of_filter_rank_eq {ys : List α} (hx : xs.Pairwise fun x y => rank x ≤ rank y)
    (hy : ys.Pairwise fun x y => rank x ≤ rank y)
    (h : ∀ k, xs.filter (fun x => rank x = k) = ys.filter fun x => rank x = k) : xs = ys := by
  have hmem : ∀ z, z ∈ xs ↔ z ∈ ys := by
    intro z
    have hz := congrArg (z ∈ ·) (h (rank z))
    simpa using hz
  induction xs generalizing ys with
  | nil =>
    refine (List.eq_nil_iff_forall_not_mem.2 ?_).symm
    intro z hz
    exact List.not_mem_nil ((hmem z).2 hz)
  | cons x xs ih =>
    cases ys with
    | nil => exact absurd ((hmem x).1 List.mem_cons_self) List.not_mem_nil
    | cons y ys =>
      obtain ⟨hfirst, hxs⟩ := List.pairwise_cons.1 hx
      obtain ⟨hfirst', hys⟩ := List.pairwise_cons.1 hy
      -- both first elements have the lowest rank there is, so they are the same
      have hle : rank x ≤ rank y := by
        rcases List.mem_cons.1 ((hmem y).2 List.mem_cons_self) with heq | hin
        · rw [heq]
        · exact hfirst y hin
      have hge : rank y ≤ rank x := by
        rcases List.mem_cons.1 ((hmem x).1 List.mem_cons_self) with heq | hin
        · rw [heq]
        · exact hfirst' x hin
      have hrank : rank y = rank x := Nat.le_antisymm hge hle
      have hhead := h (rank x)
      rw [List.filter_cons_of_pos (by simp), List.filter_cons_of_pos (by simp [hrank])] at hhead
      obtain ⟨rfl, _⟩ := List.cons.inj hhead
      have htail : ∀ k, xs.filter (fun z => rank z = k) = ys.filter fun z => rank z = k := by
        intro k
        have hk := h k
        by_cases hxk : rank x = k
        · simpa [hxk] using hk
        · simpa [hxk] using hk
      refine congrArg (x :: ·) (ih hxs hys htail ?_)
      intro z
      have hz := congrArg (z ∈ ·) (htail (rank z))
      simpa using hz

end Ranked

/-! ### Calls -/

/-- A call on an edit buffer. -/
inductive Edit where
  | overwrite (span : Span) (text : String)
  | insert (pos : Nat) (side : Side) (text : String)
  deriving DecidableEq, Repr

namespace Edit

/-- The overwrite that a call makes. -/
def overwrite? : Edit → Option Overwrite
  | overwrite span text => some ⟨span, text⟩
  | insert _ _ _ => none

/-- The insertion that a call makes. -/
def insertion? : Edit → Option Insertion
  | overwrite _ _ => none
  | insert pos side text => some ⟨pos, side, text⟩

/-- The edit is one of the source: a range that is overwritten is a non-empty piece of it, and an
insertion stands where it can be cut. -/
def Fits (source : List Char) : Edit → Prop
  | overwrite span _ => span.start < span.stop ∧ span.Cuts source
  | insert pos _ _ => Text.IsAt source pos []

/-- Two edits can be made together: two overwrites share no byte, and no insertion stands strictly
inside an overwrite. -/
def Compatible : Edit → Edit → Prop
  | overwrite s _, overwrite t _ => ∀ p, s.contains p = true → t.contains p = false
  | overwrite s _, insert p _ _ => ¬(s.start < p ∧ p < s.stop)
  | insert p _ _, overwrite s _ => ¬(s.start < p ∧ p < s.stop)
  | insert _ _ _, insert _ _ _ => True

theorem Compatible.symm {e f : Edit} (h : e.Compatible f) : f.Compatible e := by
  cases e with
  | overwrite s text =>
    cases f with
    | overwrite t text' =>
      intro p hp
      cases hs : s.contains p with
      | false => rfl
      | true => exact absurd (h p hs) (by simp [hp])
    | insert p side text' => exact h
  | insert p side text =>
    cases f with
    | overwrite t text' => exact h
    | insert q side' text' => trivial

end Edit

/-- Ranges that are not empty share no byte exactly if they do not intersect. -/
theorem Span.intersects_eq_false_iff {s t : Span} (hs : s.start < s.stop) (ht : t.start < t.stop) :
    s.intersects t = false ↔ ∀ p, s.contains p = true → t.contains p = false := by
  simp only [intersects, contains, Bool.and_eq_true, Bool.and_eq_false_iff, decide_eq_true_eq,
    decide_eq_false_iff_not]
  constructor
  · intro h p hp
    omega
  · intro h
    -- the later of the two starts is in both ranges if they intersect
    have := h (max s.start t.start)
    omega

/-- Where insertions stand: by offset, and at one offset the left side first. -/
def Insertion.rank (i : Insertion) : Nat :=
  2 * i.pos + match i.side with
    | .left => 0
    | .right => 1

theorem Insertion.before_iff {i j : Insertion} : i.before j = true ↔ i.rank ≤ j.rank := by
  obtain ⟨p, side, text⟩ := i
  obtain ⟨q, side', text'⟩ := j
  cases side <;> cases side' <;> simp [Insertion.before, rank] <;> omega

namespace EditBuffer

/-- Makes a call. -/
def apply (b : EditBuffer) : Edit → Except EditError EditBuffer
  | .overwrite span text => b.overwrite span text
  | .insert pos side text => b.insert pos side text

/-- The buffer after a list of calls, those that are refused left out. -/
def replay (b : EditBuffer) : List Edit → EditBuffer
  | [] => b
  | e :: es =>
    match b.apply e with
    | .ok b' => b'.replay es
    | .error _ => b.replay es

/-- The calls of a list that are taken. -/
def accepted (b : EditBuffer) : List Edit → List Edit
  | [] => []
  | e :: es =>
    match b.apply e with
    | .ok b' => e :: b'.accepted es
    | .error _ => b.accepted es

/-- Makes a list of calls; the first one that is refused stops it. -/
def applyAll (b : EditBuffer) : List Edit → Except EditError EditBuffer
  | [] => .ok b
  | e :: es => do
      let b ← b.apply e
      b.applyAll es

theorem applyAll_accepted (b : EditBuffer) (calls : List Edit) :
    b.applyAll (b.accepted calls) = .ok (b.replay calls) := by
  induction calls generalizing b with
  | nil => rfl
  | cons e es ih =>
    rw [accepted, replay]
    cases he : b.apply e with
    | error _ => exact ih b
    | ok b' =>
      show b.applyAll (e :: b'.accepted es) = .ok (b'.replay es)
      rw [applyAll, he]
      exact ih b'

/-! ### What a call does -/

/-- The buffer with one more insertion at its place. -/
def withInsertion (b : EditBuffer) (i : Insertion) : EditBuffer :=
  { b with insertions := insertAfter Insertion.rank i b.insertions }

/-- The buffer with one more edit. -/
def withEdit (b : EditBuffer) : Edit → EditBuffer
  | .overwrite span text => b.withOverwrite ⟨span, text⟩
  | .insert pos side text => b.withInsertion ⟨pos, side, text⟩

@[simp] theorem withEdit_source (b : EditBuffer) (e : Edit) : (b.withEdit e).source = b.source := by
  cases e <;> rfl

variable {b b' : EditBuffer} {pos : Nat} {es : List Edit} {source : String}

/-- **An insertion is taken exactly when its offset can be cut and no overwrite holds it
inside.** -/
theorem insert_eq_ok_iff {side : Side} {text : String} :
    b.insert pos side text = .ok b' ↔
      (Text.IsAt b.source.toList pos [] ∧ ∀ o ∈ b.overwrites, splits pos o.span = false) ∧
        b' = b.withInsertion ⟨pos, side, text⟩ := by
  have hcuts : b.checkRange ⟨pos, pos⟩ = .ok () ↔ Text.IsAt b.source.toList pos [] := by
    rw [checkRange_eq_ok_iff]
    constructor
    · intro h
      exact h.isAt_start
    · intro h
      exact Span.cuts_of_isAt h h (Nat.le_refl _)
  have hplace : ∀ i : Insertion, b.insertions.takeWhile (fun j => j.before i) ++
      i :: b.insertions.dropWhile (fun j => j.before i) =
        insertAfter Insertion.rank i b.insertions := by
    intro i
    have hbefore : (fun j : Insertion => j.before i) = fun j => decide (j.rank ≤ i.rank) := by
      funext j
      rw [Bool.eq_iff_iff, decide_eq_true_eq]
      exact Insertion.before_iff
    rw [insertAfter, hbefore]
  unfold insert
  constructor
  · intro h
    obtain ⟨_, hrange, h⟩ := bind_eq_ok_iff.1 h
    split at h
    · cases h
    · rename_i hany
      refine ⟨⟨hcuts.1 hrange, ?_⟩, ?_⟩
      · intro o ho
        have := List.any_eq_false.1 (Bool.eq_false_iff.2 hany) o ho
        simpa using this
      · rw [← pure_eq_ok_iff.1 h, withInsertion, hplace]
  · rintro ⟨⟨hat, huncut⟩, rfl⟩
    have hany : (b.overwrites.any fun o => splits pos o.span) = false := by
      refine List.any_eq_false.2 ?_
      intro o ho
      simpa using huncut o ho
    rw [hcuts.2 hat]
    show (if (b.overwrites.any fun o => splits pos o.span) = true then _ else _) = _
    rw [hany, withInsertion, ← hplace]
    rfl

/-! ### Tidy buffers -/

/-- What holds of every buffer that calls lead to: the overwrites are a row of pieces of the source,
the insertions stand in order where the source can be cut, and none of them is inside an
overwrite. -/
structure Tidy (b : EditBuffer) : Prop where
  sound : b.Sound
  sorted : b.insertions.Pairwise fun i j => i.rank ≤ j.rank
  cuts : ∀ i ∈ b.insertions, Text.IsAt b.source.toList i.pos []
  uncut : ∀ o ∈ b.overwrites, ∀ i ∈ b.insertions, splits i.pos o.span = false

theorem tidy_ofSource (source : String) : (ofSource source).Tidy :=
  ⟨sound_ofSource source, List.Pairwise.nil, by simp [ofSource], by simp [ofSource]⟩

/-- The edits that a buffer holds. -/
def edits (b : EditBuffer) : List Edit :=
  b.overwrites.map (fun o => .overwrite o.span o.text) ++
    b.insertions.map fun i => .insert i.pos i.side i.text

theorem forall_mem_edits_iff {p : Edit → Prop} : (∀ e ∈ b.edits, p e) ↔
    (∀ o ∈ b.overwrites, p (.overwrite o.span o.text)) ∧
      ∀ i ∈ b.insertions, p (.insert i.pos i.side i.text) := by
  rw [edits, List.forall_mem_append, List.forall_mem_map, List.forall_mem_map]

theorem splits_eq_false_iff {span : Span} :
    splits pos span = false ↔ ¬(span.start < pos ∧ pos < span.stop) := by
  simp only [splits, Bool.and_eq_false_iff, decide_eq_false_iff_not]
  omega

theorem withEdit_edits_perm (b : EditBuffer) (e : Edit) :
    (b.withEdit e).edits.Perm (e :: b.edits) := by
  cases e with
  | overwrite span text =>
    have hperm := (b.withOverwrite_perm ⟨span, text⟩).map fun o => Edit.overwrite o.span o.text
    exact hperm.append_right _
  | insert pos side text =>
    have hperm : (b.withInsertion ⟨pos, side, text⟩).insertions.Perm
        (⟨pos, side, text⟩ :: b.insertions) := insertAfter_perm _ _
    exact ((hperm.map _).append_left _).trans List.perm_middle

section Steps

variable {b b' : EditBuffer} {e : Edit}

/-- **A call is taken exactly when it is one of the source and compatible with all that the buffer
holds**, and it adds the edit at its place. -/
theorem Tidy.apply_eq_ok_iff (h : b.Tidy) : b.apply e = .ok b' ↔
    (e.Fits b.source.toList ∧ ∀ f ∈ b.edits, f.Compatible e) ∧ b' = b.withEdit e := by
  cases e with
  | overwrite span text =>
    have hapart : ∀ o ∈ b.overwrites, span.start < span.stop → (o.span.intersects span = false ↔
        Edit.Compatible (.overwrite o.span o.text) (.overwrite span text)) := by
      intro o ho hne
      exact Span.intersects_eq_false_iff
        (h.sound.row.inside _ (List.mem_map_of_mem ho)).2.1 hne
    rw [apply, overwrite_eq_ok_iff, forall_mem_edits_iff]
    refine and_congr_left ?_
    intro _
    constructor
    · intro ha
      refine ⟨⟨ha.nonempty, ha.cuts⟩, ?_, ?_⟩
      · intro o ho
        exact (hapart o ho ha.nonempty).1 (ha.apart o ho)
      · intro i hi
        exact splits_eq_false_iff.1 (ha.uncut i hi)
    · rintro ⟨⟨hne, hcuts⟩, hoverwrites, hinsertions⟩
      refine ⟨hne, hcuts, ?_, ?_⟩
      · intro o ho
        exact (hapart o ho hne).2 (hoverwrites o ho)
      · intro i hi
        exact splits_eq_false_iff.2 (hinsertions i hi)
  | insert pos side text =>
    rw [apply, insert_eq_ok_iff, forall_mem_edits_iff]
    refine and_congr_left ?_
    intro _
    refine and_congr_right ?_
    intro _
    constructor
    · intro hsplits
      refine ⟨?_, fun _ _ => trivial⟩
      intro o ho
      exact splits_eq_false_iff.1 (hsplits o ho)
    · rintro ⟨hoverwrites, _⟩ o ho
      exact splits_eq_false_iff.2 (hoverwrites o ho)

/-- **A call that is taken keeps a buffer tidy.** -/
theorem Tidy.apply (h : b.Tidy) (he : b.apply e = .ok b') : b'.Tidy := by
  cases e with
  | overwrite span text =>
    obtain ⟨ha, rfl⟩ := overwrite_eq_ok_iff.1 he
    refine ⟨h.sound.withOverwrite ha, h.sorted, h.cuts, ?_⟩
    intro o ho i hi
    rcases List.mem_cons.1 ((b.withOverwrite_perm ⟨span, text⟩).mem_iff.1 ho) with rfl | ho
    · exact ha.uncut i hi
    · exact h.uncut o ho i hi
  | insert pos side text =>
    obtain ⟨⟨hat, huncut⟩, rfl⟩ := insert_eq_ok_iff.1 he
    have hmem : ∀ i ∈ (b.withInsertion ⟨pos, side, text⟩).insertions,
        i = ⟨pos, side, text⟩ ∨ i ∈ b.insertions := by
      intro i hi
      exact List.mem_cons.1 ((insertAfter_perm _ _).mem_iff.1 hi)
    refine ⟨⟨h.sound.row, h.sound.cuts⟩, pairwise_insertAfter h.sorted, ?_, ?_⟩
    · intro i hi
      rcases hmem i hi with rfl | hi
      · exact hat
      · exact h.cuts i hi
    · intro o ho i hi
      rcases hmem i hi with rfl | hi
      · exact huncut o ho
      · exact h.uncut o ho i hi

end Steps

/-! ### Lists of calls -/

/-- The buffer with a list of edits, each at its place. -/
def withEdits (b : EditBuffer) (es : List Edit) : EditBuffer := es.foldl withEdit b

/-- **All calls of a list are taken exactly when each is one of the source, they are compatible with
what the buffer holds, and they are compatible with each other.** -/
theorem Tidy.applyAll_eq_ok_iff (h : b.Tidy) :
    b.applyAll es = .ok b' ↔
      ((∀ e ∈ es, e.Fits b.source.toList) ∧ (∀ e ∈ es, ∀ f ∈ b.edits, f.Compatible e) ∧
        es.Pairwise Edit.Compatible) ∧ b' = b.withEdits es := by
  induction es generalizing b with
  | nil =>
    constructor
    · intro h'
      cases h'
      simp [withEdits]
    · rintro ⟨_, rfl⟩
      rfl
  | cons e es ih =>
    -- what is compatible with the buffer after `e` is compatible with `e` and the buffer before
    have hedits : ∀ g, (∀ f ∈ (b.withEdit e).edits, f.Compatible g) ↔
        e.Compatible g ∧ ∀ f ∈ b.edits, f.Compatible g := by
      intro g
      have hmem : ∀ f, f ∈ (b.withEdit e).edits ↔ f ∈ e :: b.edits := by
        intro f
        exact (b.withEdit_edits_perm e).mem_iff
      simp only [hmem, List.forall_mem_cons]
    rw [applyAll, bind_eq_ok_iff]
    constructor
    · rintro ⟨b₁, h₁, h₂⟩
      have htidy := h.apply h₁
      obtain ⟨⟨hfits, hcompat⟩, rfl⟩ := h.apply_eq_ok_iff.1 h₁
      obtain ⟨⟨hall, hold, hpairs⟩, rfl⟩ := (ih htidy).1 h₂
      rw [withEdit_source] at hall
      refine ⟨⟨List.forall_mem_cons.2 ⟨hfits, hall⟩, List.forall_mem_cons.2 ⟨hcompat, ?_⟩,
        List.pairwise_cons.2 ⟨?_, hpairs⟩⟩, rfl⟩
      · intro g hg
        exact ((hedits g).1 (hold g hg)).2
      · intro g hg
        exact ((hedits g).1 (hold g hg)).1
    · rintro ⟨⟨hall, hold, hpairs⟩, rfl⟩
      obtain ⟨hfits, hall⟩ := List.forall_mem_cons.1 hall
      obtain ⟨hcompat, hold⟩ := List.forall_mem_cons.1 hold
      obtain ⟨hfirst, hpairs⟩ := List.pairwise_cons.1 hpairs
      have h₁ : b.apply e = .ok (b.withEdit e) := h.apply_eq_ok_iff.2 ⟨⟨hfits, hcompat⟩, rfl⟩
      refine ⟨_, h₁, (ih (h.apply h₁)).2 ⟨⟨?_, ?_, hpairs⟩, rfl⟩⟩
      · rw [withEdit_source]
        exact hall
      · intro g hg
        exact (hedits g).2 ⟨hfirst g hg, hold g hg⟩

/-- What a buffer holds after a list of calls: the overwrites among them, and the insertions among
them, those at the same place and side in the order of the calls. -/
structure Holds (b : EditBuffer) (source : String) (es : List Edit) : Prop where
  source_eq : b.source = source
  tidy : b.Tidy
  overwrites : b.overwrites.Perm (es.filterMap Edit.overwrite?)
  insertions : ∀ k, b.insertions.filter (fun i => i.rank = k) =
    (es.filterMap Edit.insertion?).filter fun i => i.rank = k

theorem Holds.apply {e : Edit} (h : b.Holds source es) (he : b.apply e = .ok b') :
    b'.Holds source (es ++ [e]) := by
  have htidy := h.tidy.apply he
  obtain ⟨_, rfl⟩ := h.tidy.apply_eq_ok_iff.1 he
  refine ⟨(b.withEdit_source e).trans h.source_eq, htidy, ?_, ?_⟩
  · rw [List.filterMap_append]
    cases e with
    | overwrite span text =>
      exact (b.withOverwrite_perm _).trans ((h.overwrites.cons _).trans
        (List.perm_append_singleton _ _).symm)
    | insert pos side text =>
      show b.overwrites.Perm (es.filterMap Edit.overwrite? ++ [])
      rw [List.append_nil]
      exact h.overwrites
  · intro k
    rw [List.filterMap_append, List.filter_append, ← h.insertions k]
    cases e with
    | overwrite span text => simp [Edit.insertion?, withEdit, withOverwrite]
    | insert pos side text => exact filter_insertAfter h.tidy.sorted k

/-- **What a buffer holds after a list of calls that are all taken.** -/
theorem holds_of_applyAll (h : (ofSource source).applyAll es = .ok b) : b.Holds source es := by
  have hrun : ∀ (fs : List Edit) {b₀ : EditBuffer}, b₀.Holds source fs →
      b₀.applyAll es = .ok b → b.Holds source (fs ++ es) := by
    intro fs b₀ hb₀ happly
    clear h
    induction es generalizing b₀ fs with
    | nil =>
      cases happly
      rwa [List.append_nil]
    | cons e es ih =>
      obtain ⟨b₁, h₁, h₂⟩ := bind_eq_ok_iff.1 happly
      have := ih (fs ++ [e]) (hb₀.apply h₁) h₂
      rwa [List.append_assoc] at this
  exact hrun [] ⟨rfl, tidy_ofSource source, List.Perm.refl _, fun _ => rfl⟩ h

theorem holds_replay (source : String) (calls : List Edit) :
    ((ofSource source).replay calls).Holds source ((ofSource source).accepted calls) :=
  holds_of_applyAll (applyAll_accepted _ calls)

end EditBuffer

end CssRune
