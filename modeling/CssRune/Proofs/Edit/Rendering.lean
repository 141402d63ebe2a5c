/-
**What a buffer renders.**

Rendering merges two sorted lists with a cursor into the source.  What it should give can be said
without them: read the source from left to right, and at every offset put what the calls say.  This
module says it that way and proves that rendering does it, whatever the calls were and in whatever
order they were made.

Main results:

* `EditBuffer.Tidy.arranged` — the edits of a buffer can be taken one by one;
* `EditBuffer.segmentsFrom_insertion`, `EditBuffer.segmentsFrom_overwrite` — and that is how
  rendering takes them;
* `EditBuffer.Arranged.text_eq` — the rendered text is the reading;
* `EditBuffer.render_replay` — **after any calls, a buffer renders the reading of those that were
  taken**.
-/

import CssRune.Proofs.Edit.Histories
import CssRune.Proofs.Edit.Segments
import Mathlib.Data.List.Pairwise

set_option autoImplicit false

namespace CssRune

open Text

/-! ### Reading from left to right -/

/-- The source from the offset `p` on, read from left to right: at every offset first the text that
is inserted there, then what replaces the range that starts there, or else the next character.
Characters before the offset `resume` belong to a range that has been replaced. -/
def readingFrom (inserted : Nat → List Char) (replaced : Nat → Option (Nat × List Char)) :
    Nat → Nat → List Char → List Char
  | _, p, [] => inserted p
  | resume, p, c :: cs =>
    if p < resume then readingFrom inserted replaced resume (p + c.utf8Size) cs
    else
      inserted p ++
        match replaced p with
        | some (stop, text) => text ++ readingFrom inserted replaced stop (p + c.utf8Size) cs
        | none => c :: readingFrom inserted replaced resume (p + c.utf8Size) cs

namespace Edit

/-- The texts inserted at an offset on one side, in the order of the calls. -/
def insertedAt (es : List Edit) (side : Side) (p : Nat) : List Char :=
  es.flatMap fun
    | insert pos s text => if pos = p ∧ s = side then text.toList else []
    | overwrite _ _ => []

/-- What replaces the range that starts at an offset, and the end of the range. -/
def overwrittenAt? (es : List Edit) (p : Nat) : Option (Nat × List Char) :=
  es.findSome? fun
    | overwrite span text => if span.start = p then some (span.stop, text.toList) else none
    | insert _ _ _ => none

/-- What a list of edits makes of a source. -/
def reading (es : List Edit) (source : List Char) : List Char :=
  readingFrom (fun p => insertedAt es .left p ++ insertedAt es .right p) (overwrittenAt? es) 0 0
    source

/-- The texts inserted on one side are those of one rank. -/
theorem insertedAt_eq (es : List Edit) (side : Side) (p : Nat) :
    insertedAt es side p = ((es.filterMap insertion?).filter fun i =>
      i.rank = (Insertion.mk p side "").rank).flatMap fun i => i.text.toList := by
  induction es with
  | nil => rfl
  | cons e es ih =>
    cases e with
    | overwrite span text => exact ih
    | insert pos s text =>
      have hrank : (Insertion.mk pos s text).rank = (Insertion.mk p side "").rank ↔
          pos = p ∧ s = side := by
        cases s <;> cases side <;> simp [Insertion.rank] <;> omega
      have hhead : (insert pos s text :: es).filterMap insertion? =
          ⟨pos, s, text⟩ :: es.filterMap insertion? := rfl
      rw [insertedAt, List.flatMap_cons, hhead]
      by_cases h : pos = p ∧ s = side
      · rw [List.filter_cons_of_pos (by simpa using hrank.2 h), List.flatMap_cons, ← ih]
        simp only [h, and_self, if_true]
        rfl
      · rw [List.filter_cons_of_neg (by simpa using mt hrank.1 h), ← ih]
        simp only [h, if_false]
        rfl

theorem overwrittenAt?_eq (es : List Edit) (p : Nat) :
    overwrittenAt? es p = ((es.filterMap overwrite?).find? fun o => o.span.start = p).map fun o =>
      (o.span.stop, o.text.toList) := by
  induction es with
  | nil => rfl
  | cons e es ih =>
    cases e with
    | overwrite span text =>
      have hhead : (overwrite span text :: es).filterMap overwrite? =
          ⟨span, text⟩ :: es.filterMap overwrite? := rfl
      rw [overwrittenAt?, List.findSome?_cons, hhead]
      by_cases h : span.start = p
      · simp [h]
      · rw [List.find?_cons_of_neg (by simpa using h), ← ih]
        simp only [h, if_false]
        rfl
    | insert pos s text => exact ih

end Edit

section Reading

variable {inserted inserted' : Nat → List Char}
  {replaced replaced' : Nat → Option (Nat × List Char)}

variable {resume p : Nat} {cs piece rest text : List Char}

/-- Only what stands at the current offset or later matters. -/
theorem readingFrom_congr (hi : ∀ q, p ≤ q → inserted q = inserted' q)
    (hr : ∀ q, p ≤ q → replaced q = replaced' q) :
    readingFrom inserted replaced resume p cs = readingFrom inserted' replaced' resume p cs := by
  induction cs generalizing resume p with
  | nil => exact hi p (Nat.le_refl _)
  | cons c cs ih =>
    have hrest : ∀ resume, readingFrom inserted replaced resume (p + c.utf8Size) cs =
        readingFrom inserted' replaced' resume (p + c.utf8Size) cs := by
      intro resume
      refine ih ?_ ?_
      · intro q hq
        exact hi q (by omega)
      · intro q hq
        exact hr q (by omega)
    rw [readingFrom, readingFrom, hi p (Nat.le_refl _), hr p (Nat.le_refl _), hrest]
    cases replaced' p with
    | none => rfl
    | some r => simp only [hrest]

/-- The characters of a range that has been replaced are passed over. -/
theorem readingFrom_skip (p : Nat) (piece rest : List Char) :
    readingFrom inserted replaced (p + byteLength piece) p (piece ++ rest) =
      readingFrom inserted replaced (p + byteLength piece) (p + byteLength piece) rest := by
  induction piece generalizing p with
  | nil => rfl
  | cons c piece ih =>
    have hpos := c.utf8Size_pos
    rw [byteLength_cons, List.cons_append, readingFrom, if_pos (by omega), ← Nat.add_assoc,
      ih]

/-- Where nothing is inserted or replaced, the source is read as it is. -/
theorem readingFrom_copy (hresume : resume ≤ p)
    (hi : ∀ q, p ≤ q → q < p + byteLength piece → inserted q = [])
    (hr : ∀ q, p ≤ q → q < p + byteLength piece → replaced q = none) :
    readingFrom inserted replaced resume p (piece ++ rest) =
      piece ++ readingFrom inserted replaced resume (p + byteLength piece) rest := by
  induction piece generalizing p with
  | nil => rfl
  | cons c piece ih =>
    have hpos := c.utf8Size_pos
    rw [byteLength_cons, ← Nat.add_assoc] at hi hr ⊢
    rw [List.cons_append, readingFrom, if_neg (by omega), hi p (by omega) (by omega),
      hr p (by omega) (by omega), List.nil_append, List.cons_append]
    refine congrArg (c :: ·) (ih (by omega) ?_ ?_)
    · intro q hq hq'
      exact hi q (by omega) hq'
    · intro q hq hq'
      exact hr q (by omega) hq'

/-- Whether characters were passed over before does not matter once the range has been left. -/
theorem readingFrom_resume {resume' : Nat} (h : resume ≤ p) (h' : resume' ≤ p) :
    readingFrom inserted replaced resume p cs = readingFrom inserted replaced resume' p cs := by
  induction cs generalizing p with
  | nil => rfl
  | cons c cs ih =>
    rw [readingFrom, readingFrom, if_neg (by omega), if_neg (by omega)]
    cases replaced p with
    | none => simp only [ih (p := p + c.utf8Size) (by omega) (by omega)]
    | some r => rfl

/-- A text that is inserted at the current offset comes first. -/
theorem readingFrom_insert (hresume : resume ≤ p) (hp : inserted' p = text ++ inserted p)
    (hi : ∀ q, p < q → inserted' q = inserted q) :
    readingFrom inserted' replaced resume p cs =
      text ++ readingFrom inserted replaced resume p cs := by
  cases cs with
  | nil => exact hp
  | cons c cs =>
    have hpos := c.utf8Size_pos
    have hrest : ∀ resume, readingFrom inserted' replaced resume (p + c.utf8Size) cs =
        readingFrom inserted replaced resume (p + c.utf8Size) cs := by
      intro resume
      refine readingFrom_congr ?_ fun _ _ => rfl
      intro q hq
      exact hi q (by omega)
    rw [readingFrom, readingFrom, if_neg (by omega), if_neg (by omega), hp, List.append_assoc]
    cases replaced p with
    | none => simp only [hrest]
    | some r => simp only [hrest]

/-- A range that is replaced gives its text, and reading goes on after it. -/
theorem readingFrom_replace (hresume : resume ≤ p) (hne : piece ≠ []) (hi : inserted p = [])
    (hr : replaced p = some (p + byteLength piece, text)) :
    readingFrom inserted replaced resume p (piece ++ rest) =
      text ++ readingFrom inserted replaced (p + byteLength piece)
        (p + byteLength piece) rest := by
  obtain ⟨c, piece, rfl⟩ := List.exists_cons_of_ne_nil hne
  rw [List.cons_append, readingFrom, if_neg (by omega), hi, hr, List.nil_append,
    byteLength_cons, ← Nat.add_assoc]
  exact congrArg (text ++ ·) (readingFrom_skip _ piece rest)

end Reading

namespace EditBuffer

/-! ### Edits one by one -/

/-- The overwrites and insertions that are still to come at an offset can be taken one by one, each
of them at the offset where the one before it leaves off or later. -/
inductive Arranged (source : List Char) : Nat → List Overwrite → List Insertion → Prop
  | done {start : Nat} (hstart : Text.IsAt source start []) : Arranged source start [] []
  | insertion {start : Nat} {os : List Overwrite} {i : Insertion} {is : List Insertion}
      (hstart : Text.IsAt source start []) (hle : start ≤ i.pos)
      (hos : ∀ o ∈ os, i.pos ≤ o.span.start) (his : ∀ j ∈ is, i.pos ≤ j.pos)
      (rest : Arranged source i.pos os is) : Arranged source start os (i :: is)
  | overwrite {start : Nat} {o : Overwrite} {os : List Overwrite} {is : List Insertion}
      (hstart : Text.IsAt source start []) (hle : start ≤ o.span.start)
      (hne : o.span.start < o.span.stop) (hcuts : o.span.Cuts source)
      (hos : ∀ p ∈ os, o.span.stop ≤ p.span.start) (his : ∀ i ∈ is, o.span.stop ≤ i.pos)
      (rest : Arranged source o.span.stop os is) : Arranged source start (o :: os) is

variable {source : List Char}

variable {start p : Nat} {os : List Overwrite} {is : List Insertion} {i : Insertion}
  {b : EditBuffer} {o : Overwrite} {es : List Edit}

theorem Arranged.isAt (h : Arranged source start os is) : IsAt source start [] := by
  cases h with
  | done hstart => exact hstart
  | insertion hstart => exact hstart
  | overwrite hstart => exact hstart

theorem Insertion.pos_le_of_rank_le {j : Insertion} (h : i.rank ≤ j.rank) : i.pos ≤ j.pos := by
  obtain ⟨p, side, _⟩ := i
  obtain ⟨q, side', _⟩ := j
  cases side <;> cases side' <;> simp [Insertion.rank] at h ⊢ <;> omega

/-- A row of overwrites and sorted insertions outside them are still to come after an offset. -/
structure Pending (source : List Char) (start : Nat) (os : List Overwrite) (is : List Insertion) :
    Prop where
  isAt : Text.IsAt source start []
  row : Span.Row 0 start (Text.byteLength source) (os.map Overwrite.span)
  cuts : ∀ o ∈ os, o.span.Cuts source
  sorted : is.Pairwise fun i j => i.rank ≤ j.rank
  later : ∀ i ∈ is, start ≤ i.pos ∧ Text.IsAt source i.pos []
  uncut : ∀ o ∈ os, ∀ i ∈ is, splits i.pos o.span = false

namespace Pending

variable {start : Nat} {o : Overwrite} {os : List Overwrite} {i : Insertion} {is : List Insertion}

theorem pos_le (h : Pending source start os (i :: is)) : ∀ j ∈ is, i.pos ≤ j.pos := by
  intro j hj
  exact Insertion.pos_le_of_rank_le ((List.pairwise_cons.1 h.sorted).1 j hj)

theorem stop_le (h : Pending source start (o :: os) is) :
    ∀ p ∈ os, o.span.stop ≤ p.span.start := by
  intro p hp
  obtain ⟨_, _, _, hrest⟩ := h.row.of_cons
  exact (hrest.inside _ (List.mem_map_of_mem hp)).1

/-- An insertion that no overwrite starts before can be taken. -/
theorem insertion (h : Pending source start os (i :: is))
    (hbefore : ∀ o ∈ os, i.pos ≤ o.span.start) : Pending source i.pos os is where
  isAt := (h.later i List.mem_cons_self).2
  row := h.row.within (List.forall_mem_map.2 fun o ho =>
    ⟨hbefore o ho, (h.row.inside _ (List.mem_map_of_mem ho)).2.2⟩)
  cuts := h.cuts
  sorted := (List.pairwise_cons.1 h.sorted).2
  later := fun j hj => ⟨h.pos_le j hj, (h.later j (List.mem_cons_of_mem _ hj)).2⟩
  uncut := fun o ho j hj => h.uncut o ho j (List.mem_cons_of_mem _ hj)

/-- An overwrite that all insertions come after can be taken. -/
theorem overwrite (h : Pending source start (o :: os) is)
    (hpast : ∀ i ∈ is, o.span.stop ≤ i.pos) : Pending source o.span.stop os is := by
  obtain ⟨_, _, _, hrest⟩ := h.row.of_cons
  obtain ⟨ho, hcuts⟩ := List.forall_mem_cons.1 h.cuts
  refine ⟨ho.isAt_stop, hrest, hcuts, h.sorted, ?_, ?_⟩
  · intro j hj
    exact ⟨hpast j hj, (h.later j hj).2⟩
  · intro p hp j hj
    exact h.uncut p (List.mem_cons_of_mem _ hp) j hj

/-- The first insertion comes before all overwrites, or all insertions come after the first
overwrite. -/
theorem next (h : Pending source start (o :: os) (i :: is)) :
    (∀ p ∈ o :: os, i.pos ≤ p.span.start) ∨ ∀ j ∈ i :: is, o.span.stop ≤ j.pos := by
  obtain ⟨_, hne, _, _⟩ := h.row.of_cons
  by_cases hbefore : i.pos ≤ o.span.start
  · left
    refine List.forall_mem_cons.2 ⟨hbefore, ?_⟩
    intro p hp
    have := h.stop_le p hp
    omega
  · right
    have hsplit := splits_eq_false_iff.1 (h.uncut o List.mem_cons_self i List.mem_cons_self)
    refine List.forall_mem_cons.2 ⟨by omega, ?_⟩
    intro j hj
    have := h.pos_le j hj
    omega

end Pending

/-- Edits that are still to come can be taken one by one. -/
theorem Pending.arranged (h : Pending source start os is) : Arranged source start os is := by
  induction os generalizing start is with
  | nil =>
    induction is generalizing start with
    | nil => exact .done h.isAt
    | cons i is ih =>
      exact .insertion h.isAt (h.later i List.mem_cons_self).1 nofun h.pos_le
        (ih (h.insertion nofun))
  | cons o os ih =>
    have htake : ∀ {start : Nat} {is : List Insertion}, Pending source start (o :: os) is →
        (∀ i ∈ is, o.span.stop ≤ i.pos) → Arranged source start (o :: os) is := by
      intro start is h hpast
      obtain ⟨hlo, hne, _, _⟩ := h.row.of_cons
      exact .overwrite h.isAt hlo hne (h.cuts o List.mem_cons_self) h.stop_le hpast
        (ih (h.overwrite hpast))
    induction is generalizing start with
    | nil => exact htake h nofun
    | cons i is ihis =>
      rcases h.next with hbefore | hpast
      · exact .insertion h.isAt (h.later i List.mem_cons_self).1 hbefore h.pos_le
          (ihis (h.insertion hbefore))
      · exact htake h hpast

/-- **The edits of a tidy buffer can be taken one by one.** -/
theorem Tidy.arranged (h : b.Tidy) : Arranged b.source.toList 0 b.overwrites b.insertions :=
  Pending.arranged ⟨⟨[], b.source.toList, rfl, rfl⟩, h.sound.row, h.sound.cuts, h.sorted,
    fun i hi => ⟨Nat.zero_le _, h.cuts i hi⟩, h.uncut⟩

/-! ### Segments one by one -/

/-- The next insertion is rendered after a copy of the source up to it. -/
theorem segmentsFrom_insertion (is : List Insertion) (hle : start ≤ i.pos)
    (hos : ∀ o ∈ os, i.pos ≤ o.span.start) :
    segmentsFrom source start os (i :: is) =
      copy source start i.pos ++ .inserted i.text.toList :: segmentsFrom source i.pos os is := by
  have hmax : max start i.pos = i.pos := by omega
  cases os with
  | nil => simp only [segmentsFrom, insertionRun, hmax, List.append_assoc, List.cons_append]
  | cons o os =>
    have hbefore := hos o List.mem_cons_self
    rw [segmentsFrom, List.takeWhile_cons_of_pos (by simpa using hbefore),
      List.dropWhile_cons_of_pos (by simpa using hbefore)]
    simp only [segmentsFrom, insertionRun, hmax, List.append_assoc, List.cons_append]

/-- The next overwrite is rendered after a copy of the source up to it. -/
theorem segmentsFrom_overwrite (os : List Overwrite) (his : ∀ i ∈ is, o.span.start < i.pos) :
    segmentsFrom source start (o :: os) is =
      copy source start o.span.start ++ .replaced o.span o.text.toList ::
        segmentsFrom source o.span.stop os is := by
  cases is with
  | nil => rfl
  | cons i is =>
    have hafter := his i List.mem_cons_self
    rw [segmentsFrom, List.takeWhile_cons_of_neg (by simpa using hafter),
      List.dropWhile_cons_of_neg (by simpa using hafter)]
    rfl

/-! ### The rendered text -/

/-- The texts of insertions at an offset. -/
def insertedText (is : List Insertion) (p : Nat) : List Char :=
  (is.filter fun i => i.pos = p).flatMap fun i => i.text.toList

/-- What replaces the range that starts at an offset, and the end of the range. -/
def replacedText (os : List Overwrite) (p : Nat) : Option (Nat × List Char) :=
  (os.find? fun o => o.span.start = p).map fun o => (o.span.stop, o.text.toList)

theorem insertedText_eq_nil (h : ∀ i ∈ is, p < i.pos) : insertedText is p = [] := by
  have hnone : (is.filter fun i => i.pos = p) = [] := by
    refine List.filter_eq_nil_iff.2 ?_
    intro i hi
    have := h i hi
    simp only [decide_eq_true_eq]
    omega
  rw [insertedText, hnone, List.flatMap_nil]

theorem replacedText_eq_none (h : ∀ o ∈ os, p < o.span.start) : replacedText os p = none := by
  rw [replacedText, Option.map_eq_none_iff, List.find?_eq_none]
  intro o ho
  have := h o ho
  simp only [decide_eq_true_eq]
  omega

/-- The source after an offset starts with the range up to a later one. -/
theorem dropBytes_eq_slice_append {s : Span} (h : s.Cuts source) :
    dropBytes s.start source = slice source s ++ dropBytes s.stop source := by
  obtain ⟨front, back, hsource, hfront⟩ := h.isAt_slice
  have hstop : s.stop = byteLength (front ++ slice source s) := by
    have := h.byteLength_slice
    have := h.le
    rw [byteLength_append]
    omega
  generalize slice source s = piece at hsource hstop
  rw [hsource, ← hfront, dropBytes_byteLength_append, hstop, ← List.append_assoc front,
    dropBytes_byteLength_append]

/-- Up to the next edit the source is read as it is. -/
theorem readingFrom_upTo {mid : Nat} (hstart : IsAt source start [])
    (hmid : IsAt source mid []) (hle : start ≤ mid) (hos : ∀ o ∈ os, mid ≤ o.span.start)
    (his : ∀ i ∈ is, mid ≤ i.pos) :
    readingFrom (insertedText is) (replacedText os) start start (dropBytes start source) =
      slice source ⟨start, mid⟩ ++
        readingFrom (insertedText is) (replacedText os) mid mid (dropBytes mid source) := by
  have hcuts := Span.cuts_of_isAt hstart hmid hle
  have hlength : start + byteLength (slice source ⟨start, mid⟩) = mid := by
    have := hcuts.byteLength_slice
    simp only at this
    omega
  have hdrop : dropBytes start source =
      slice source ⟨start, mid⟩ ++ dropBytes mid source := dropBytes_eq_slice_append hcuts
  rw [hdrop, readingFrom_copy (Nat.le_refl _) ?_ ?_, hlength,
    readingFrom_resume hle (Nat.le_refl _)]
  · intro q _ hq
    refine insertedText_eq_nil ?_
    intro i hi
    have := his i hi
    omega
  · intro q _ hq
    refine replacedText_eq_none ?_
    intro o ho
    have := hos o ho
    omega

/-- **The rendered text is the reading.** -/
theorem Arranged.text_eq (h : Arranged source start os is) :
    (segmentsFrom source start os is).flatMap Segment.text =
      readingFrom (insertedText is) (replacedText os) start start
        (dropBytes start source) := by
  induction h with
  | @done start hstart =>
    have hend : IsAt source (byteLength source) [] :=
      Nat.zero_add (byteLength source) ▸ (isAt_self source).nil_right
    have hle := hstart.stop_le
    rw [byteLength_nil, Nat.add_zero] at hle
    have hnil : dropBytes (byteLength source) source = [] := by
      have := dropBytes_byteLength_append source []
      rwa [List.append_nil] at this
    rw [readingFrom_upTo hstart hend hle (by simp) (by simp), hnil]
    show (copy source start (byteLength source)).flatMap Segment.text = _ ++ []
    rw [flatMap_text_copy, List.append_nil]
  | @insertion start os i is hstart hle hos his rest ih =>
    have hlater : ∀ j ∈ i :: is, i.pos ≤ j.pos := List.forall_mem_cons.2 ⟨Nat.le_refl _, his⟩
    rw [segmentsFrom_insertion is hle hos, readingFrom_upTo hstart rest.isAt hle hos hlater,
      List.flatMap_append, flatMap_text_copy, List.flatMap_cons, ih]
    refine congrArg (_ ++ ·) (readingFrom_insert (Nat.le_refl _) ?_ ?_).symm
    · rw [insertedText, List.filter_cons_of_pos (by simp), List.flatMap_cons]
      rfl
    · intro q hq
      rw [insertedText, List.filter_cons_of_neg (by simp; omega)]
      rfl
  | @overwrite start o os is hstart hle hne hcuts hos his rest ih =>
    have hafter : ∀ i ∈ is, o.span.start < i.pos := by
      intro i hi
      have := his i hi
      omega
    have hlater : ∀ p ∈ o :: os, o.span.start ≤ p.span.start := by
      refine List.forall_mem_cons.2 ⟨Nat.le_refl _, ?_⟩
      intro p hp
      have := hos p hp
      omega
    have hlength : o.span.start + byteLength (slice source o.span) = o.span.stop := by
      have := hcuts.byteLength_slice
      omega
    have hslice : slice source o.span ≠ [] := by
      intro hnil
      rw [hnil, byteLength_nil] at hlength
      omega
    have hfirst : replacedText (o :: os) o.span.start =
        some (o.span.start + byteLength (slice source o.span), o.text.toList) := by
      rw [hlength, replacedText, List.find?_cons_of_pos (by simp)]
      rfl
    rw [segmentsFrom_overwrite os hafter, readingFrom_upTo hstart hcuts.isAt_start hle hlater
        (fun i hi => Nat.le_of_lt (hafter i hi)), List.flatMap_append, flatMap_text_copy,
      List.flatMap_cons, ih, dropBytes_eq_slice_append hcuts,
      readingFrom_replace (Nat.le_refl _) hslice (insertedText_eq_nil hafter) hfirst, hlength]
    refine congrArg (_ ++ ·) (congrArg (o.text.toList ++ ·) (readingFrom_congr ?_ ?_))
    · exact fun _ _ => rfl
    · intro q hq
      rw [replacedText, replacedText, List.find?_cons_of_neg (by simp; omega)]

/-! ### The reading of a list of calls -/

/-- Overwrites that start at one offset are the same. -/
theorem Sound.eq_of_start_eq (h : b.Sound) {p : Overwrite} (ho : o ∈ b.overwrites)
    (hp : p ∈ b.overwrites) (heq : o.span.start = p.span.start) : o = p := by
  by_contra hne
  have hapart : b.overwrites.Pairwise fun o p => o.span.start ≠ p.span.start := by
    refine (List.pairwise_map.1 h.row.apart).imp_of_mem ?_
    intro o p ho _ hstop
    have := (h.row.inside _ (List.mem_map_of_mem ho)).2.1
    omega
  have hsymm : Std.Symm fun o p : Overwrite => o.span.start ≠ p.span.start :=
    ⟨fun _ _ h => h.symm⟩
  exact hapart.forall ho hp hne heq

/-- What the buffer replaces at an offset is what the calls say. -/
theorem Holds.replacedText_eq {source : String} (h : b.Holds source es) (p : Nat) :
    replacedText b.overwrites p = Edit.overwrittenAt? es p := by
  rw [Edit.overwrittenAt?_eq, replacedText]
  refine congrArg _ ?_
  cases hfound : (es.filterMap Edit.overwrite?).find? fun o => o.span.start = p with
  | none =>
    rw [List.find?_eq_none] at hfound ⊢
    intro o ho
    exact hfound o (h.overwrites.mem_iff.1 ho)
  | some o =>
    have ho := h.overwrites.mem_iff.2 (List.mem_of_find?_eq_some hfound)
    have hstart : o.span.start = p := by simpa using List.find?_some hfound
    cases hfound' : b.overwrites.find? fun o => o.span.start = p with
    | none => exact absurd (List.find?_eq_none.1 hfound' o ho) (by simpa using hstart)
    | some o' =>
      have hstart' : o'.span.start = p := by simpa using List.find?_some hfound'
      exact congrArg some (h.tidy.sound.eq_of_start_eq (List.mem_of_find?_eq_some hfound') ho
        (hstart'.trans hstart.symm))

/-- Of sorted insertions at one offset, those on the left side come first. -/
theorem filter_pos_eq (h : is.Pairwise fun i j => i.rank ≤ j.rank) (p : Nat) :
    is.filter (fun i => i.pos = p) =
      is.filter (fun i => i.rank = 2 * p) ++ is.filter fun i => i.rank = 2 * p + 1 := by
  induction is with
  | nil => rfl
  | cons i is ih =>
    obtain ⟨hfirst, hrest⟩ := List.pairwise_cons.1 h
    have hside : (i.side = .left ∧ i.rank = 2 * i.pos) ∨
        (i.side = .right ∧ i.rank = 2 * i.pos + 1) := by
      obtain ⟨q, side, text⟩ := i
      cases side <;> simp [Insertion.rank]
    by_cases hp : i.pos = p
    · rw [List.filter_cons_of_pos (by simpa using hp), ih hrest]
      rcases hside with ⟨_, hrank⟩ | ⟨_, hrank⟩
      · rw [List.filter_cons_of_pos (by simp; omega), List.filter_cons_of_neg (by simp; omega)]
        rfl
      · -- on the right side, no insertion on the left can follow
        have hnone : (is.filter fun i => i.rank = 2 * p) = [] := by
          refine List.filter_eq_nil_iff.2 ?_
          intro j hj
          have := hfirst j hj
          simp only [decide_eq_true_eq]
          omega
        rw [List.filter_cons_of_neg (by simp; omega), List.filter_cons_of_pos (by simp; omega),
          hnone]
        rfl
    · rw [List.filter_cons_of_neg (by simpa using hp), ih hrest,
        List.filter_cons_of_neg (by simp; omega), List.filter_cons_of_neg (by simp; omega)]

theorem Holds.insertedText_eq {source : String} (h : b.Holds source es) (p : Nat) :
    insertedText b.insertions p = Edit.insertedAt es .left p ++ Edit.insertedAt es .right p := by
  rw [insertedText, filter_pos_eq h.tidy.sorted, h.insertions, h.insertions, List.flatMap_append,
    Edit.insertedAt_eq, Edit.insertedAt_eq]
  rfl

/-- A buffer renders the reading of the edits that it holds. -/
theorem Holds.render_eq {source : String} (h : b.Holds source es) :
    b.render = String.ofList (Edit.reading es source.toList) := by
  have hinserted : insertedText b.insertions =
      fun p => Edit.insertedAt es .left p ++ Edit.insertedAt es .right p := funext h.insertedText_eq
  have hreplaced : replacedText b.overwrites = Edit.overwrittenAt? es := funext h.replacedText_eq
  rw [render, segments, h.tidy.arranged.text_eq, hinserted, hreplaced, h.source_eq,
    dropBytes_zero, Edit.reading]

/-- **After any calls, a buffer renders the reading of those that were taken.** -/
theorem render_replay (source : String) (calls : List Edit) :
    ((ofSource source).replay calls).render =
      String.ofList (Edit.reading ((ofSource source).accepted calls) source.toList) :=
  (holds_replay source calls).render_eq

end EditBuffer

end CssRune
