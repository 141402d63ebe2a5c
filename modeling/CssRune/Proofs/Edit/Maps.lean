/-
**The map of a rendered buffer.**

The map that comes with a rendered text lists, in order, which range of the source each range of the
output stands for.  For every buffer that calls lead to, its ranges fill the source, they follow one
another in the output, and what lies between them in the output is what was inserted.  So the way
back from an output offset is known exactly for what was not inserted, and it never runs backwards.

Main results:

* `EditBuffer.Arranged.chain_origins` — the ranges of the source fill it;
* `EditBuffer.Arranged.shown_of_mem` — what each segment shows;
* `EditBuffer.Arranged.gapTexts_eq` — what stands between segments of the source;
* `SourceMap.Describes.leadsBack` — a map that describes an output leads back to the source;
* `EditBuffer.sourceMap_replay` — **after any calls, the map of a buffer describes what it renders
  and leads back to its source**.
-/

import CssRune.Proofs.Edit.Rendering
import CssRune.Proofs.Edit.Segments

set_option autoImplicit false

namespace CssRune

open Text

/-! ### Ranges with room between them -/

namespace Span

/-- The ranges follow one another between two offsets.  There may be room between them, and some of
them may be empty. -/
def Spread : Nat → Nat → List Span → Prop
  | lo, hi, [] => lo ≤ hi
  | lo, hi, s :: ss => lo ≤ s.start ∧ s.start ≤ s.stop ∧ Spread s.stop hi ss

/-- The ranges before, between and after the given ones, from an offset up to the end. -/
def gaps (stop : Nat) : Nat → List Span → List Span
  | start, [] => [⟨start, stop⟩]
  | start, s :: ss => ⟨start, s.start⟩ :: gaps stop s.stop ss

namespace Spread

variable {lo hi : Nat} {s : Span} {ss : List Span}

theorem le (h : Spread lo hi ss) : lo ≤ hi := by
  induction ss generalizing lo with
  | nil => exact h
  | cons s ss ih =>
    obtain ⟨hlo, hs, hss⟩ := h
    have := ih hss
    omega

theorem mono {lo' : Nat} (h : Spread lo hi ss) (hle : lo' ≤ lo) : Spread lo' hi ss := by
  cases ss with
  | nil => exact Nat.le_trans hle h
  | cons s ss => exact ⟨Nat.le_trans hle h.1, h.2⟩

theorem inside (h : Spread lo hi ss) (hs : s ∈ ss) :
    lo ≤ s.start ∧ s.start ≤ s.stop ∧ s.stop ≤ hi := by
  induction ss generalizing lo with
  | nil => cases hs
  | cons t ss ih =>
    obtain ⟨hlo, ht, hss⟩ := h
    rcases List.mem_cons.1 hs with rfl | hs
    · exact ⟨hlo, ht, hss.le⟩
    · have := ih hss hs
      omega

theorem pairwise (h : Spread lo hi ss) : ss.Pairwise fun s t => s.stop ≤ t.start := by
  induction ss generalizing lo with
  | nil => exact List.Pairwise.nil
  | cons s ss ih =>
    obtain ⟨_, _, hss⟩ := h
    refine List.pairwise_cons.2 ⟨?_, ih hss⟩
    intro t ht
    exact (hss.inside ht).1

theorem le_start_of_mem_gaps (h : Spread lo hi ss) {gap : Span} (hgap : gap ∈ gaps hi lo ss) :
    lo ≤ gap.start := by
  induction ss generalizing lo with
  | nil => exact Nat.le_of_eq (congrArg Span.start (List.mem_singleton.1 hgap)).symm
  | cons s ss ih =>
    obtain ⟨hlo, hs, hss⟩ := h
    rcases List.mem_cons.1 hgap with rfl | hgap
    · exact Nat.le_refl _
    · have := ih hss hgap
      omega

/-- **An offset lies in one of the ranges exactly if it lies in none of the gaps.** -/
theorem exists_contains_iff (h : Spread lo hi ss) {n : Nat} (hn : lo ≤ n) :
    (∃ s ∈ ss, s.contains n = true) ↔ n < hi ∧ ∀ gap ∈ gaps hi lo ss, gap.contains n = false := by
  induction ss generalizing lo with
  | nil =>
    simp [gaps, contains]
    omega
  | cons s ss ih =>
    obtain ⟨hlo, hs, hss⟩ := h
    simp only [gaps, List.mem_cons, forall_eq_or_imp, exists_eq_or_imp]
    rcases Nat.lt_or_ge n s.start with hbefore | hstart
    · -- before the first range there is the first gap
      constructor
      · rintro (hin | ⟨t, ht, hin⟩)
        · have := contains_iff.1 hin
          omega
        · have := contains_iff.1 hin
          have := hss.inside ht
          omega
      · rintro ⟨_, hgap, _⟩
        have hin : (Span.mk lo s.start).contains n = true := contains_iff.2 ⟨hn, hbefore⟩
        rw [hin] at hgap
        cases hgap
    · have hfirst : (Span.mk lo s.start).contains n = false := by
        simp [contains]
        omega
      rcases Nat.lt_or_ge n s.stop with hinside | hstop
      · -- in the first range all gaps after it are still to come
        have hlater : ∀ gap ∈ gaps hi s.stop ss, gap.contains n = false := by
          intro gap hgap
          have := hss.le_start_of_mem_gaps hgap
          simp [contains]
          omega
        have := hss.le
        exact ⟨fun _ => ⟨by omega, hfirst, hlater⟩,
          fun _ => .inl (contains_iff.2 ⟨hstart, hinside⟩)⟩
      · have hnot : ¬s.contains n = true := by
          simp [contains]
          omega
        rw [ih hss hstop]
        simp [hnot, hfirst]

end Spread

/-- The starts of the ranges of a chain, and its end, start with the start of the chain and go
up. -/
theorem Chain.exists_starts {lo hi : Nat} {ss : List Span} (h : Chain lo hi ss) :
    ∃ more, ss.map Span.start ++ [hi] = lo :: more ∧ ∀ p ∈ more, lo < p := by
  cases ss with
  | nil =>
    refine ⟨[], ?_, by simp⟩
    rw [show lo = hi from h]
    rfl
  | cons s ss =>
    obtain ⟨rfl, hs, hss⟩ := h
    refine ⟨ss.map Span.start ++ [hi], rfl, ?_⟩
    intro p hp
    rcases List.mem_append.1 hp with hp | hp
    · obtain ⟨t, ht, rfl⟩ := List.mem_map.1 hp
      have := (hss.row.inside t ht).1
      omega
    · have := hss.le
      rw [List.mem_singleton.1 hp]
      omega

end Span

/-! ### Mappings of segments -/

namespace Mapping

/-- The ranges of the output follow one another. -/
theorem spread_generated (at_ : Nat) (segs : List Segment) :
    Span.Spread at_ (at_ + byteLength (segs.flatMap Segment.text))
      ((ofSegments at_ segs).map Mapping.generated) := by
  induction segs generalizing at_ with
  | nil => exact Nat.le_refl at_
  | cons s segs ih =>
    rw [ofSegments, List.flatMap_cons, byteLength_append, ← Nat.add_assoc]
    cases s.origin? with
    | none => exact (ih _).mono (Nat.le_add_right _ _)
    | some span => exact ⟨Nat.le_refl _, Nat.le_add_right _ _, ih _⟩

/-- The texts between segments that stand for ranges of the source; `pending` is what has been
inserted since the last of them. -/
def gapTexts : List Char → List Segment → List (List Char)
  | pending, [] => [pending]
  | pending, s :: segs =>
    match s.origin? with
    | some _ => pending :: gapTexts [] segs
    | none => gapTexts (pending ++ s.text) segs

/-- Between the ranges of the mappings, the output shows what was inserted. -/
theorem map_slice_gaps {code pending : List Char} {start : Nat} {segs : List Segment}
    (h : IsAt code start (pending ++ segs.flatMap Segment.text)) :
    (Span.gaps (start + byteLength (pending ++ segs.flatMap Segment.text)) start
        ((ofSegments (start + byteLength pending) segs).map Mapping.generated)).map
          (slice code) = gapTexts pending segs := by
  induction segs generalizing start pending with
  | nil =>
    rw [List.flatMap_nil, List.append_nil] at h ⊢
    exact congrArg (· :: []) h.slice
  | cons s segs ih =>
    rw [List.flatMap_cons] at h ⊢
    rw [ofSegments, gapTexts]
    cases s.origin? with
    | none =>
      rw [← List.append_assoc] at h ⊢
      have := ih h
      rwa [byteLength_append pending, ← Nat.add_assoc] at this
    | some span =>
      have hpending : slice code ⟨start, start + byteLength pending⟩ = pending :=
        h.left.slice
      have hrest : IsAt code (start + byteLength pending + byteLength s.text)
          ([] ++ segs.flatMap Segment.text) := h.right.right
      have := ih hrest
      simp only [List.nil_append, byteLength_nil, Nat.add_zero] at this
      simp only [Span.gaps, List.map_cons, hpending, byteLength_append, ← Nat.add_assoc,
        this]

theorem gapTexts_copy {source : List Char} {start stop : Nat} (pending : List Char)
    (segs : List Segment) :
    gapTexts pending (EditBuffer.copy source start stop ++ segs) =
      if stop ≤ start then gapTexts pending segs else pending :: gapTexts [] segs := by
  unfold EditBuffer.copy
  split
  · rfl
  · rfl

end Mapping

/-! ### Segments of edits taken one by one -/

namespace EditBuffer

variable {source : List Char} {start : Nat} {os : List Overwrite} {is : List Insertion}

/-- **The ranges of the source that segments stand for fill it.** -/
theorem Arranged.chain_origins (h : Arranged source start os is) :
    Span.Chain start (byteLength source)
      ((segmentsFrom source start os is).filterMap Segment.origin?) := by
  induction h with
  | done hstart =>
    refine chain_copy source ?_
    have := hstart.stop_le
    rwa [byteLength_nil, Nat.add_zero] at this
  | insertion hstart hle hos his rest ih =>
    rw [segmentsFrom_insertion _ hle hos, List.filterMap_append]
    exact (chain_copy source hle).append ih
  | overwrite hstart hle hne hcuts hos his rest ih =>
    rw [segmentsFrom_overwrite _ fun i hi => Nat.lt_of_lt_of_le hne (his i hi),
      List.filterMap_append]
    exact (chain_copy source hle).append ⟨rfl, hne, ih⟩

/-- What a segment after an offset shows: a piece of the source that no overwrite meets, an
overwrite, or an insertion. -/
def Shown (source : List Char) (start : Nat) (os : List Overwrite) (is : List Insertion) :
    Segment → Prop
  | .copied span text => text = Text.slice source span ∧ span.Cuts source ∧ start ≤ span.start ∧
      ∀ o ∈ os, o.span.intersects span = false
  | .replaced span text => ⟨span, String.ofList text⟩ ∈ os
  | .inserted text => ∃ i ∈ is, text = i.text.toList

variable {s : Segment} {i : Insertion}

theorem shown_of_mem_copy {mid : Nat} (hstart : IsAt source start [])
    (hmid : IsAt source mid []) (hos : ∀ o ∈ os, mid ≤ o.span.start)
    (hs : s ∈ copy source start mid) : Shown source start os is s := by
  unfold copy at hs
  split at hs
  · cases hs
  · rename_i hlt
    rw [List.mem_singleton.1 hs]
    refine ⟨rfl, Span.cuts_of_isAt hstart hmid (by omega), Nat.le_refl _, ?_⟩
    intro o ho
    rw [Span.intersects_comm]
    exact Span.intersects_eq_false_of_le (hos o ho)

/-- **What each segment shows.** -/
theorem Arranged.shown_of_mem (h : Arranged source start os is)
    (hs : s ∈ segmentsFrom source start os is) : Shown source start os is s := by
  induction h with
  | done hstart =>
    refine shown_of_mem_copy hstart ?_ (by simp) hs
    exact Nat.zero_add (byteLength source) ▸ (isAt_self source).nil_right
  | insertion hstart hle hos his rest ih =>
    rw [segmentsFrom_insertion _ hle hos, List.mem_append, List.mem_cons] at hs
    rcases hs with hs | rfl | hs
    · exact shown_of_mem_copy hstart rest.isAt hos hs
    · exact ⟨_, List.mem_cons_self, rfl⟩
    · have hshown := ih hs
      cases s with
      | copied span text =>
        obtain ⟨htext, hcuts, hlo, happart⟩ := hshown
        exact ⟨htext, hcuts, Nat.le_trans hle hlo, happart⟩
      | replaced span text => exact hshown
      | inserted text =>
        obtain ⟨j, hj, htext⟩ := hshown
        exact ⟨j, List.mem_cons_of_mem _ hj, htext⟩
  | @overwrite start o os is hstart hle hne hcuts hos his rest ih =>
    have hlater : ∀ p ∈ o :: os, o.span.start ≤ p.span.start := by
      refine List.forall_mem_cons.2 ⟨Nat.le_refl _, ?_⟩
      intro p hp
      have := hos p hp
      omega
    rw [segmentsFrom_overwrite _ fun i hi => Nat.lt_of_lt_of_le hne (his i hi), List.mem_append,
      List.mem_cons] at hs
    rcases hs with hs | rfl | hs
    · exact shown_of_mem_copy hstart hcuts.isAt_start hlater hs
    · show (⟨o.span, String.ofList o.text.toList⟩ : Overwrite) ∈ o :: os
      rw [String.ofList_toList]
      exact List.mem_cons_self
    · have hshown := ih hs
      cases s with
      | copied span text =>
        obtain ⟨htext, hcuts, hlo, happart⟩ := hshown
        exact ⟨htext, hcuts, by omega,
          List.forall_mem_cons.2 ⟨Span.intersects_eq_false_of_le hlo, happart⟩⟩
      | replaced span text => exact List.mem_cons_of_mem _ hshown
      | inserted text => exact hshown

theorem insertedText_cons (i : Insertion) (is : List Insertion) :
    insertedText (i :: is) i.pos = i.text.toList ++ insertedText is i.pos := by
  rw [insertedText, List.filter_cons_of_pos (by simp), List.flatMap_cons, insertedText]

theorem insertedText_cons_of_ne {p : Nat} (h : i.pos ≠ p) (is : List Insertion) :
    insertedText (i :: is) p = insertedText is p := by
  rw [insertedText, List.filter_cons_of_neg (by simpa using h), insertedText]

/-- The offsets of the source between which segments stand for it. -/
def cutOffsets (source : List Char) (segs : List Segment) : List Nat :=
  (segs.filterMap Segment.origin?).map Span.start ++ [Text.byteLength source]

theorem Arranged.exists_cutOffsets (h : Arranged source start os is) :
    ∃ more, cutOffsets source (segmentsFrom source start os is) = start :: more ∧
      ∀ p ∈ more, start < p := h.chain_origins.exists_starts

theorem cutOffsets_copy {stop : Nat} (segs : List Segment) :
    cutOffsets source (copy source start stop ++ segs) =
      if stop ≤ start then cutOffsets source segs else start :: cutOffsets source segs := by
  unfold copy
  split
  · rfl
  · rfl

/-- **Between segments that stand for the source, there is what was inserted at that offset.** -/
theorem Arranged.gapTexts_eq (h : Arranged source start os is) (pending : List Char) :
    Mapping.gapTexts pending (segmentsFrom source start os is) =
      (pending ++ insertedText is start) ::
        (cutOffsets source (segmentsFrom source start os is)).tail.map (insertedText is) := by
  induction h generalizing pending with
  | @done start hstart =>
    have hsegs : segmentsFrom source start [] [] =
        copy source start (byteLength source) ++ [] := (List.append_nil _).symm
    rw [hsegs, Mapping.gapTexts_copy, cutOffsets_copy]
    split
    · simp [Mapping.gapTexts, cutOffsets, insertedText]
    · simp [Mapping.gapTexts, cutOffsets, insertedText]
  | @insertion start os i is hstart hle hos his rest ih =>
    obtain ⟨more, hmore, hlater⟩ := rest.exists_cutOffsets
    have hmap : more.map (insertedText (i :: is)) = more.map (insertedText is) := by
      refine List.map_congr_left ?_
      intro p hp
      exact insertedText_cons_of_ne (Nat.ne_of_lt (hlater p hp)) is
    have hgaps : ∀ pending, Mapping.gapTexts pending
        (.inserted i.text.toList :: segmentsFrom source i.pos os is) =
          (pending ++ insertedText (i :: is) i.pos) :: more.map (insertedText (i :: is)) := by
      intro pending
      rw [hmap, insertedText_cons, ← List.append_assoc]
      show Mapping.gapTexts (pending ++ i.text.toList) (segmentsFrom source i.pos os is) = _
      rw [ih, hmore, List.tail_cons]
    have hoffsets : cutOffsets source
        (.inserted i.text.toList :: segmentsFrom source i.pos os is) = i.pos :: more := hmore
    rw [segmentsFrom_insertion is hle hos, Mapping.gapTexts_copy, cutOffsets_copy, hgaps, hgaps,
      hoffsets]
    split
    · have heq : i.pos = start := by omega
      rw [heq, List.tail_cons]
    · have hnone : insertedText (i :: is) start = [] := by
        refine insertedText_eq_nil (List.forall_mem_cons.2 ⟨by omega, ?_⟩)
        intro j hj
        have := his j hj
        omega
      rw [hnone, List.append_nil, List.nil_append, List.tail_cons, List.map_cons]
  | @overwrite start o os is hstart hle hne hcuts hos his rest ih =>
    obtain ⟨more, hmore, hlater⟩ := rest.exists_cutOffsets
    have hnone : ∀ {p}, p < o.span.stop → insertedText is p = [] := by
      intro p hp
      refine insertedText_eq_nil ?_
      intro i hi
      have := his i hi
      omega
    have hgaps : ∀ pending, Mapping.gapTexts pending
        (.replaced o.span o.text.toList :: segmentsFrom source o.span.stop os is) =
          (pending ++ insertedText is o.span.start) ::
            (o.span.stop :: more).map (insertedText is) := by
      intro pending
      rw [hnone hne, List.append_nil]
      show pending :: Mapping.gapTexts [] (segmentsFrom source o.span.stop os is) = _
      rw [ih, hmore, List.tail_cons, List.nil_append, List.map_cons]
    have hoffsets : cutOffsets source
        (.replaced o.span o.text.toList :: segmentsFrom source o.span.stop os is) =
          o.span.start :: o.span.stop :: more := congrArg (o.span.start :: ·) hmore
    rw [segmentsFrom_overwrite os fun i hi => Nat.lt_of_lt_of_le hne (his i hi),
      Mapping.gapTexts_copy, cutOffsets_copy, hgaps, hgaps, hoffsets]
    split
    · have heq : o.span.start = start := by omega
      rw [heq, List.tail_cons]
    · rw [hnone (p := start) (by omega), List.append_nil, List.nil_append]
      rfl

/-- Every insertion stands at one of these offsets. -/
theorem Arranged.pos_mem_cutOffsets (h : Arranged source start os is) (hi : i ∈ is) :
    i.pos ∈ cutOffsets source (segmentsFrom source start os is) := by
  induction h with
  | done => cases hi
  | @insertion start os j is hstart hle hos his rest ih =>
    have hrest : i.pos ∈ cutOffsets source (segmentsFrom source j.pos os is) := by
      rcases List.mem_cons.1 hi with rfl | hi
      · obtain ⟨more, hmore, _⟩ := rest.exists_cutOffsets
        rw [hmore]
        exact List.mem_cons_self
      · exact ih hi
    rw [segmentsFrom_insertion is hle hos, cutOffsets_copy]
    split
    · exact hrest
    · exact List.mem_cons_of_mem _ hrest
  | @overwrite start o os is hstart hle hne hcuts hos his rest ih =>
    have hrest := List.mem_cons_of_mem o.span.start (ih hi)
    rw [segmentsFrom_overwrite os fun i hi => Nat.lt_of_lt_of_le hne (his i hi), cutOffsets_copy]
    split
    · exact hrest
    · exact List.mem_cons_of_mem _ hrest

end EditBuffer

/-! ### Maps -/

namespace SourceMap

/-- A map says how an output came from a source by edits: its ranges fill the source and follow one
another in the output, each stands for an overwrite or for a range that is as it was, and what lies
between them in the output is what was inserted there. -/
structure Describes (map : SourceMap) (source code : List Char) (es : List Edit) : Prop where
  origins : Span.Chain 0 (Text.byteLength source) (map.mappings.map Mapping.origin)
  generated : Span.Spread 0 (Text.byteLength code) (map.mappings.map Mapping.generated)
  texts : ∀ m ∈ map.mappings,
    (∃ text, .overwrite m.origin text ∈ es ∧ m.generated.Cuts code ∧
      Text.slice code m.generated = text.toList) ∨
    ((∀ span text, .overwrite span text ∈ es → span.intersects m.origin = false) ∧
      m.Verbatim source code)
  gaps : (Span.gaps (Text.byteLength code) 0 (map.mappings.map Mapping.generated)).map
      (Text.slice code) =
    ((map.mappings.map Mapping.origin).map Span.start ++ [Text.byteLength source]).map fun p =>
      Edit.insertedAt es .left p ++ Edit.insertedAt es .right p
  insertions : ∀ pos side text, .insert pos side text ∈ es →
    pos ∈ (map.mappings.map Mapping.origin).map Span.start ++ [Text.byteLength source]

/-- What the way back from an output does: it is known exactly for the offsets that lie in no gap,
leads into the range of the source that the mapping stands for, and never runs backwards. -/
structure LeadsBack (map : SourceMap) (code : List Char) : Prop where
  defined : ∀ n, (map.originOffset? n).isSome = true ↔ n < Text.byteLength code ∧
    ∀ gap ∈ Span.gaps (Text.byteLength code) 0 (map.mappings.map Mapping.generated),
      gap.contains n = false
  inside : ∀ n k, map.originOffset? n = some k →
    ∃ m ∈ map.mappings, m.generated.contains n = true ∧ m.origin.contains k = true
  monotone : ∀ n n' k k', n ≤ n' → map.originOffset? n = some k → map.originOffset? n' = some k' →
    k ≤ k'

variable {map : SourceMap}

theorem exists_of_originOffset? {n k : Nat} (h : map.originOffset? n = some k) :
    ∃ m ∈ map.mappings, m.generated.contains n = true ∧
      k = m.origin.start + min (n - m.generated.start) (m.origin.size - 1) := by
  obtain ⟨m, hfound, rfl⟩ := Option.map_eq_some_iff.1 h
  exact ⟨m, List.mem_of_find?_eq_some hfound, by simpa using List.find?_some hfound, rfl⟩

/-- **A map that describes an output leads back to the source.** -/
theorem Describes.leadsBack {source code : List Char} {es : List Edit}
    (h : map.Describes source code es) : map.LeadsBack code := by
  have hnonempty : ∀ m ∈ map.mappings, m.origin.start < m.origin.stop := by
    intro m hm
    exact (h.origins.row.inside _ (List.mem_map_of_mem hm)).2.1
  have hcontains : ∀ m ∈ map.mappings, ∀ d,
      m.origin.start ≤ m.origin.start + min d (m.origin.size - 1) ∧
        m.origin.start + min d (m.origin.size - 1) < m.origin.stop := by
    intro m hm d
    have := hnonempty m hm
    simp only [Span.size]
    omega
  refine ⟨?_, ?_, ?_⟩
  · intro n
    rw [← h.generated.exists_contains_iff (Nat.zero_le n), originOffset?, Option.isSome_map,
      List.find?_isSome]
    simp
  · intro n k hk
    obtain ⟨m, hm, hn, rfl⟩ := exists_of_originOffset? hk
    exact ⟨m, hm, hn, Span.contains_iff.2 (hcontains m hm _)⟩
  · intro n n' k k' hle hk hk'
    obtain ⟨m, hm, hn, rfl⟩ := exists_of_originOffset? hk
    obtain ⟨m', hm', hn', rfl⟩ := exists_of_originOffset? hk'
    have hn := Span.contains_iff.1 hn
    have hn' := Span.contains_iff.1 hn'
    by_cases heq : m = m'
    · subst heq
      omega
    · -- of two mappings the one that comes first in the output comes first in the source
      have hordered : map.mappings.Pairwise fun x y =>
          (x.generated.stop ≤ y.generated.start ∧ x.origin.stop ≤ y.origin.start) ∨
            (y.generated.stop ≤ x.generated.start ∧ y.origin.stop ≤ x.origin.start) := by
        refine ((List.pairwise_map.1 h.generated.pairwise).and
          (List.pairwise_map.1 h.origins.row.apart)).imp ?_
        intro x y hxy
        exact .inl hxy
      have hsymm : Std.Symm fun x y : Mapping =>
          (x.generated.stop ≤ y.generated.start ∧ x.origin.stop ≤ y.origin.start) ∨
            (y.generated.stop ≤ x.generated.start ∧ y.origin.stop ≤ x.origin.start) :=
        ⟨fun _ _ => Or.symm⟩
      have hapart := hordered.forall hm hm' heq
      have := hcontains m hm (n - m.generated.start)
      have := hcontains m' hm' (n' - m'.generated.start)
      omega

end SourceMap

namespace EditBuffer

variable {b : EditBuffer} {source : String} {es : List Edit}

/-- The overwrites of a buffer are those among its edits. -/
theorem Holds.mem_overwrites_iff (h : b.Holds source es) {o : Overwrite} :
    o ∈ b.overwrites ↔ .overwrite o.span o.text ∈ es := by
  rw [h.overwrites.mem_iff, List.mem_filterMap]
  constructor
  · rintro ⟨e, he, ho⟩
    cases e with
    | overwrite span text =>
      cases ho
      exact he
    | insert pos side text => cases ho
  · intro ho
    exact ⟨_, ho, rfl⟩

/-- Every insertion among the edits of a buffer is one of its insertions. -/
theorem Holds.mem_insertions (h : b.Holds source es) {i : Insertion}
    (hi : .insert i.pos i.side i.text ∈ es) : i ∈ b.insertions := by
  have hcall : i ∈ es.filterMap Edit.insertion? := List.mem_filterMap.2 ⟨_, hi, rfl⟩
  have hrank : i ∈ (es.filterMap Edit.insertion?).filter fun j => j.rank = i.rank :=
    List.mem_filter.2 ⟨hcall, by simp⟩
  rw [← h.insertions i.rank] at hrank
  exact (List.mem_filter.1 hrank).1

/-- The map of a buffer describes what it renders. -/
theorem Holds.describes (h : b.Holds source es) (name : String) :
    (b.sourceMap name).Describes source.toList b.render.toList es := by
  have harranged : Arranged source.toList 0 b.overwrites b.insertions :=
    h.source_eq ▸ h.tidy.arranged
  have hsegments : b.segments = segmentsFrom source.toList 0 b.overwrites b.insertions := by
    rw [segments, h.source_eq]
  have horigins : (b.sourceMap name).mappings.map Mapping.origin =
      (segmentsFrom source.toList 0 b.overwrites b.insertions).filterMap Segment.origin? := by
    rw [sourceMap, Mapping.map_origin_ofSegments, hsegments]
  refine ⟨?_, ?_, ?_, ?_, ?_⟩
  · rw [horigins]
    exact harranged.chain_origins
  · rw [sourceMap, toList_render, ← Nat.zero_add (byteLength _)]
    exact Mapping.spread_generated 0 b.segments
  · intro m hm
    obtain ⟨s, hs, horigin, hcuts, htext⟩ := Mapping.exists_segment b.isAt_render hm
    rw [hsegments] at hs
    have hshown := harranged.shown_of_mem hs
    cases s with
    | copied span text =>
      cases horigin
      obtain ⟨rfl, hspan, _, happart⟩ := hshown
      refine .inr ⟨?_, ⟨hspan, hcuts, htext⟩⟩
      intro other text hother
      exact happart ⟨other, text⟩ (h.mem_overwrites_iff.2 hother)
    | replaced span text =>
      cases horigin
      exact .inl ⟨_, h.mem_overwrites_iff.1 hshown, hcuts, by rw [htext, String.toList_ofList]; rfl⟩
    | inserted text => cases horigin
  · obtain ⟨more, hmore, _⟩ := harranged.exists_cutOffsets
    have hgaps := @Mapping.map_slice_gaps b.render.toList [] 0 b.segments b.isAt_render
    rw [List.nil_append, ← toList_render, byteLength_nil, Nat.zero_add] at hgaps
    rw [sourceMap, hgaps, hsegments, harranged.gapTexts_eq, hmore, ← hsegments,
      Mapping.map_origin_ofSegments, hsegments]
    show List.map (insertedText b.insertions) (0 :: more) = _
    rw [← hmore]
    refine List.map_congr_left ?_
    intro p _
    exact h.insertedText_eq p
  · intro pos side text hmem
    have hin : (⟨pos, side, text⟩ : Insertion) ∈ b.insertions := h.mem_insertions hmem
    rw [horigins]
    exact harranged.pos_mem_cutOffsets hin

/-- **After any calls, the map of a buffer describes what it renders and leads back to its
source.** -/
theorem sourceMap_replay (source : String) (calls : List Edit) (name : String) :
    let b := (ofSource source).replay calls
    (b.sourceMap name).Describes source.toList b.render.toList
        ((ofSource source).accepted calls) ∧
      (b.sourceMap name).LeadsBack b.render.toList :=
  have h := (holds_replay source calls).describes name
  ⟨h, h.leadsBack⟩

end EditBuffer

end CssRune
