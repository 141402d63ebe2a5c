/-
**What a rendered buffer shows.**

A buffer that has only been overwritten renders its overwrites, and between them the source as it
is.  The map back to the source says so: its ranges fill the source on one side and the output on
the other, and a range of the source that was not overwritten stands for its own text.

* `EditBuffer.chain_origins` — the segments fill the source;
* `EditBuffer.shows_of_mem_segmentsFrom` — a segment copies the source or is an overwrite;
* `Mapping.exists_segment`, `Mapping.exists_mapping` — mappings and segments;
* `EditBuffer.Sound.chain_mappings`, `EditBuffer.Sound.links_mappings` — the map covers the source
  and the output;
* `EditBuffer.Sound.verbatim_of_mem_mappings` — **outside the overwrites the output is the source**;
* `EditBuffer.exists_mapping_of_mem_overwrites` — every overwrite is found in the output;
* `SourceMap.Accounts`, `EditBuffer.Sound.accounts` — all of this together.
-/

import CssRune.Edit.Segments
import CssRune.Proofs.Edit.Buffers

set_option autoImplicit false

namespace CssRune

open Text

namespace EditBuffer

variable {source : List Char}

/-! ### Segments -/

theorem segmentsFrom_cons (source : List Char) (start : Nat) (o : Overwrite)
    (os : List Overwrite) :
    segmentsFrom source start (o :: os) [] =
      copy source start o.span.start ++ .replaced o.span o.text.toList ::
        segmentsFrom source o.span.stop os [] := rfl

theorem flatMap_text_copy (source : List Char) (start stop : Nat) :
    (copy source start stop).flatMap Segment.text = slice source ⟨start, stop⟩ := by
  unfold copy
  split
  · have hzero : stop - start = 0 := by omega
    simp [slice, hzero]
  · exact List.append_nil _

variable {start stop : Nat} {os : List Overwrite} {s : Segment}

theorem chain_copy (source : List Char) (h : start ≤ stop) :
    Span.Chain start stop ((copy source start stop).filterMap Segment.origin?) := by
  unfold copy
  split
  · exact Nat.le_antisymm h ‹_›
  · exact ⟨rfl, Nat.not_le.1 ‹_›, rfl⟩

/-- The segments after an offset fill the rest of the source. -/
theorem chain_origins (hstart : start ≤ byteLength source)
    (hrow : Span.Row 0 start (byteLength source) (os.map Overwrite.span)) :
    Span.Chain start (byteLength source)
      ((segmentsFrom source start os []).filterMap Segment.origin?) := by
  induction os generalizing start with
  | nil => exact chain_copy source hstart
  | cons o os ih =>
    obtain ⟨hlo, hlt, hhi, hrest⟩ := hrow.of_cons
    rw [segmentsFrom_cons, List.filterMap_append]
    exact (chain_copy source hlo).append ⟨rfl, hlt, ih hhi hrest⟩

/-- What a segment shows: a piece of the source as it is, or an overwrite. -/
def Shows (source : List Char) (os : List Overwrite) (s : Segment) : Prop :=
  (∃ span : Span, s = .copied span (Text.slice source span) ∧ span.Cuts source) ∨
    ∃ o ∈ os, s = .replaced o.span o.text.toList

theorem shows_of_mem_copy (hstart : IsAt source start []) (hstop : IsAt source stop [])
    (h : s ∈ copy source start stop) : Shows source os s := by
  unfold copy at h
  split at h
  · cases h
  · rename_i hlt
    exact .inl ⟨_, List.mem_singleton.1 h,
      Span.cuts_of_isAt hstart hstop (Nat.le_of_lt (Nat.not_le.1 hlt))⟩

/-- **A segment copies the source or is an overwrite.** -/
theorem shows_of_mem_segmentsFrom (hstart : IsAt source start [])
    (hcuts : ∀ o ∈ os, o.span.Cuts source) (h : s ∈ segmentsFrom source start os []) :
    Shows source os s := by
  induction os generalizing start with
  | nil =>
    refine shows_of_mem_copy hstart ?_ h
    exact Nat.zero_add (byteLength source) ▸ (isAt_self source).nil_right
  | cons o os ih =>
    obtain ⟨ho, hos⟩ := List.forall_mem_cons.1 hcuts
    rw [segmentsFrom_cons, List.mem_append, List.mem_cons] at h
    rcases h with h | rfl | h
    · exact shows_of_mem_copy hstart ho.isAt_start h
    · exact .inr ⟨o, List.mem_cons_self, rfl⟩
    · rcases ih ho.isAt_stop hos h with hcopy | ⟨p, hp, rfl⟩
      · exact .inl hcopy
      · exact .inr ⟨p, List.mem_cons_of_mem o hp, rfl⟩

theorem replaced_mem_segmentsFrom {o : Overwrite} (h : o ∈ os) :
    .replaced o.span o.text.toList ∈ segmentsFrom source start os [] := by
  induction os generalizing start with
  | nil => cases h
  | cons p os ih =>
    rw [segmentsFrom_cons, List.mem_append, List.mem_cons]
    rcases List.mem_cons.1 h with rfl | h
    · exact .inr (.inl rfl)
    · exact .inr (.inr (ih h))

end EditBuffer

/-! ### Mappings -/

namespace Mapping

variable {code : List Char} {at_ : Nat} {segs : List Segment}

theorem map_origin_ofSegments (at_ : Nat) (segs : List Segment) :
    (ofSegments at_ segs).map Mapping.origin = segs.filterMap Segment.origin? := by
  induction segs generalizing at_ with
  | nil => rfl
  | cons s segs ih =>
    rw [ofSegments]
    cases ho : s.origin? with
    | none => rw [List.filterMap_cons_none ho]; exact ih _
    | some span => rw [List.filterMap_cons_some ho, List.map_cons, ih]

/-- If every segment stands for a range of the source, the mappings fill the output. -/
theorem links_generated (h : ∀ s ∈ segs, s.origin?.isSome = true) :
    Span.Links at_ (at_ + byteLength (segs.flatMap Segment.text))
      ((ofSegments at_ segs).map Mapping.generated) := by
  induction segs generalizing at_ with
  | nil => rfl
  | cons s segs ih =>
    obtain ⟨hs, hsegs⟩ := List.forall_mem_cons.1 h
    obtain ⟨span, hspan⟩ := Option.isSome_iff_exists.1 hs
    rw [ofSegments, hspan, List.flatMap_cons, byteLength_append, ← Nat.add_assoc]
    exact ⟨rfl, Nat.le_add_right _ _, ih hsegs⟩

/-- A mapping stands for a segment: it has its range, and the output shows its text there. -/
theorem exists_segment (hcode : IsAt code at_ (segs.flatMap Segment.text)) {m : Mapping}
    (h : m ∈ ofSegments at_ segs) :
    ∃ s ∈ segs, s.origin? = some m.origin ∧ m.generated.Cuts code ∧
      slice code m.generated = s.text := by
  induction segs generalizing at_ with
  | nil => cases h
  | cons s segs ih =>
    rw [List.flatMap_cons] at hcode
    rw [ofSegments] at h
    cases ho : s.origin? with
    | none =>
      rw [ho] at h
      obtain ⟨t, ht, hm⟩ := ih hcode.right h
      exact ⟨t, List.mem_cons_of_mem s ht, hm⟩
    | some span =>
      rw [ho] at h
      rcases List.mem_cons.1 h with rfl | h
      · exact ⟨s, List.mem_cons_self, ho, ⟨s.text, hcode.left, rfl⟩, hcode.left.slice⟩
      · obtain ⟨t, ht, hm⟩ := ih hcode.right h
        exact ⟨t, List.mem_cons_of_mem s ht, hm⟩

/-- Every segment that stands for a range of the source has a mapping. -/
theorem exists_mapping (hcode : IsAt code at_ (segs.flatMap Segment.text)) {s : Segment}
    (hs : s ∈ segs) {span : Span} (ho : s.origin? = some span) :
    ∃ m ∈ ofSegments at_ segs, m.origin = span ∧ slice code m.generated = s.text := by
  induction segs generalizing at_ with
  | nil => cases hs
  | cons t segs ih =>
    rw [List.flatMap_cons] at hcode
    rw [ofSegments]
    rcases List.mem_cons.1 hs with rfl | hs
    · rw [ho]
      exact ⟨_, List.mem_cons_self, rfl, hcode.left.slice⟩
    · obtain ⟨m, hm, hspan, htext⟩ := ih hcode.right hs
      cases t.origin? with
      | none => exact ⟨m, hm, hspan, htext⟩
      | some _ => exact ⟨m, List.mem_cons_of_mem _ hm, hspan, htext⟩

/-- The range of the source and the one of the output hold the same text. -/
structure Verbatim (source code : List Char) (m : Mapping) : Prop where
  cuts_origin : m.origin.Cuts source
  cuts_generated : m.generated.Cuts code
  slice_eq : Text.slice code m.generated = Text.slice source m.origin

end Mapping

/-- A map accounts for a source and an output: its ranges fill both, the edited ranges are among
them, and all others stand for their own text. -/
structure SourceMap.Accounts (map : SourceMap) (source code : List Char) (edited : List Span) :
    Prop where
  origins : Span.Chain 0 (Text.byteLength source) (map.mappings.map Mapping.origin)
  generated : Span.Links 0 (Text.byteLength code) (map.mappings.map Mapping.generated)
  verbatim : ∀ m ∈ map.mappings, m.origin ∈ edited ∨ m.Verbatim source code
  edits : ∀ range ∈ edited, ∃ m ∈ map.mappings, m.origin = range

theorem SourceMap.Accounts.of_perm {map : SourceMap} {source code : List Char} {ss ts : List Span}
    (h : map.Accounts source code ss) (hp : ss.Perm ts) : map.Accounts source code ts :=
  ⟨h.origins, h.generated, fun m hm => (h.verbatim m hm).imp_left hp.mem_iff.1,
    fun range hrange => h.edits range (hp.mem_iff.2 hrange)⟩

/-! ### Rendered buffers -/

namespace EditBuffer

variable {b : EditBuffer} (name : String)

theorem segments_eq (h : b.insertions = []) :
    b.segments = segmentsFrom b.source.toList 0 b.overwrites [] := by
  rw [segments, h]

theorem toList_render (b : EditBuffer) : b.render.toList = b.segments.flatMap Segment.text := by
  rw [render, String.toList_ofList]

theorem isAt_render (b : EditBuffer) :
    IsAt b.render.toList 0 (b.segments.flatMap Segment.text) := by
  rw [toList_render]
  exact isAt_self _

theorem Sound.chain_mappings (h : b.Sound) (hi : b.insertions = []) :
    Span.Chain 0 (byteLength b.source.toList)
      ((b.sourceMap name).mappings.map Mapping.origin) := by
  rw [sourceMap, Mapping.map_origin_ofSegments, segments_eq hi]
  exact chain_origins (Nat.zero_le _) h.row

theorem Sound.shows_of_mem_segments (h : b.Sound) (hi : b.insertions = []) {s : Segment}
    (hs : s ∈ b.segments) : Shows b.source.toList b.overwrites s := by
  rw [segments_eq hi] at hs
  exact shows_of_mem_segmentsFrom ⟨[], b.source.toList, rfl, rfl⟩ h.cuts hs

theorem Sound.links_mappings (h : b.Sound) (hi : b.insertions = []) :
    Span.Links 0 (byteLength b.render.toList)
      ((b.sourceMap name).mappings.map Mapping.generated) := by
  rw [sourceMap, toList_render, ← Nat.zero_add (byteLength _)]
  refine Mapping.links_generated fun s hs => ?_
  rcases h.shows_of_mem_segments hi hs with ⟨span, rfl, _⟩ | ⟨o, _, rfl⟩
  · rfl
  · rfl

/-- **Outside the overwrites the output is the source.** -/
theorem Sound.verbatim_of_mem_mappings (h : b.Sound) (hi : b.insertions = []) {m : Mapping}
    (hm : m ∈ (b.sourceMap name).mappings) :
    m.origin ∈ b.overwrites.map Overwrite.span ∨
      m.Verbatim b.source.toList b.render.toList := by
  obtain ⟨s, hs, horigin, hcuts, htext⟩ := Mapping.exists_segment b.isAt_render hm
  rcases h.shows_of_mem_segments hi hs with ⟨span, rfl, hspan⟩ | ⟨o, ho, rfl⟩
  · have heq : span = m.origin := Option.some.inj horigin
    subst heq
    exact .inr ⟨hspan, hcuts, htext⟩
  · have heq : o.span = m.origin := Option.some.inj horigin
    exact .inl (heq ▸ List.mem_map_of_mem ho)

/-- Every overwrite is found in the output, where the map says. -/
theorem exists_mapping_of_mem_overwrites (hi : b.insertions = []) {o : Overwrite}
    (h : o ∈ b.overwrites) :
    ∃ m ∈ (b.sourceMap name).mappings, m.origin = o.span ∧
      slice b.render.toList m.generated = o.text.toList := by
  have hs : .replaced o.span o.text.toList ∈ b.segments := by
    rw [segments_eq hi]
    exact replaced_mem_segmentsFrom h
  exact Mapping.exists_mapping b.isAt_render hs rfl

/-- **The map of a buffer accounts for its source and what is rendered.** -/
theorem Sound.accounts (h : b.Sound) (hi : b.insertions = []) :
    (b.sourceMap name).Accounts b.source.toList b.render.toList
      (b.overwrites.map Overwrite.span) where
  origins := h.chain_mappings name hi
  generated := h.links_mappings name hi
  verbatim m hm := h.verbatim_of_mem_mappings name hi hm
  edits := List.forall_mem_map.2 fun o ho => by
    obtain ⟨m, hm, horigin, _⟩ := exists_mapping_of_mem_overwrites name hi ho
    exact ⟨m, hm, horigin⟩

end EditBuffer

end CssRune
