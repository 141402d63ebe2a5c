/-
**What the edits of a complex selector are made of.**

Whether a selector is edited in place or replaced by all its variants, each text that is put in is
made of two kinds of pieces: ranges of the source that are kept as they are, and runs of rune
classes under a wrapper.  The pieces fill the range that is replaced, so no byte of it is lost or
doubled, and what is not a rune class is always kept.

* `Piece`, `piecesText` — pieces and the text they make up;
* `PiecesLaid` — pieces that fill a range of a selector;
* `selectorVariants`, `selectorEdits_eq` — **the edits of a complex selector, in pieces**;
* `ComplexOf.Laid.piecesLaid_of_mem` — the pieces of every variant fill its range;
* `ComplexOf.Laid.exists_kept_of_isGlobal` — **what is global already is kept**;
* `exists_wrapped_of_mem_runesIn` — every rune class is wrapped in some variant.
-/

import CssRune.Proofs.Rune.Edits
import Mathlib.Data.List.Pairwise

set_option autoImplicit false

namespace CssRune

/-! ### Pieces -/

/-- A piece of a text that replaces a range of a complex selector. -/
inductive Piece where
  /-- A range of the source, as it is. -/
  | kept (span : Span)
  /-- Rune classes under a wrapper. -/
  | wrapped (os : List Occurrence)

/-- The range of the source that a piece stands for. -/
def Piece.span : Piece → Span
  | kept span => span
  | wrapped os => hull Occurrence.span os

/-- The text of a piece. -/
def Piece.text (source : List Char) (setting : StyleSetting) : Piece → List Char
  | kept span => Text.slice source span
  | wrapped os =>
    (wrapper (os.map fun o => hashedName setting.hash o.name) setting.suffix).toList

/-- The text that pieces make up. -/
def piecesText (source : List Char) (setting : StyleSetting) (ps : List Piece) : String :=
  String.ofList (ps.flatMap (Piece.text source setting))

/-- The pieces from an offset up to the end of a range: runs, and what lies between them. -/
def piecesFrom (stop : Nat) : Nat → List (List Occurrence) → List Piece
  | start, [] => [.kept ⟨start, stop⟩]
  | start, g :: gs => .kept ⟨start, (hull Occurrence.span g).start⟩ :: .wrapped g ::
      piecesFrom stop (hull Occurrence.span g).stop gs

/-- Pieces fill a range of a complex selector: those that are kept are pieces of the source, and
those that are wrapped are rune classes of the selector that follow one another directly. -/
structure PiecesLaid (usage : Usage) (source : List Char) (c : ComplexSelector) (range : Span)
    (ps : List Piece) : Prop where
  links : Span.Links range.start range.stop (ps.map Piece.span)
  kept : ∀ s, .kept s ∈ ps → s.Cuts source
  wrapped : ∀ os, .wrapped os ∈ ps →
    os ≠ [] ∧ os.Sublist (runesIn usage c) ∧ Filled Occurrence.span os

section Pieces

variable {source : List Char} {setting : StyleSetting} {start stop : Nat}
  {gs : List (List Occurrence)}

/-- The text of a variant is that of its pieces. -/
theorem variantFrom_eq (source : List Char) (setting : StyleSetting) (start stop : Nat)
    (gs : List (List Occurrence)) :
    variantFrom source stop start (gs.map (groupRun Occurrence.span
        (fun o => hashedName setting.hash o.name) setting.suffix)) =
      (piecesFrom stop start gs).flatMap (Piece.text source setting) := by
  induction gs generalizing start with
  | nil => exact (List.append_nil _).symm
  | cons g gs ih =>
    rw [List.map_cons, variantFrom, piecesFrom, List.flatMap_cons, List.flatMap_cons,
      List.append_assoc]
    exact congrArg _ (congrArg _ (ih _))

theorem links_piecesFrom (hstart : start ≤ stop)
    (hrow : Span.Row 0 start stop (gs.map (hull Occurrence.span))) :
    Span.Links start stop ((piecesFrom stop start gs).map Piece.span) := by
  induction gs generalizing start with
  | nil => exact ⟨rfl, hstart, rfl⟩
  | cons g gs ih =>
    obtain ⟨hlo, hlt, hhi, hrest⟩ := hrow.of_cons
    exact ⟨rfl, hlo, rfl, Nat.le_of_lt hlt, ih hhi hrest⟩

variable {s : Span}

theorem cuts_of_kept_mem_piecesFrom (hstart : Text.IsAt source start [])
    (hstop : Text.IsAt source stop []) (hle : start ≤ stop)
    (hrow : Span.Row 0 start stop (gs.map (hull Occurrence.span)))
    (hcuts : ∀ g ∈ gs, (hull Occurrence.span g).Cuts source)
    (hs : .kept s ∈ piecesFrom stop start gs) : s.Cuts source := by
  induction gs generalizing start with
  | nil =>
    cases List.mem_singleton.1 hs
    exact Span.cuts_of_isAt hstart hstop hle
  | cons g gs ih =>
    obtain ⟨hlo, _, hhi, hrest⟩ := hrow.of_cons
    obtain ⟨hg, hgs⟩ := List.forall_mem_cons.1 hcuts
    rw [piecesFrom, List.mem_cons, List.mem_cons] at hs
    rcases hs with hs | hs | hs
    · cases hs
      exact Span.cuts_of_isAt hstart hg.isAt_start hlo
    · cases hs
    · exact ih hg.isAt_stop hhi hrest hgs hs

theorem wrapped_mem_piecesFrom {os : List Occurrence} :
    .wrapped os ∈ piecesFrom stop start gs ↔ os ∈ gs := by
  induction gs generalizing start with
  | nil => simp [piecesFrom]
  | cons g gs ih => simp [piecesFrom, ih]

/-- A range that shares no byte with a run lies in one of the pieces that are kept. -/
theorem exists_kept_mem_piecesFrom (hs : start ≤ s.start) (hs' : s.stop ≤ stop)
    (hrow : Span.Row 0 start stop (gs.map (hull Occurrence.span)))
    (happart : ∀ g ∈ gs, s.intersects (hull Occurrence.span g) = false) :
    ∃ k, .kept k ∈ piecesFrom stop start gs ∧ k.start ≤ s.start ∧ s.stop ≤ k.stop := by
  induction gs generalizing start with
  | nil => exact ⟨_, List.mem_singleton.2 rfl, hs, hs'⟩
  | cons g gs ih =>
    obtain ⟨_, hg, _, hrest⟩ := hrow.of_cons
    obtain ⟨hfirst, hothers⟩ := List.forall_mem_cons.1 happart
    simp only [Span.intersects, Bool.and_eq_false_iff, decide_eq_false_iff_not] at hfirst
    -- the range lies before the first run, or after it
    by_cases hbefore : s.stop ≤ (hull Occurrence.span g).start
    · exact ⟨_, List.mem_cons_self, hs, hbefore⟩
    · obtain ⟨k, hk, hinside⟩ := ih (by omega) hrest hothers
      exact ⟨k, List.mem_cons_of_mem _ (List.mem_cons_of_mem _ hk), hinside⟩

end Pieces

/-! ### Variants -/

/-- What replaces the ranges of a complex selector: for each range a list of variants, in pieces. -/
def selectorVariants (usage : Usage) (setting : StyleSetting) (c : ComplexSelector) :
    List (Span × List (List Piece)) :=
  if hasMixed usage c then
    [(c.span, (choices (targetsIn usage setting.hash c)).map fun escaped =>
      piecesFrom c.span.stop c.span.start (groups Occurrence.span (runesIn usage c) escaped))]
  else
    (groups Occurrence.span (runesIn usage c) ((runesIn usage c).map fun _ => true)).map fun g =>
      (hull Occurrence.span g, [[.wrapped g]])

theorem all_true_mem_choices (targets : List Target) :
    (targets.map fun _ => true) ∈ choices targets := by
  induction targets with
  | nil => exact List.mem_singleton.2 rfl
  | cons t ts ih =>
    rw [choices]
    split
    · exact List.mem_append_left _ (List.mem_map_of_mem ih)
    · exact List.mem_map_of_mem ih

section Selectors

variable {usage : Usage} {setting : StyleSetting} {source : List Char} {c : ComplexSelector}

theorem variant_eq (usage : Usage) (setting : StyleSetting) (source : List Char)
    (c : ComplexSelector) (escaped : List Bool) :
    variant source c.span (targetsIn usage setting.hash c) escaped setting.suffix =
      piecesText source setting (piecesFrom c.span.stop c.span.start
        (groups Occurrence.span (runesIn usage c) escaped)) := by
  rw [variant, targetsIn, wrappedRuns_eq (fun _ => rfl), piecesText, ← variantFrom_eq]
  rfl

/-- **The edits of a complex selector, in pieces.** -/
theorem selectorEdits_eq (usage : Usage) (setting : StyleSetting) (source : List Char)
    (c : ComplexSelector) :
    selectorEdits usage setting source c = (selectorVariants usage setting c).map fun v =>
      ⟨v.1, ", ".intercalate (v.2.map (piecesText source setting))⟩ := by
  unfold selectorEdits selectorVariants
  split
  · simp only [variant_eq, List.map_cons, List.map_nil, List.map_map]
    rfl
  · rw [targetsIn, List.map_map, wrappedRuns_eq (fun _ => rfl), List.map_map]
    refine List.map_congr_left fun g _ => ?_
    have htext : piecesText source setting [.wrapped g] =
        wrapper (g.map fun o => hashedName setting.hash o.name) setting.suffix := by
      rw [piecesText, List.flatMap_singleton, Piece.text, String.ofList_toList]
    show _ = Run.mk (hull Occurrence.span g) (", ".intercalate [piecesText source setting _])
    rw [htext, String.intercalate_singleton]
    rfl

variable {v : Span × List (List Piece)} {s : SimpleSelector}

/-- All pieces of variants fill the ranges that they stand for. -/
theorem ComplexOf.Laid.piecesLaid_of_mem (h : c.Laid source)
    (hv : v ∈ selectorVariants usage setting c) :
    v.2 ≠ [] ∧ ∀ ps ∈ v.2, PiecesLaid usage source c v.1 ps := by
  have hrow := h.row_runesIn usage
  have hle := Nat.le_of_lt h.nonempty
  unfold selectorVariants at hv
  split at hv
  · cases List.mem_singleton.1 hv
    refine ⟨?_, List.forall_mem_map.2 fun escaped _ => ⟨?_, fun s hs => ?_, fun os hos => ?_⟩⟩
    · exact List.ne_nil_of_mem (List.mem_map_of_mem (all_true_mem_choices _))
    · exact links_piecesFrom hle (row_hull_groups hrow)
    · exact cuts_of_kept_mem_piecesFrom h.here.cuts.isAt_start h.here.cuts.isAt_stop hle
        (row_hull_groups hrow) (fun g hg => h.cuts_hull hg) hs
    · exact h.filled_of_mem_groups (wrapped_mem_piecesFrom.1 hos)
  · obtain ⟨g, hg, rfl⟩ := List.mem_map.1 hv
    have hrun := h.filled_of_mem_groups hg
    refine ⟨List.cons_ne_nil _ _,
      List.forall_mem_singleton.2 ⟨?_, fun s hs => ?_, fun os hos => ?_⟩⟩
    · exact ⟨rfl, hrun.2.2.le, rfl⟩
    · cases List.mem_singleton.1 hs
    · cases List.mem_singleton.1 hos
      exact hrun

/-- Every rune class of a complex selector is wrapped in some variant. -/
theorem exists_wrapped_of_mem_runesIn (setting : StyleSetting) {o : Occurrence}
    (h : o ∈ runesIn usage c) :
    ∃ v ∈ selectorVariants usage setting c, ∃ ps ∈ v.2, ∃ os, .wrapped os ∈ ps ∧ o ∈ os := by
  rw [← flatten_groups_all Occurrence.span (runesIn usage c)] at h
  obtain ⟨g, hg, ho⟩ := List.mem_flatten.1 h
  unfold selectorVariants
  split
  · -- the variant that escapes everything
    refine ⟨_, List.mem_singleton.2 rfl, _, List.mem_map_of_mem (all_true_mem_choices _), g, ?_, ho⟩
    rw [wrapped_mem_piecesFrom, targetsIn, List.map_map]
    exact hg
  · exact ⟨_, List.mem_map_of_mem hg, _, List.mem_singleton.2 rfl, g, List.mem_singleton.2 rfl, ho⟩

/-- Whether a selector is global already. -/
def SimpleSelector.isGlobal : SimpleSelector → Bool
  | .pseudoClass name _ _ => name == globalPseudoClass
  | _ => false

theorem SimpleSelector.isEntered_of_isGlobal (h : s.isGlobal = true) :
    s.isEntered (· != globalPseudoClass) = false := by
  unfold isGlobal at h
  split at h
  · rename_i name args span
    cases args with
    | none => rfl
    | some args => rw [isEntered, bne, h]; rfl
  · cases h

/-- What is global already shares no byte with a rune class, and lies in the selector. -/
theorem ComplexOf.Laid.apart_of_isGlobal (h : c.Laid source) (usage : Usage)
    (hs : s ∈ c.parts (· != globalPseudoClass)) (hglobal : s.isGlobal = true) :
    c.span.start ≤ s.span.start ∧ s.span.start < s.span.stop ∧ s.span.stop ≤ c.span.stop ∧
      ∀ o ∈ runesIn usage c, s.span.intersects o.span = false := by
  have hatom : s ∈ atoms (· != globalPseudoClass) (c.parts (· != globalPseudoClass)) :=
    List.mem_filter.2 ⟨hs, by rw [SimpleSelector.isEntered_of_isGlobal hglobal]; rfl⟩
  have hclear := (h.row_atoms (· != globalPseudoClass)).clear
  obtain ⟨hstart, hlt, hstop⟩ := hclear.inside _ (List.mem_map_of_mem hatom)
  refine ⟨hstart, hlt, hstop, fun o ho => ?_⟩
  have hatom' : .named .class_ o.name o.span ∈
      atoms (· != globalPseudoClass) (c.parts (· != globalPseudoClass)) :=
    List.mem_filter.2 ⟨(mem_runesIn_iff.1 ho).1, rfl⟩
  have hne : s ≠ .named .class_ o.name o.span := by
    rintro rfl
    cases hglobal
  have hsymm : Std.Symm fun a b : SimpleSelector => a.span.intersects b.span = false :=
    ⟨fun a b hab => by rwa [Span.intersects_comm]⟩
  exact (List.pairwise_map.1 hclear.apart).forall hatom hatom' hne

/-- **What is global already is kept**: it lies outside the range that is replaced, or in a piece
that every variant keeps. -/
theorem ComplexOf.Laid.exists_kept_of_isGlobal (h : c.Laid source)
    (hv : v ∈ selectorVariants usage setting c) (hs : s ∈ c.parts (· != globalPseudoClass))
    (hglobal : s.isGlobal = true) :
    s.span.intersects v.1 = false ∨
      ∀ ps ∈ v.2, ∃ k, .kept k ∈ ps ∧ k.start ≤ s.span.start ∧ s.span.stop ≤ k.stop := by
  obtain ⟨hstart, hlt, hstop, happart⟩ := h.apart_of_isGlobal usage hs hglobal
  have hruns : ∀ {chosen}, ∀ g ∈ groups Occurrence.span (runesIn usage c) chosen,
      s.span.intersects (hull Occurrence.span g) = false := by
    intro chosen g hg
    obtain ⟨hne, hsub, hfilled⟩ := h.filled_of_mem_groups hg
    refine Span.Chain.intersects_eq_false hfilled (mt List.map_eq_nil_iff.1 hne) hlt ?_
    exact List.forall_mem_map.2 fun o ho => happart o (hsub.subset ho)
  unfold selectorVariants at hv
  split at hv
  · cases List.mem_singleton.1 hv
    refine .inr (List.forall_mem_map.2 fun escaped _ => ?_)
    exact exists_kept_mem_piecesFrom hstart hstop (row_hull_groups (h.row_runesIn usage)) hruns
  · obtain ⟨g, hg, rfl⟩ := List.mem_map.1 hv
    exact .inl (hruns g hg)

/-- Every range that is edited has variants. -/
theorem exists_variants_of_mem_selectorRanges {range : Span}
    (h : range ∈ selectorRanges usage c) :
    ∃ v ∈ selectorVariants usage setting c, v.1 = range := by
  unfold selectorRanges at h
  unfold selectorVariants
  split at h
  · rename_i hmixed
    rw [if_pos hmixed]
    exact ⟨_, List.mem_singleton.2 rfl, (List.mem_singleton.1 h).symm⟩
  · rename_i hmixed
    obtain ⟨g, hg, rfl⟩ := List.mem_map.1 h
    rw [if_neg hmixed]
    exact ⟨_, List.mem_map_of_mem hg, rfl⟩

end Selectors

end CssRune
