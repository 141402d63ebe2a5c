/-
**Rows of ranges.**

How the ranges of neighbouring nodes lie to one another is said with five predicates.  A range
*cuts* a source when both its ends are character boundaries of it.  A list of ranges is a *row* when
each ends before the next starts, a *chain* when each ends exactly where the next starts, and
*clear* when no two of them share a byte, in whatever order they are listed; clear ranges that all
cut the source are *sited* in it.

* `Span.Cuts` — a range of whole characters of a source;
* `Span.Row` — ordered ranges between two offsets, at least `gap` bytes apart;
* `Span.Chain`, `Span.Links` — ranges that fill the space between two offsets, the second kind with
  empty ranges among them;
* `Span.Clear`, `Span.Sited` — ranges between two offsets without a common byte, and such ranges of
  whole characters;
* `Span.Row.clear`, `Span.Chain.row` — how they are related.
-/

import CssRune.Proofs.Reading

set_option autoImplicit false

namespace CssRune

open Text

/-- Two different members of a list whose members are related pairwise are related one way or the
other. -/
theorem rel_or_rel_of_pairwise {α : Type} {R : α → α → Prop} {xs : List α} {a b : α}
    (h : xs.Pairwise R) (ha : a ∈ xs) (hb : b ∈ xs) (hne : a ≠ b) : R a b ∨ R b a := by
  have hsides : xs.Pairwise fun x y => x ≠ y → R x y ∨ R y x := h.imp fun hxy _ => .inl hxy
  have hflip : xs.Pairwise (flip fun x y => x ≠ y → R x y ∨ R y x) := h.imp fun hxy _ => .inr hxy
  exact List.Pairwise.forall_of_forall_of_flip (fun _ _ hself => absurd rfl hself) hsides hflip
    ha hb hne

namespace Span

/-! ### Ranges of whole characters -/

/-- The range is that of a piece of the source. -/
def Cuts (source : List Char) (s : Span) : Prop :=
  ∃ piece, Text.IsAt source s.start piece ∧ s.stop = s.start + Text.byteLength piece

namespace Cuts

variable {source : List Char} {s : Span} (h : s.Cuts source)

include h

theorem le : s.start ≤ s.stop := by
  obtain ⟨piece, _, hstop⟩ := h
  omega

theorem stop_le : s.stop ≤ byteLength source := by
  obtain ⟨piece, hp, hstop⟩ := h
  exact hstop ▸ hp.stop_le

theorem isAt_start : IsAt source s.start [] := by
  obtain ⟨piece, hp, _⟩ := h
  exact IsAt.left (List.nil_append piece ▸ hp)

theorem isAt_stop : IsAt source s.stop [] := by
  obtain ⟨piece, hp, hstop⟩ := h
  exact hstop ▸ hp.nil_right

theorem isBoundary_start : isBoundary s.start source = true := by
  exact h.isAt_start.isBoundary

theorem isBoundary_stop : isBoundary s.stop source = true := by
  exact h.isAt_stop.isBoundary

/-- The range is that of the piece cut out at it. -/
theorem slice_spec :
    IsAt source s.start (slice source s) ∧ s.stop = s.start + byteLength (slice source s) := by
  obtain ⟨piece, hp, hstop⟩ := h
  have hs : s = ⟨s.start, s.start + byteLength piece⟩ := by rw [← hstop]
  have hslice : slice source s = piece := by rw [hs, hp.slice]
  exact hslice ▸ ⟨hp, hstop⟩

theorem isAt_slice : IsAt source s.start (slice source s) := h.slice_spec.1

theorem byteLength_slice : byteLength (slice source s) = s.stop - s.start := by
  have hstop := h.slice_spec.2
  omega

end Cuts

variable {source : List Char} {s t : Span} {lo hi : Nat} {ss : List Span}

theorem Cuts.shift {text : List Char} {offset : Nat} (h : s.Cuts text)
    (htext : IsAt source offset text) : (s.shift offset).Cuts source := by
  obtain ⟨piece, hpiece, hstop⟩ := h
  refine ⟨piece, ?_, ?_⟩
  · rw [shift_start, Nat.add_comm]
    exact htext.trans hpiece
  · rw [shift_start, shift_stop, hstop]
    omega

theorem intersects_shift (s t : Span) (n : Nat) :
    (s.shift n).intersects (t.shift n) = s.intersects t := by
  simp [intersects]

/-- Two offsets at which a source can be cut are the ends of a range of it. -/
theorem cuts_of_isAt {xs ys : List Char} {a b : Nat} (ha : IsAt source a xs)
    (hb : IsAt source b ys) (hab : a ≤ b) : Cuts source ⟨a, b⟩ := by
  obtain ⟨f, r, rfl, rfl⟩ := ha
  obtain ⟨g, t, hsource, rfl⟩ := hb
  rcases List.append_eq_append_iff.1 hsource with ⟨m, rfl, hm⟩ | ⟨m, rfl, hm⟩
  · exact ⟨m, ⟨f, ys ++ t, by rw [hm], rfl⟩, by simp⟩
  · have hnil : m = [] := by
      rw [byteLength_append] at hab
      exact byteLength_eq_zero.1 (by omega)
    subst hnil
    exact ⟨[], ⟨g ++ [], xs ++ r, by simp, rfl⟩, by simp⟩

theorem cuts_of_leads {c d : Cursor} (h : c.Leads d) (hc : c.Within source) :
    Cuts source ⟨c.pos, d.pos⟩ := ⟨c.upTo d, h.isAt hc, h.pos_eq⟩

/-! ### Rows -/

/-- The ranges lie between two offsets, none of them is empty, and each ends at least `gap` bytes
before any later one starts. -/
structure Row (gap lo hi : Nat) (ss : List Span) : Prop where
  inside : ∀ s ∈ ss, lo ≤ s.start ∧ s.start < s.stop ∧ s.stop ≤ hi
  apart : ss.Pairwise fun s t => s.stop + gap ≤ t.start

namespace Row

variable {gap lo hi mid : Nat} {s : Span} {ss ts : List Span}

theorem nil (gap lo hi : Nat) : Row gap lo hi [] := ⟨by simp, List.Pairwise.nil⟩

theorem cons (hlo : lo ≤ s.start) (hs : s.start < s.stop) (hhi : s.stop ≤ hi)
    (h : Row gap (s.stop + gap) hi ss) : Row gap lo hi (s :: ss) := by
  refine ⟨fun t ht => ?_, List.pairwise_cons.2 ⟨fun t ht => (h.inside t ht).1, h.apart⟩⟩
  rcases List.mem_cons.1 ht with rfl | ht
  · exact ⟨hlo, hs, hhi⟩
  · obtain ⟨h₁, h₂, h₃⟩ := h.inside t ht
    exact ⟨by omega, h₂, h₃⟩

variable {α : Type} {lo' hi' : Nat}

theorem mono (h : Row gap lo hi ss) (hlo : lo' ≤ lo) (hhi : hi ≤ hi') : Row gap lo' hi' ss := by
  refine ⟨fun s hs => ?_, h.apart⟩
  obtain ⟨h₁, h₂, h₃⟩ := h.inside s hs
  exact ⟨by omega, h₂, by omega⟩

theorem within (h : Row gap lo hi ss) (hss : ∀ s ∈ ss, lo' ≤ s.start ∧ s.stop ≤ hi') :
    Row gap lo' hi' ss :=
  ⟨fun s hs => ⟨(hss s hs).1, (h.inside s hs).2.1, (hss s hs).2⟩, h.apart⟩

theorem close (h : Row gap lo hi ss) : Row 0 lo hi ss :=
  ⟨h.inside, h.apart.imp fun hst => by omega⟩

theorem append (h : Row gap lo mid ss) (h' : Row gap (mid + gap) hi ts) (hlo : lo ≤ mid)
    (hhi : mid ≤ hi) : Row gap lo hi (ss ++ ts) := by
  refine ⟨List.forall_mem_append.2 ⟨(h.mono (Nat.le_refl lo) hhi).inside,
    (h'.mono (by omega) (Nat.le_refl hi)).inside⟩,
    List.pairwise_append.2 ⟨h.apart, h'.apart, fun s hs t ht => ?_⟩⟩
  have h₁ := (h.inside s hs).2.2
  have h₂ := (h'.inside t ht).1
  omega

/-- The last range of a row ends it. -/
theorem to_last (h : Row gap lo hi ss) (hs : ss.getLast? = some s) : Row gap lo s.stop ss := by
  obtain ⟨front, rfl⟩ := List.getLast?_eq_some_iff.1 hs
  refine ⟨fun t ht => ?_, h.apart⟩
  obtain ⟨h₁, h₂, _⟩ := h.inside t ht
  refine ⟨h₁, h₂, ?_⟩
  rcases List.mem_append.1 ht with ht' | ht'
  · have := (List.pairwise_append.1 h.apart).2.2 t ht' s (by simp)
    have := (h.inside s (by simp)).2.1
    omega
  · exact Nat.le_of_eq (congrArg Span.stop (List.mem_singleton.1 ht'))

theorem sublist (h : Row gap lo hi ts) (hs : ss.Sublist ts) : Row gap lo hi ss :=
  ⟨fun s hm => h.inside s (hs.subset hm), h.apart.sublist hs⟩

theorem of_cons (h : Row gap lo hi (s :: ss)) :
    lo ≤ s.start ∧ s.start < s.stop ∧ s.stop ≤ hi ∧ Row gap (s.stop + gap) hi ss := by
  obtain ⟨h₁, h₂, h₃⟩ := h.inside s List.mem_cons_self
  obtain ⟨hfirst, hrest⟩ := List.pairwise_cons.1 h.apart
  refine ⟨h₁, h₂, h₃, fun t ht => ?_, hrest⟩
  exact ⟨hfirst t ht, (h.inside t (List.mem_cons_of_mem s ht)).2⟩

/-- What holds of the pieces between the ends of each range of a row holds of all of them between
the ends of the row. -/
theorem flatMap {β : Type} {P : Nat → Nat → List β → Prop} {span : α → Span} {f : α → List β}
    {xs : List α} (nil : ∀ lo hi, P lo hi [])
    (mono : ∀ {lo lo' hi ys}, P lo hi ys → lo' ≤ lo → P lo' hi ys)
    (append : ∀ {lo mid hi ys zs}, P lo mid ys → P mid hi zs → lo ≤ mid → mid ≤ hi →
      P lo hi (ys ++ zs)) (hrow : Row gap lo hi (xs.map span))
    (hf : ∀ x ∈ xs, P (span x).start (span x).stop (f x)) : P lo hi (xs.flatMap f) := by
  induction xs generalizing lo with
  | nil => exact nil lo hi
  | cons x xs ih =>
    obtain ⟨hlo, hx, hhi, hrest⟩ := hrow.of_cons
    rw [List.flatMap_cons]
    have hxs := ih (hrest.mono (Nat.le_add_right _ gap) (Nat.le_refl _))
      fun y hy => hf y (List.mem_cons_of_mem x hy)
    exact append (mono (hf x List.mem_cons_self) hlo) hxs (by omega) hhi

theorem flatMap_row {span : α → Span} {f : α → List Span} {xs : List α}
    (hrow : Row gap lo hi (xs.map span)) (hf : ∀ x ∈ xs, Row 0 (span x).start (span x).stop (f x)) :
    Row 0 lo hi (xs.flatMap f) :=
  flatMap (Row.nil 0) (fun h hlo => h.mono hlo (Nat.le_refl _)) Row.append hrow hf

end Row

/-! ### Chains -/

/-- The ranges fill the space between two offsets: each starts where the one before it ends, and
none of them is empty. -/
def Chain : Nat → Nat → List Span → Prop
  | lo, hi, [] => lo = hi
  | lo, hi, s :: ss => s.start = lo ∧ s.start < s.stop ∧ Chain s.stop hi ss

namespace Chain

variable {lo hi : Nat} {ss : List Span}

theorem le (h : Chain lo hi ss) : lo ≤ hi := by
  induction ss generalizing lo with
  | nil => exact Nat.le_of_eq h
  | cons s ss ih =>
    obtain ⟨rfl, hs, hss⟩ := h
    have := ih hss
    omega

theorem append {mid : Nat} {ts : List Span} (h : Chain lo mid ss) (h' : Chain mid hi ts) :
    Chain lo hi (ss ++ ts) := by
  induction ss generalizing lo with
  | nil => exact (show lo = mid from h) ▸ h'
  | cons s ss ih =>
    obtain ⟨hlo, hs, hss⟩ := h
    exact ⟨hlo, hs, ih hss⟩

theorem row (h : Chain lo hi ss) : Row 0 lo hi ss := by
  induction ss generalizing lo with
  | nil => exact Row.nil 0 lo hi
  | cons s ss ih =>
    obtain ⟨rfl, hs, hss⟩ := h
    exact Row.cons (Nat.le_refl _) hs hss.le (ih hss)

theorem nodup (h : Chain lo hi ss) : ss.Nodup := by
  refine h.row.apart.imp_of_mem fun hs _ hapart => ?_
  rintro rfl
  have hlt := (h.row.inside _ hs).2.1
  omega

end Chain

/-- The ranges fill the space between two offsets, as a chain does, but some of them may be
empty. -/
def Links : Nat → Nat → List Span → Prop
  | lo, hi, [] => lo = hi
  | lo, hi, s :: ss => s.start = lo ∧ s.start ≤ s.stop ∧ Links s.stop hi ss

/-! ### Clear ranges -/

/-- The ranges lie between two offsets, none of them is empty, and no two share a byte. -/
structure Clear (lo hi : Nat) (ss : List Span) : Prop where
  inside : ∀ s ∈ ss, lo ≤ s.start ∧ s.start < s.stop ∧ s.stop ≤ hi
  apart : ss.Pairwise fun s t => s.intersects t = false

theorem intersects_eq_false_of_le (h : s.stop ≤ t.start) : s.intersects t = false := by
  simp only [intersects, Bool.and_eq_false_iff, decide_eq_false_iff_not]
  omega

theorem intersects_eq_false_of_inside {u : Span} (h : s.intersects t = false)
    (hstart : t.start ≤ u.start) (hstop : u.stop ≤ t.stop) : s.intersects u = false := by
  simp only [intersects, Bool.and_eq_false_iff, decide_eq_false_iff_not] at h ⊢
  omega

/-- A range that starts inside a chain and shares no byte with its ranges starts after all of
them. -/
theorem Chain.le_start (h : Chain lo hi ss) (hlt : s.start < s.stop)
    (hss : ∀ t ∈ ss, s.intersects t = false) (hlo : lo ≤ s.start) : hi ≤ s.start := by
  induction ss generalizing lo with
  | nil => exact (show lo = hi from h) ▸ hlo
  | cons t ss ih =>
    obtain ⟨rfl, _, hrest⟩ := h
    obtain ⟨ht, hss⟩ := List.forall_mem_cons.1 hss
    simp only [intersects, Bool.and_eq_false_iff, decide_eq_false_iff_not] at ht
    exact ih hrest hss (by omega)

/-- What shares no byte with the ranges of a chain shares none with the space that they fill. -/
theorem Chain.intersects_eq_false (h : Chain lo hi ss) (hne : ss ≠ []) (hlt : s.start < s.stop)
    (hss : ∀ t ∈ ss, s.intersects t = false) : s.intersects ⟨lo, hi⟩ = false := by
  have hafter := h.le_start hlt hss
  cases ss with
  | nil => exact absurd rfl hne
  | cons t ss =>
    obtain ⟨rfl, htlt, _⟩ := h
    have ht := hss t List.mem_cons_self
    simp only [intersects, Bool.and_eq_false_iff, decide_eq_false_iff_not] at ht ⊢
    omega

theorem Row.clear {gap : Nat} (h : Row gap lo hi ss) : Clear lo hi ss :=
  ⟨h.inside, h.apart.imp fun hst => intersects_eq_false_of_le (by omega)⟩

namespace Clear

variable {lo hi mid : Nat} {ss ts : List Span}

theorem nil (lo hi : Nat) : Clear lo hi [] := ⟨by simp, List.Pairwise.nil⟩

theorem mono {lo' hi' : Nat} (h : Clear lo hi ss) (hlo : lo' ≤ lo) (hhi : hi ≤ hi') :
    Clear lo' hi' ss := by
  refine ⟨fun s hs => ?_, h.apart⟩
  obtain ⟨h₁, h₂, h₃⟩ := h.inside s hs
  exact ⟨by omega, h₂, by omega⟩

theorem append (h : Clear lo mid ss) (h' : Clear mid hi ts) (hlo : lo ≤ mid) (hhi : mid ≤ hi) :
    Clear lo hi (ss ++ ts) := by
  refine ⟨List.forall_mem_append.2 ⟨(h.mono (Nat.le_refl lo) hhi).inside,
    (h'.mono hlo (Nat.le_refl hi)).inside⟩,
    List.pairwise_append.2 ⟨h.apart, h'.apart, fun s hs t ht => ?_⟩⟩
  exact intersects_eq_false_of_le (Nat.le_trans (h.inside s hs).2.2 (h'.inside t ht).1)

theorem perm (h : Clear lo hi ss) (hp : ss.Perm ts) : Clear lo hi ts := by
  refine ⟨fun s hs => h.inside s (hp.mem_iff.2 hs), h.apart.perm hp ?_⟩
  intro s t hst
  rwa [intersects_comm]

variable {α : Type}

/-- Ranges of a clear list may be replaced by clear ranges inside them. -/
theorem refine {span : α → Span} {f : α → List Span} {xs : List α}
    (h : Clear lo hi (ss ++ xs.map span))
    (hf : ∀ x ∈ xs, Clear (span x).start (span x).stop (f x)) :
    Clear lo hi (ss ++ xs.flatMap f) := by
  obtain ⟨hss, hxs, hcross⟩ := List.pairwise_append.1 h.apart
  rw [List.pairwise_map] at hxs
  refine ⟨List.forall_mem_append.2 ⟨fun s hs => h.inside s (List.mem_append_left _ hs), ?_⟩,
    List.pairwise_append.2 ⟨hss, List.pairwise_flatMap.2 ⟨fun x hx => (hf x hx).apart, ?_⟩, ?_⟩⟩
  · intro t ht
    obtain ⟨x, hx, ht⟩ := List.mem_flatMap.1 ht
    obtain ⟨hstart, hlt, hstop⟩ := (hf x hx).inside t ht
    obtain ⟨hlo, _, hhi⟩ := h.inside (span x) (List.mem_append_right _ (List.mem_map_of_mem hx))
    exact ⟨Nat.le_trans hlo hstart, hlt, Nat.le_trans hstop hhi⟩
  · refine hxs.imp_of_mem fun hx hy hxy s hs t ht => ?_
    obtain ⟨hstart, _, hstop⟩ := (hf _ hx).inside s hs
    obtain ⟨hstart', _, hstop'⟩ := (hf _ hy).inside t ht
    rw [intersects_comm] at hxy
    have hys := intersects_eq_false_of_inside hxy hstart hstop
    rw [intersects_comm] at hys
    exact intersects_eq_false_of_inside hys hstart' hstop'
  · intro s hs t ht
    obtain ⟨x, hx, ht⟩ := List.mem_flatMap.1 ht
    obtain ⟨hstart, _, hstop⟩ := (hf x hx).inside t ht
    exact intersects_eq_false_of_inside (hcross s hs (span x) (List.mem_map_of_mem hx)) hstart hstop

end Clear

/-! ### Sited ranges -/

/-- The ranges lie between two offsets, share no byte, and each is that of a piece of the source. -/
structure Sited (source : List Char) (lo hi : Nat) (ss : List Span) : Prop where
  clear : Clear lo hi ss
  cuts : ∀ s ∈ ss, s.Cuts source

namespace Sited

variable {source : List Char} {lo hi mid : Nat} {ss ts : List Span}

theorem nil (source : List Char) (lo hi : Nat) : Sited source lo hi [] :=
  ⟨Clear.nil lo hi, by simp⟩

theorem mono {lo' hi' : Nat} (h : Sited source lo hi ss) (hlo : lo' ≤ lo) (hhi : hi ≤ hi') :
    Sited source lo' hi' ss := ⟨h.clear.mono hlo hhi, h.cuts⟩

theorem append (h : Sited source lo mid ss) (h' : Sited source mid hi ts) (hlo : lo ≤ mid)
    (hhi : mid ≤ hi) : Sited source lo hi (ss ++ ts) :=
  ⟨h.clear.append h'.clear hlo hhi, List.forall_mem_append.2 ⟨h.cuts, h'.cuts⟩⟩

theorem perm (h : Sited source lo hi ss) (hp : ss.Perm ts) : Sited source lo hi ts :=
  ⟨h.clear.perm hp, fun s hs => h.cuts s (hp.mem_iff.2 hs)⟩

variable {α : Type}

/-- Sited ranges may be replaced by sited ranges inside them. -/
theorem refine {span : α → Span} {f : α → List Span} {xs : List α}
    (h : Sited source lo hi (ss ++ xs.map span))
    (hf : ∀ x ∈ xs, Sited source (span x).start (span x).stop (f x)) :
    Sited source lo hi (ss ++ xs.flatMap f) := by
  refine ⟨h.clear.refine fun x hx => (hf x hx).clear, List.forall_mem_append.2
    ⟨fun s hs => h.cuts s (List.mem_append_left _ hs), fun s hs => ?_⟩⟩
  obtain ⟨x, hx, hs⟩ := List.mem_flatMap.1 hs
  exact (hf x hx).cuts s hs

theorem flatMap_of_row {gap : Nat} {span : α → Span} {f : α → List Span} {xs : List α}
    (hrow : Row gap lo hi (xs.map span))
    (hf : ∀ x ∈ xs, Sited source (span x).start (span x).stop (f x)) :
    Sited source lo hi (xs.flatMap f) :=
  hrow.flatMap (Sited.nil source) (fun h hlo => h.mono hlo (Nat.le_refl _)) Sited.append hf

end Sited

end Span

end CssRune
