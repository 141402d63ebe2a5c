/-
**Rewriting a selector list and reading it again.**

The runes of a selector list are applied by editing its text, and nothing but the text is passed on.
This module compares the text with the tree: reading the edited text should give every variant of
every complex selector in order, each of them the selector that was read at first with its runs of
escaped classes wrapped.

The comparison fails at one place.  A list can end within an escape, as in `.m a\`, where the
backslash has nothing to take along.  If its last complex selector has a class that is used both
ways, the variants are joined with commas, and the backslash of every variant but the last takes the
comma after it along.  This is the only way to fail, `applyToSelectors_readsVariants_iff`.

Main definition:

* `ReadsVariants` — **a text is read as the variants of a list**.

Main results:

* `not_misused` — runes that stand where they may are never refused;
* `exists_applyToSelectors` — the edited text is the text with the edits in place;
* `Items.readsVariants`, `Items.not_readsVariants` — expanded items are read as the variants, unless
  a variant that is not the last one is cut off;
* `applyToSelectors_readsVariants_iff` — **when rewriting commutes with reading**.
-/

import CssRune.Proofs.Edit.Segments
import CssRune.Proofs.Rune.Variants

set_option autoImplicit false

namespace CssRune

open Text

/-! ### Runes that are not refused -/

/-- If only the first and the last element have a property, no more than two do. -/
theorem countP_le_two {α : Type} {p : α → Bool} {xs : List α}
    (h : ∀ front x back, xs = front ++ x :: back → p x = true → front = [] ∨ back = []) :
    xs.countP p ≤ 2 := by
  cases xs with
  | nil => simp
  | cons a xs =>
    rcases List.eq_nil_or_concat xs with rfl | ⟨mid, z, rfl⟩
    · exact Nat.le_succ_of_le List.countP_le_length
    · have hmid : mid.countP p = 0 := by
        refine List.countP_eq_zero.2 ?_
        intro x hx hp
        obtain ⟨front, back, rfl⟩ := List.append_of_mem hx
        have hedge := h (a :: front) x (back ++ [z]) (by simp) hp
        simp at hedge
      have hlast : [z].countP p ≤ 1 := List.countP_le_length
      have hfirst : [a].countP p ≤ 1 := List.countP_le_length
      have hsum : (a :: (mid ++ [z])).countP p =
          [a].countP p + (mid.countP p + [z].countP p) := by
        rw [← List.singleton_append, List.countP_append, List.countP_append]
      rw [List.concat_eq_append]
      omega

variable {usage : Usage} {c : ComplexSelector} {list : Span}

/-- Only the edges of an accepted selector are mixed. -/
theorem mixedCount_targetsIn_le (h : checkPlacement (occurrences usage c) list = .ok ())
    (hash : String) : mixedCount (targetsIn usage hash c) ≤ 2 := by
  have hedges : (inSourceOrder (occurrences usage c)).countP (·.placement == .mixed) ≤ 2 := by
    refine countP_le_two ?_
    intro front o back heq hmixed
    exact (checkPlacement_eq_ok_iff.1 h front o back heq).1 (beq_iff_eq.1 hmixed)
  have hperm : (inSourceOrder (occurrences usage c)).Perm (occurrences usage c) := sortBy_perm _ _
  rw [hperm.countP_eq] at hedges
  rw [mixedCount, targetsIn, List.countP_map]
  exact Nat.le_trans (List.Sublist.countP_le List.filter_sublist) hedges

/-- **Runes that stand where they may are never refused.** -/
theorem not_misused (h : checkPlacement (occurrences usage c) list = .ok ())
    (setting : StyleSetting) (source : String) (e : RuneError) :
    ¬Misused usage setting source list c e := by
  rintro (hcheck | hreplace)
  · rw [h] at hcheck
    cases hcheck
  · have hfew : ¬maxMixedTargets < mixedCount (targetsIn usage setting.hash c) := by
      have := mixedCount_targetsIn_le h setting.hash
      rw [maxMixedTargets]
      omega
    unfold replacements at hreplace
    split at hreplace
    · rw [variants, if_neg hfew] at hreplace
      cases hreplace
    · cases hreplace

/-! ### The edited text -/

namespace EditBuffer

/-- Rendering runs puts them in place. -/
theorem flatMap_text_segmentsFrom (source : List Char) (start : Nat) (runs : List Run) :
    (segmentsFrom source start (runs.map Run.toOverwrite) []).flatMap Segment.text =
      variantFrom source (byteLength source) start runs := by
  induction runs generalizing start with
  | nil => exact flatMap_text_copy source start _
  | cons r runs ih =>
    rw [List.map_cons, segmentsFrom_cons, List.flatMap_append, flatMap_text_copy,
      List.flatMap_cons, variantFrom, List.append_assoc]
    exact congrArg _ (congrArg _ (ih r.span.stop))

/-- **A buffer that took a row of runs shows the source with the runs in place.** -/
theorem Extends.toList_render {source : String} {b : EditBuffer} {runs : List Run}
    (h : (ofSource source).Extends b (runs.map Run.toOverwrite)) {lo hi : Nat}
    (hrow : Span.Row 0 lo hi (runs.map Run.span)) :
    b.render.toList =
      variantFrom source.toList (byteLength source.toList) 0 runs := by
  have hsorted : ∀ {os : List Overwrite} {lo hi : Nat}, Span.Row 0 lo hi (os.map Overwrite.span) →
      os.Pairwise fun o p => o.span.start < p.span.start := by
    intro os lo hi hos
    refine (List.pairwise_map.1 hos.apart).imp_of_mem ?_
    intro o p ho _ hstop
    have := (hos.inside _ (List.mem_map_of_mem ho)).2.1
    omega
  have hperm : b.overwrites.Perm (runs.map Run.toOverwrite) := by
    have hall := h.overwrites
    rwa [ofSource, List.append_nil] at hall
  have hruns : (runs.map Run.toOverwrite).map Overwrite.span = runs.map Run.span := by
    rw [List.map_map]
    rfl
  -- both lists are in source order
  have hsame : b.overwrites = runs.map Run.toOverwrite := by
    refine hperm.eq_of_pairwise ?_ (hsorted (h.sound (sound_ofSource source)).row)
      (hsorted (hruns ▸ hrow))
    intro o p _ _ hlt hgt
    omega
  rw [EditBuffer.toList_render, segments_eq h.insertions_eq, hsame, h.source_eq]
  exact flatMap_text_segmentsFrom source.toList 0 runs

end EditBuffer

/-- The edits of a selector list. -/
def listEdits (usage : Usage) (setting : StyleSetting) (source : List Char) (l : SelectorList) :
    List Run :=
  l.children.flatMap (selectorEdits usage setting source)

section Lists

variable {usage : Usage} {setting : StyleSetting} {l : SelectorList}

variable {source : List Char}

theorem ListOf.Laid.row_listEdits (h : l.Laid source) :
    Span.Row 0 l.span.start l.span.stop ((listEdits usage setting source l).map Run.span) := by
  rw [listEdits, List.map_flatMap]
  refine h.here.row.flatMap_row ?_
  intro c hc
  rw [map_span_selectorEdits]
  exact (h.complexes c hc).row_selectorRanges usage

/-- **Runes that stand where they may are applied**, and the text is then the source with the edits
of the list in place. -/
theorem exists_applyToSelectors {source : String} (hlaid : l.Laid source.toList)
    (hplacement : ∀ c ∈ l.children, checkPlacement (occurrences usage c) l.span = .ok ())
    (setting : StyleSetting) :
    ∃ state, applyToSelectors usage setting source
        ⟨EditBuffer.ofSource source, ClassNames.empty, []⟩ (SelectorList.withList l) = .ok state ∧
      state.buffer.render.toList = variantFrom source.toList (byteLength source.toList) 0
        (listEdits usage setting source.toList l) := by
  have hready : (EditBuffer.ofSource source).Ready
      (((SelectorList.withList l).flatMap fun p => selectorRanges usage p.2) ++ []) := by
    refine EditBuffer.ready_ofSource ?_
    rw [List.append_nil, SelectorList.withList, List.flatMap_map]
    have hsited := Span.Sited.flatMap_of_row hlaid.here.row fun c hc =>
      (hlaid.complexes c hc).sited_selectorRanges usage
    exact hsited.mono (Nat.zero_le _) hlaid.here.cuts.stop_le
  rcases applyToSelectors_of_ready (s := ⟨_, ClassNames.empty, []⟩) hready setting source with
    ⟨e, ⟨p, hp, hmisused⟩, _⟩ | ⟨state, hstate, _⟩
  · obtain ⟨c, hc, rfl⟩ := List.mem_map.1 hp
    exact absurd hmisused (not_misused (hplacement c hc) setting source e)
  · refine ⟨state, hstate, ?_⟩
    have hextends := (applyToSelectors_eq_ok hstate).1
    rw [SelectorList.withList, List.flatMap_map, ← List.map_flatMap] at hextends
    exact hextends.toList_render hlaid.row_listEdits

end Lists

/-! ### Selectors that are cut off -/

section Cuts

variable {e : Escape}

@[simp] theorem SimpleSelector.endsInEscape_escape (e : Escape) (s : SimpleSelector) :
    (s.escape e).endsInEscape = s.endsInEscape := by
  cases s with
  | named kind name span => rfl
  | nesting span => rfl
  | pseudoClass name args span => cases args <;> rfl

theorem ComplexOf.simples_bare (c : ComplexSelector) :
    c.bare.simples = c.simples.map SimpleSelector.bare := by
  obtain ⟨rs, span⟩ := c
  simp only [ComplexOf.bare, ComplexOf.simples, bareRelatives_eq, List.flatMap_map,
    List.map_flatMap]
  refine List.flatMap_congr ?_
  rintro ⟨combinator, ss, span⟩ _
  rw [RelativeOf.bare, bareSimples_eq]

theorem endsCut_bare (c : ComplexSelector) : endsCut c.bare.simples = endsCut c.simples := by
  rw [c.simples_bare, endsCut, List.getLast?_map, Option.any_map, endsCut]
  congr 1
  funext s
  exact s.endsInEscape_bare

variable {s : SimpleSelector}

/-- The last selector of a compound stays the last one, unless it is escaped. -/
theorem getLast?_escapeSimples (hs : e.hashed? s = none) {ss : List SimpleSelector}
    (h : ss.getLast? = some s) (names : List String) :
    (escapeSimples e names ss).getLast? = some (s.escape e) := by
  induction ss generalizing names with
  | nil => cases h
  | cons t ss ih =>
    cases ss with
    | nil =>
      obtain rfl : t = s := Option.some.inj h
      rw [escapeSimples, hs]
      exact List.getLast?_concat
    | cons u us =>
      rw [List.getLast?_cons_cons] at h
      rw [escapeSimples]
      split
      · exact ih h _
      · rw [List.getLast?_append, List.getLast?_cons, ih h []]
        rfl

/-- The last selector of a complex selector stays the last one, unless it is escaped. -/
theorem getLast?_escapeRelatives (hs : e.hashed? s = none) {rs : List RelativeSelector}
    (h : (rs.flatMap RelativeOf.selectors).getLast? = some s) :
    ((rs.map (RelativeOf.escape e)).flatMap RelativeOf.selectors).getLast? = some (s.escape e) := by
  have hselectors : ∀ r : RelativeSelector,
      (r.escape e).selectors = escapeSimples e [] r.selectors := by
    intro r
    cases r
    rfl
  induction rs with
  | nil => cases h
  | cons r rs ih =>
    rw [List.flatMap_cons, List.getLast?_append] at h
    rw [List.map_cons, List.flatMap_cons, List.getLast?_append, hselectors]
    cases hlast : (rs.flatMap RelativeOf.selectors).getLast? with
    | some t =>
      rw [hlast] at h
      cases h
      rw [ih hlast]
      rfl
    | none =>
      -- nothing is escaped where there is nothing
      have hempty : (rs.map (RelativeOf.escape e)).flatMap RelativeOf.selectors = [] := by
        have hnil := List.flatMap_eq_nil_iff.1 (List.getLast?_eq_none_iff.1 hlast)
        refine List.flatMap_eq_nil_iff.2 (List.forall_mem_map.2 ?_)
        intro q hq
        rw [hselectors, hnil q hq]
        rfl
      rw [hlast] at h
      rw [hempty, getLast?_escapeSimples hs h]
      rfl

/-- A selector that is cut off stays so, unless the class that is cut off is escaped. -/
theorem endsCut_escape {c : ComplexSelector} (h : endsCut c.simples = true)
    (hkept : ∀ s ∈ c.simples, s.endsInEscape = true → e.hashed? s = none) :
    endsCut (c.escape e).bare.simples = true := by
  rw [endsCut_bare]
  obtain ⟨rs, span⟩ := c
  obtain ⟨s, hlast, hs⟩ := (Option.any_eq_true _ _).1 h
  have hnone := hkept s (List.mem_of_getLast? hlast) hs
  rw [ComplexOf.escape, escapeRelatives_eq, ComplexOf.simples, endsCut,
    getLast?_escapeRelatives hnone hlast, Option.any_some, SimpleSelector.endsInEscape_escape, hs]

end Cuts

/-! ### How items end -/

section Ends

variable {pos : Nat} {text : List Char} {xs : List Item}

theorem Items.sound (h : Items pos text xs) : ∀ x ∈ xs, ∃ start, x.Sound start := by
  induction h with
  | last h => exact List.forall_mem_singleton.2 ⟨_, h⟩
  | cons h _ _ ih => exact List.forall_mem_cons.2 ⟨⟨_, h⟩, ih⟩

theorem Items.endsInEscape_of_mem_dropLast (h : Items pos text xs) :
    ∀ x ∈ xs.dropLast, Text.endsInEscape (plain x.signs) = false := by
  induction h with
  | last h => nofun
  | @cons pos x text xs h hescape hmore ih =>
    cases hmore with
    | last _ => exact List.forall_mem_singleton.2 hescape
    | cons _ _ _ => exact List.forall_mem_cons.2 ⟨hescape, ih⟩

/-- A text ends within an escape exactly if its last item does. -/
theorem Items.endsInEscape (h : Items pos text xs) :
    ∃ x ∈ xs.getLast?, Text.endsInEscape text = Text.endsInEscape (plain x.signs) := by
  induction h with
  | @last pos x h =>
    refine ⟨x, rfl, ?_⟩
    rw [Item.text, endsInEscape_append h.lead.endsInEscape,
      endsInEscape_append_of_nil h.escape, h.trail.endsInEscape, Bool.or_false]
  | @cons pos x text xs h _ hmore ih =>
    obtain ⟨y, hy, hends⟩ := ih
    refine ⟨y, ?_, ?_⟩
    · rw [List.getLast?_cons, hy]
      rfl
    · have hcomma : x.text ++ ',' :: text = (x.text ++ [',']) ++ text := by simp
      rw [hcomma, endsInEscape_append (endsInEscape_concat (by decide) _), hends]

variable {name : String} {span : Span} {x : Item} {e : Escape}

theorem Placed.afterIdent {signs : List Sign} (h : Placed pos signs)
    (hmem : .class_ name span ∈ signs) : afterIdent name.toList = [] := by
  induction signs generalizing pos with
  | nil => cases hmem
  | cons x signs ih =>
    rcases List.mem_cons.1 hmem with rfl | hmem
    · exact (h.1 name span rfl).2
    · exact ih h.2 hmem

variable {usage : Usage} {setting : StyleSetting}

/-- The variants of an item escape names without backslashes only. -/
theorem Item.Sound.covers (h : x.Sound pos)
    (hhash : ∀ c ∈ setting.hash.toList, isIdentChar c = true)
    (hnames : ∀ o ∈ runesIn usage x.value, '\\' ∉ o.name.toList) :
    ∀ e ∈ escapesOf usage setting x.value, e.Covers x.signs := by
  intro e he
  obtain ⟨choice, _, rfl⟩ := List.mem_map.1 he
  refine ⟨hhash, ?_, ?_⟩
  · show ∀ name ∈ (if setting.specific then [sentinelClass] else []), IsName name
    split
    · exact List.forall_mem_singleton.2 ⟨by decide, List.all_eq_true.1 (by decide)⟩
    · nofun
  · intro name span hmem hchosen
    obtain ⟨o, ho, rfl, _⟩ := h.placed.rune_of_chosen h.classes hmem hchosen
    exact isIdentChar_of_afterIdent (h.placed.afterIdent hmem) (hnames o ho)

theorem Escape.eq_class_of_hashed? {s : SimpleSelector} {hashed : String}
    (h : e.hashed? s = some hashed) :
    ∃ name span, s = .named .class_ name span ∧ e.chosen span = true := by
  unfold Escape.hashed? at h
  split at h
  · split at h
    · exact ⟨_, _, rfl, by assumption⟩
    · cases h
  · cases h

/-- The signs of an item show the classes of its compounds. -/
theorem Item.Sound.class_mem_signs (h : x.Sound pos)
    (hmem : .named .class_ name span ∈ x.value.simples) : .class_ name span ∈ x.signs := by
  have hclass : (name, span) ∈ x.signs.filterMap Sign.class? := by
    rw [h.classes, classesIn]
    refine List.mem_filterMap.2 ⟨.named .class_ name span, List.mem_flatMap.2 ⟨_, hmem, ?_⟩, rfl⟩
    rw [SimpleSelector.parts_eq]
    exact List.mem_cons_self
  obtain ⟨y, hy, hsign⟩ := List.mem_filterMap.1 hclass
  cases y with
  | char c => cases hsign
  | class_ name' span' =>
    cases hsign
    exact hy

/-- A variant of an item that is cut off is cut off as well. -/
theorem Item.Sound.endsCut_escape (h : x.Sound pos) (he : e.Covers x.signs)
    (hcut : endsInEscape (plain x.signs) = true) :
    endsCut (x.value.escape e).bare.simples = true := by
  refine CssRune.endsCut_escape (h.cut ▸ hcut) ?_
  intro s hs hends
  cases hhashed : e.hashed? s with
  | none => rfl
  | some hashed =>
    -- an escaped class has no backslash in its name
    obtain ⟨name, span, rfl, hchosen⟩ := Escape.eq_class_of_hashed? hhashed
    have hplain := (afterIdent_of_isIdentChar (he.names name span (h.class_mem_signs hs) hchosen)).2
    exact absurd (hplain.symm.trans hends) (by decide)

end Ends

/-! ### Reading the edited text -/

/-- At a cursor, the variants of a list are read, in order. -/
def ReadsVariants (usage : Usage) (setting : StyleSetting) (beyond : Option Char) (c : Cursor)
    (l : SelectorList) : Prop :=
  ∃ l', readSelectorList beyond c = .ok l' ∧ l'.children.map ComplexOf.bare =
    l.children.flatMap fun x => (escapesOf usage setting x).map fun e => (x.escape e).bare

section Variants

variable {usage : Usage} {setting : StyleSetting} {c : ComplexSelector}

theorem escapesOf_ne_nil (usage : Usage) (setting : StyleSetting) (c : ComplexSelector) :
    escapesOf usage setting c ≠ [] := by
  have hpos : 0 < (choices (targetsIn usage setting.hash c)).length := by
    rw [length_choices]
    exact Nat.pow_pos (by decide)
  intro hnil
  rw [escapesOf, List.map_eq_nil_iff] at hnil
  rw [hnil] at hpos
  cases hpos

theorem length_escapesOf_of_not_mixed (h : hasMixed usage c = false) :
    (escapesOf usage setting c).length = 1 := by
  rw [escapesOf, choices_of_not_mixed (any_mixed_targetsIn.trans h)]
  rfl

theorem exists_escapesOf_of_mixed (h : hasMixed usage c = true) (setting : StyleSetting) :
    ∃ e e' es, escapesOf usage setting c = e :: e' :: es := by
  have hany : (targetsIn usage setting.hash c).any (·.mixed) = true := any_mixed_targetsIn.trans h
  have hmixed : 0 < mixedCount (targetsIn usage setting.hash c) :=
    List.countP_pos_iff.2 (List.any_eq_true.1 hany)
  have hlength : 2 ≤ (escapesOf usage setting c).length := by
    rw [escapesOf, List.length_map, length_choices]
    exact Nat.pow_le_pow_right (n := 2) (by decide) hmixed
  obtain ⟨e, es, hes⟩ := List.exists_cons_of_ne_nil (escapesOf_ne_nil usage setting c)
  rw [hes, List.length_cons] at hlength
  obtain ⟨e', es', rfl⟩ := List.exists_cons_of_length_pos (by omega : 0 < es.length)
  exact ⟨e, e', es', hes⟩

variable {pos : Nat} {text : List Char} {xs : List Item} {l : SelectorList}

/-- The edits of a list between two texts expand its items. -/
theorem Items.variantFrom_listEdits {front back : List Char}
    (h : Items (byteLength front) text xs) (hl : xs.map Item.value = l.children)
    (hlaid : l.Laid (front ++ text ++ back)) :
    variantFrom (front ++ text ++ back) (byteLength (front ++ text ++ back)) 0
        (listEdits usage setting (front ++ text ++ back) l) =
      front ++ expandItems (escapesOf usage setting) xs ++ back := by
  have hfront : IsAt (front ++ text ++ back) 0 front := ⟨[], text ++ back, by simp, rfl⟩
  have htext : IsAt (front ++ text ++ back) (byteLength front) text :=
    ⟨front, back, by simp, rfl⟩
  have hback : IsAt (front ++ text ++ back) (byteLength front + byteLength text)
      back := ⟨front ++ text, [], by simp, byteLength_append ..⟩
  have hsize : byteLength (front ++ text ++ back) =
      byteLength front + byteLength text + byteLength back := by
    rw [byteLength_append, byteLength_append]
  have hvalues : ∀ x ∈ xs, x.value.Laid (front ++ text ++ back) := by
    intro x hx
    exact hlaid.complexes _ (hl ▸ List.mem_map_of_mem hx)
  have hstarts : ∀ r ∈ (xs.flatMap fun x =>
      selectorEdits usage setting (front ++ text ++ back) x.value).head?,
      0 + byteLength front ≤ r.span.start := by
    intro r hr
    obtain ⟨x, hx, hmem⟩ := List.mem_flatMap.1 (List.mem_of_mem_head? hr)
    have := h.le_start x hx
    have := (hvalues x hx).le_start_of_mem_selectorEdits r hmem
    omega
  have hedits : variantFrom (front ++ text ++ back) (byteLength (front ++ text ++ back))
      (byteLength front) ((xs.flatMap fun x =>
        selectorEdits usage setting (front ++ text ++ back) x.value) ++ []) = _ :=
    h.variantFrom_edits hvalues htext nofun (by omega)
  rw [List.append_nil, variantFrom, hback.slice_append (by omega), ← hsize, slice_self] at hedits
  rw [listEdits, ← hl, List.flatMap_map, variantFrom_of_isAt hfront hstarts (by omega),
    Nat.zero_add, hedits]
  simp

/-- **Expanded items are read as the variants**, if the last one is not cut off or has one
variant. -/
theorem Items.readsVariants (h : Items pos text xs) (hl : xs.map Item.value = l.children)
    (hcovers : ∀ x ∈ xs, ∀ e ∈ escapesOf usage setting x.value, e.Covers x.signs)
    (hlast : ∀ x ∈ xs.getLast?, Text.endsInEscape (plain x.signs) = true →
      hasMixed usage x.value = false) (beyond : Option Char) (start : Nat) :
    ReadsVariants usage setting beyond ⟨start, expandItems (escapesOf usage setting) xs⟩ l := by
  have hlisted := h.listed (escapesOf usage setting)
    (fun x _ => escapesOf_ne_nil usage setting x.value) hcovers
    (fun x hx hends => Nat.le_of_eq (length_escapesOf_of_not_mixed (hlast x hx hends)))
    (Nat.le_refl _)
  obtain ⟨l', hread, hshape⟩ := hlisted.readsList beyond
    ⟨start, expandItems (escapesOf usage setting) xs⟩ rfl
  refine ⟨l', hread, ?_⟩
  rw [← hl, List.flatMap_map, ← bareComplexes_eq]
  cases l'
  exact congrArg ListOf.children hshape

/-- **Expanded items are not read as the variants** if the last one is cut off and has several. -/
theorem Items.not_readsVariants (h : Items pos text xs) (hl : xs.map Item.value = l.children)
    (hcovers : ∀ x ∈ xs, ∀ e ∈ escapesOf usage setting x.value, e.Covers x.signs)
    {x : Item} (hx : x ∈ xs.getLast?) (hcut : Text.endsInEscape (plain x.signs) = true)
    (hmixed : hasMixed usage x.value = true) (beyond : Option Char) (front : List Char) :
    ¬ReadsVariants usage setting beyond
      ⟨byteLength front, expandItems (escapesOf usage setting) xs⟩ l := by
  rintro ⟨l', hread, hvariants⟩
  -- the text that was read consists of items again, and only the last of them can be cut off
  have hwithin : Cursor.Within (front ++ expandItems (escapesOf usage setting) xs)
      ⟨byteLength front, expandItems (escapesOf usage setting) xs⟩ :=
    ⟨front, [], by simp, rfl⟩
  obtain ⟨ys, hys, hvalues⟩ := exists_items (escapesArgs _ _) hwithin hread
  have hwhole : ∀ d ∈ l'.children.dropLast, endsCut d.simples = false := by
    rw [← hvalues, ← List.map_dropLast]
    refine List.forall_mem_map.2 ?_
    intro y hy
    obtain ⟨_, hsound⟩ := hys.sound y ((List.dropLast_sublist ys).subset hy)
    rw [← hsound.cut]
    exact hys.endsInEscape_of_mem_dropLast y hy
  -- but the first variant of the last item is not the last one, and is cut off
  obtain ⟨e, e', es, hes⟩ := exists_escapesOf_of_mixed hmixed setting
  have hmem : (x.value.escape e).bare ∈ (l'.children.map ComplexOf.bare).dropLast := by
    obtain ⟨init, rfl⟩ := List.getLast?_eq_some_iff.1 hx
    rw [hvariants, ← hl, List.map_append, List.flatMap_append, List.map_singleton,
      List.flatMap_singleton, hes, List.map_cons, List.map_cons, List.dropLast_append_cons]
    exact List.mem_append_right _ List.mem_cons_self
  rw [← List.map_dropLast] at hmem
  obtain ⟨d, hd, hbare⟩ := List.mem_map.1 hmem
  have hxmem : x ∈ xs := List.mem_of_getLast? hx
  obtain ⟨_, hsound⟩ := h.sound x hxmem
  have hends := hsound.endsCut_escape (hcovers x hxmem e (hes ▸ List.mem_cons_self)) hcut
  rw [← hbare, endsCut_bare, hwhole d hd] at hends
  cases hends

end Variants

/-- **When rewriting a selector list commutes with reading it.**  A list between `front` and `back`
that is read, with runes that stand where they may and have no backslashes in their names, and with
a hash of identifier characters, is always rewritten.  What is read in its place are the variants of
its complex selectors in order, except if the list ends within an escape and the last complex
selector has a class that is used both ways. -/
theorem applyToSelectors_readsVariants_iff (usage : Usage) (setting : StyleSetting)
    (front text back : List Char) {l : SelectorList}
    (hread : readSelectorList back.head? ⟨Text.byteLength front, text⟩ = .ok l)
    (hnames : ∀ x ∈ l.children, ∀ o ∈ runesIn usage x, '\\' ∉ o.name.toList)
    (hplacement : ∀ x ∈ l.children, checkPlacement (occurrences usage x) l.span = .ok ())
    (hhash : ∀ c ∈ setting.hash.toList, isIdentChar c = true) :
    ∃ state text', applyToSelectors usage setting (String.ofList (front ++ text ++ back))
        ⟨EditBuffer.ofSource (String.ofList (front ++ text ++ back)), ClassNames.empty, []⟩
        (SelectorList.withList l) = .ok state ∧
      state.buffer.render.toList = front ++ text' ++ back ∧
      (ReadsVariants usage setting back.head? ⟨Text.byteLength front, text'⟩ l ↔
        (Text.endsInEscape text = true → ∀ x ∈ l.children.getLast?, hasMixed usage x = false)) := by
  have hwithin : Cursor.Within (front ++ text ++ back) ⟨Text.byteLength front, text⟩ :=
    ⟨front, back, List.append_assoc .., rfl⟩
  have hsource : (String.ofList (front ++ text ++ back)).toList = front ++ text ++ back :=
    String.toList_ofList
  obtain ⟨hlaid, _⟩ := laid_readSelectorList back.head? _ _ hwithin hread
  obtain ⟨xs, hitems, hl⟩ := exists_items (escapesArgs _ _) hwithin hread
  obtain ⟨state, hstate, hrender⟩ :=
    exists_applyToSelectors (hsource.symm ▸ hlaid) hplacement setting
  refine ⟨state, expandItems (escapesOf usage setting) xs, hstate, ?_, ?_⟩
  · rw [hrender, hsource]
    exact hitems.variantFrom_listEdits hl hlaid
  · have hcovers : ∀ x ∈ xs, ∀ e ∈ escapesOf usage setting x.value, e.Covers x.signs := by
      intro x hx
      obtain ⟨_, hsound⟩ := hitems.sound x hx
      exact hsound.covers hhash (hnames _ (hl ▸ List.mem_map_of_mem hx))
    obtain ⟨x, hx, hends⟩ := hitems.endsInEscape
    have hlast : l.children.getLast? = some x.value := by
      rw [← hl, List.getLast?_map, hx]
      rfl
    rw [hlast, hends]
    constructor
    · rintro hvariants hcut _ ⟨⟩
      cases hmixed : hasMixed usage x.value with
      | false => rfl
      | true =>
        exact absurd hvariants (hitems.not_readsVariants hl hcovers hx hcut hmixed _ front)
    · intro hsingle
      refine hitems.readsVariants hl hcovers ?_ _ _
      intro y hy hcut
      obtain rfl : x = y := Option.some.inj (hx.symm.trans hy)
      exact hsingle hcut _ rfl

/-- Runes name `m` and `r`, and `m` is used natively as well. -/
def bothWays : Usage := ⟨⟨[("m", ⟨0, 1⟩), ("r", ⟨1, 2⟩)]⟩, ⟨[("m", ⟨2, 3⟩)]⟩⟩

/-- A class that is used both ways, a run inside a pseudo-class, and a list that ends with a whole
escape. -/
theorem applyToSelectors_readsVariants_nested :
    let setting : StyleSetting := ⟨"h", "f", false, true⟩
    let front := ['a', ' ']
    let text := ".m > :is(.r.r), q\\,".toList
    let rewritten := (":global(.m-h.__css_rune) > :is(:global(.r-h.r-h.__css_rune)), " ++
      ".m > :is(:global(.r-h.r-h.__css_rune)), q\\,").toList
    ∃ l state, readSelectorList (some ' ') ⟨2, text⟩ = .ok l ∧
      applyToSelectors bothWays setting (String.ofList (front ++ text ++ [' ']))
        ⟨EditBuffer.ofSource (String.ofList (front ++ text ++ [' '])), ClassNames.empty, []⟩
        (SelectorList.withList l) = .ok state ∧
      state.buffer.render.toList = front ++ rewritten ++ [' '] ∧
      ReadsVariants bothWays setting (some ' ') ⟨2, rewritten⟩ l := by
  intro setting front text rewritten
  have heval : ((readSelectorList (some ' ') ⟨2, text⟩).toOption.bind fun l =>
      (applyToSelectors bothWays setting (String.ofList (front ++ text ++ [' ']))
        ⟨EditBuffer.ofSource (String.ofList (front ++ text ++ [' '])), ClassNames.empty, []⟩
        (SelectorList.withList l)).toOption.map fun state =>
          (decide ((∀ x ∈ l.children, ∀ o ∈ runesIn bothWays x, '\\' ∉ o.name.toList) ∧
            ∀ x ∈ l.children, checkPlacement (occurrences bothWays x) l.span = .ok ()),
            state.buffer.render.toList)) = some (true, front ++ rewritten ++ [' ']) := by
    decide +kernel
  obtain ⟨l, hread, heval⟩ := Option.bind_eq_some_iff.1 heval
  obtain ⟨state, hstate, heval⟩ := Option.map_eq_some_iff.1 heval
  rw [toOption_eq_some_iff] at hread hstate
  obtain ⟨hchecks, hrender⟩ := Prod.mk.inj heval
  obtain ⟨hnames, hplacement⟩ := of_decide_eq_true hchecks
  obtain ⟨state', text', hstate', hrender', hiff⟩ :=
    applyToSelectors_readsVariants_iff bothWays setting front text [' '] hread hnames hplacement
      (List.all_eq_true.1 (by decide))
  obtain rfl : state = state' := Except.ok.inj (hstate.symm.trans hstate')
  obtain rfl : rewritten = text' :=
    List.append_cancel_left (List.append_cancel_right (hrender.symm.trans hrender'))
  have hwhole : Text.endsInEscape text = false := by decide +kernel
  exact ⟨l, state, hread, hstate, hrender, hiff.2 (by rw [hwhole]; nofun)⟩

/-- `.m a\`, where `m` is used both ways: the list is rewritten as `:global(.m-h) a\, .m a\`, and
that is read as one complex selector instead of two. -/
theorem exists_not_readsVariants_cut :
    let setting : StyleSetting := ⟨"h", "f", false, false⟩
    let text := ".m a\\"
    ∃ l state, readSelectorList none ⟨0, text.toList⟩ = .ok l ∧
      (∀ x ∈ l.children, ∀ o ∈ runesIn bothWays x, '\\' ∉ o.name.toList) ∧
      (∀ x ∈ l.children, checkPlacement (occurrences bothWays x) l.span = .ok ()) ∧
      applyToSelectors bothWays setting text ⟨EditBuffer.ofSource text, ClassNames.empty, []⟩
        (SelectorList.withList l) = .ok state ∧
      state.buffer.render = ":global(.m-h) a\\, .m a\\" ∧
      ¬ReadsVariants bothWays setting none ⟨0, state.buffer.render.toList⟩ l := by
  intro setting text
  have heval : ((readSelectorList none ⟨0, text.toList⟩).toOption.bind fun l =>
      (applyToSelectors bothWays setting text ⟨EditBuffer.ofSource text, ClassNames.empty, []⟩
        (SelectorList.withList l)).toOption.bind fun state =>
          (readSelectorList none ⟨0, state.buffer.render.toList⟩).toOption.map fun l' =>
            (decide ((∀ x ∈ l.children, ∀ o ∈ runesIn bothWays x, '\\' ∉ o.name.toList) ∧
              ∀ x ∈ l.children, checkPlacement (occurrences bothWays x) l.span = .ok ()),
              state.buffer.render, (l'.children.map ComplexOf.bare).length,
              (l.children.flatMap fun x =>
                (escapesOf bothWays setting x).map fun e => (x.escape e).bare).length)) =
      some (true, ":global(.m-h) a\\, .m a\\", 1, 2) := by
    decide +kernel
  obtain ⟨l, hread, heval⟩ := Option.bind_eq_some_iff.1 heval
  obtain ⟨state, hstate, heval⟩ := Option.bind_eq_some_iff.1 heval
  obtain ⟨l', hread', heval⟩ := Option.map_eq_some_iff.1 heval
  rw [toOption_eq_some_iff] at hread hstate hread'
  simp only [Prod.mk.injEq, decide_eq_true_eq] at heval
  obtain ⟨⟨hnames, hplacement⟩, hrender, hone, htwo⟩ := heval
  refine ⟨l, state, hread, hnames, hplacement, hstate, hrender, ?_⟩
  rintro ⟨m, hm, hvariants⟩
  obtain rfl : l' = m := Except.ok.inj (hread'.symm.trans hm)
  rw [hvariants, htwo] at hone
  cases hone

end CssRune
