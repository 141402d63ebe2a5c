/-
**Variants are escaped signs.**

A variant of a complex selector is made by putting wrappers in the place of ranges of the source.
This module shows that the text is that of the signs of the selector with the classes of a choice
escaped, and that the edits of a selector list put all variants in the place of each complex
selector.

Main definition:

* `escapesOf` — **the variants of a complex selector**.

Main results:

* `runesIn_eq` — the rune classes are those among the classes of the signs;
* `Splices.keep`, `Splices.join`, `Placed.splices` — putting wrappers in place escapes the signs,
  one sign after another;
* `Items.variantFrom_edits` — **the edits of a list expand its items**.
-/

import CssRune.Proofs.Placement
import CssRune.Proofs.Rune.Expansion
import CssRune.Proofs.Rune.Pieces
import Mathlib.Data.List.Nodup

set_option autoImplicit false

namespace CssRune

open Text

/-! ### Keeping the text in front of runs -/

theorem Text.takeBytes_append (n : Nat) (xs ys : List Char) :
    takeBytes (byteLength xs + n) (xs ++ ys) = xs ++ takeBytes n ys := by
  induction xs with
  | nil => simp
  | cons c xs ih =>
    obtain ⟨k, hk⟩ : ∃ k, c.utf8Size = k + 1 :=
      ⟨c.utf8Size - 1, by have := c.utf8Size_pos; omega⟩
    have hsum : byteLength (c :: xs) + n = (k + byteLength xs + n) + 1 := by
      rw [byteLength_cons]
      omega
    have hdiff : (k + byteLength xs + n) + 1 - c.utf8Size = byteLength xs + n := by omega
    rw [hsum, List.cons_append, takeBytes, hdiff, ih, List.cons_append]

variable {pos : Nat} {signs : List Sign} {span : Span} {os : List Occurrence} {choice : List Bool}

/-- A range that starts with a piece of the source. -/
theorem Text.IsAt.slice_append {source piece : List Char} {stop : Nat} (h : IsAt source pos piece)
    (hstop : pos + byteLength piece ≤ stop) :
    Text.slice source ⟨pos, stop⟩ =
      piece ++ Text.slice source ⟨pos + byteLength piece, stop⟩ := by
  obtain ⟨front, back, rfl, rfl⟩ := h
  have hafter :
      dropBytes (byteLength front + byteLength piece) (front ++ (piece ++ back)) = back := by
    rw [← byteLength_append, ← List.append_assoc, dropBytes_byteLength_append]
  have hsize : stop - byteLength front =
      byteLength piece + (stop - (byteLength front + byteLength piece)) := by omega
  rw [Text.slice, Text.slice, dropBytes_byteLength_append, hafter, hsize, takeBytes_append]

section Splices

variable {source : List Char} {stop pos : Nat} {suffix : String}

/-- What comes before the first run is kept. -/
theorem variantFrom_of_isAt {piece : List Char} {runs : List Run} (h : IsAt source pos piece)
    (hruns : ∀ r ∈ runs.head?, pos + byteLength piece ≤ r.span.start)
    (hstop : pos + byteLength piece ≤ stop) :
    variantFrom source stop pos runs =
      piece ++ variantFrom source stop (pos + byteLength piece) runs := by
  cases runs with
  | nil => exact h.slice_append hstop
  | cons r runs =>
    rw [variantFrom, h.slice_append (hruns r rfl), variantFrom]
    simp

theorem slice_self (source : List Char) (pos : Nat) : slice source ⟨pos, pos⟩ = [] := by
  simp [slice]

/-! ### Runs that are closed -/

variable {ms : List (Target × Bool)}

/-- A run that the next target does not continue is closed. -/
theorem runsFrom_some_of_lt {r : OpenRun} (h : ∀ m ∈ ms, r.span.stop < m.1.span.start) :
    runsFrom suffix (some r) ms = r.close suffix :: runsFrom suffix none ms := by
  cases ms with
  | nil => rfl
  | cons m ms =>
    obtain ⟨t, escaped⟩ := m
    cases escaped with
    | false => rfl
    | true =>
      have hlt : r.span.stop < t.span.start := h (t, true) List.mem_cons_self
      exact if_neg (Nat.ne_of_lt hlt)

/-- The runs from an open one on start with it. -/
theorem head_runsFrom_some (suffix : String) (r : OpenRun) (ms : List (Target × Bool)) :
    ∃ q rest, runsFrom suffix (some r) ms = q :: rest ∧ q.span.start = r.span.start := by
  induction ms generalizing r with
  | nil => exact ⟨_, _, rfl, rfl⟩
  | cons m ms ih =>
    obtain ⟨t, escaped⟩ := m
    cases escaped with
    | false => exact ⟨_, _, rfl, rfl⟩
    | true =>
      rw [runsFrom]
      split
      · exact ih _
      · exact ⟨_, _, rfl, rfl⟩

/-- The first run starts with a target. -/
theorem start_head_runsFrom :
    ∀ r ∈ (runsFrom suffix none ms).head?, ∃ m ∈ ms, r.span.start = m.1.span.start := by
  induction ms with
  | nil => nofun
  | cons m ms ih =>
    obtain ⟨t, escaped⟩ := m
    intro r hr
    cases escaped with
    | false =>
      obtain ⟨m, hm, hstart⟩ := ih r hr
      exact ⟨m, List.mem_cons_of_mem _ hm, hstart⟩
    | true =>
      obtain ⟨q, rest, hrest, hstart⟩ := head_runsFrom_some suffix ⟨t.span, [t.hashed]⟩ ms
      rw [runsFrom, hrest] at hr
      cases hr
      exact ⟨_, List.mem_cons_self, hstart⟩

end Splices

/-! ### Rune classes among signs -/

/-- The occurrence of a class that a rune names. -/
def runeOf (usage : Usage) (p : String × Span) : Option Occurrence :=
  if usage.runes.contains p.1 then some ⟨p.1, p.2, usage.placement p.1, true⟩ else none

/-- **The rune classes of a complex selector are among its classes.** -/
theorem runesIn_eq (usage : Usage) (c : ComplexSelector) :
    runesIn usage c = (classesIn c.simples).filterMap (runeOf usage) := by
  rw [runesIn, runeOccurrences, occurrences, c.parts_eq, classesIn]
  induction c.simples.flatMap (SimpleSelector.parts (· != globalPseudoClass)) with
  | nil => rfl
  | cons s ss ih =>
    cases hclass : s.class? with
    | some p =>
      -- a class counts if a rune names it
      have hs : s = .named .class_ p.1 p.2 := by
        unfold SimpleSelector.class? at hclass
        split at hclass
        · cases hclass
          rfl
        · cases hclass
      have hoccurrence : occurrence? usage s = some ⟨p.1, p.2, usage.placement p.1, true⟩ := by
        rw [hs]
        rfl
      rw [List.filterMap_cons_some hoccurrence, List.filterMap_cons_some hclass, List.filter_cons,
        List.filterMap_cons, usage.isRune_placement, runeOf, ih]
      split <;> rfl
    | none =>
      -- what is no class is native or does not count
      rw [List.filterMap_cons_none hclass, ← ih]
      cases hoccurrence : occurrence? usage s with
      | none => rw [List.filterMap_cons_none hoccurrence]
      | some o =>
        have hnative : o.placement = .native := by
          unfold occurrence? at hoccurrence
          split at hoccurrence
          · cases hclass
          · cases hoccurrence
          · cases hoccurrence
            rfl
          · cases hoccurrence
        rw [List.filterMap_cons_some hoccurrence,
          List.filter_cons_of_neg (by simp [hnative, Placement.isRune])]

/-- The target that a class becomes, and whether it is escaped. -/
def markOf (usage : Usage) (e : Escape) (x : Sign) : Option (Target × Bool) :=
  (x.class?.bind (runeOf usage)).map fun o => (targetOf e.hash o, e.chosen o.span)

theorem markOf_class (usage : Usage) (e : Escape) (name : String) (span : Span) :
    markOf usage e (.class_ name span) =
      if usage.runes.contains name then
        some (⟨span, hashedName e.hash name, usage.placement name == .mixed⟩, e.chosen span)
      else none := by
  rw [markOf, Sign.class?, Option.bind_some, runeOf]
  split <;> rfl

theorem Placed.le_start (h : Placed pos signs) {name : String} (hmem : .class_ name span ∈ signs) :
    pos ≤ span.start := by
  induction signs generalizing pos with
  | nil => cases hmem
  | cons x signs ih =>
    rcases List.mem_cons.1 hmem with rfl | hmem
    · rw [(h.1 name span rfl).1]
    · have := ih h.2 hmem
      omega

theorem Placed.le_mark (h : Placed pos signs) {usage : Usage} {e : Escape} :
    ∀ m ∈ signs.filterMap (markOf usage e), pos ≤ m.1.span.start := by
  intro m hm
  obtain ⟨x, hx, hmark⟩ := List.mem_filterMap.1 hm
  cases x with
  | char c => cases hmark
  | class_ name span =>
    rw [markOf_class] at hmark
    split at hmark
    · cases hmark
      exact h.le_start hx
    · cases hmark

section Marks

variable {source : List Char} {usage : Usage} {e : Escape} {suffix : String} {stop : Nat}
  {later : List Run}

variable {pos : Nat} {signs : List Sign}

/-- Text in front of signs is kept. -/
theorem variantFrom_marks_of_isAt {piece : List Char} (h : IsAt source pos piece)
    (hplaced : Placed (pos + byteLength piece) signs) (hlater : ∀ r ∈ later.head?,
      pos + byteLength piece + byteLength (plain signs) ≤ r.span.start)
    (hstop : pos + byteLength piece + byteLength (plain signs) ≤ stop) :
    variantFrom source stop pos (runsFrom suffix none (signs.filterMap (markOf usage e)) ++ later) =
      piece ++ variantFrom source stop (pos + byteLength piece)
        (runsFrom suffix none (signs.filterMap (markOf usage e)) ++ later) := by
  refine variantFrom_of_isAt h (forall_mem_head?_append ?_ ?_) (by omega)
  · intro r hr
    obtain ⟨m, hm, hstart⟩ := start_head_runsFrom r hr
    rw [hstart]
    exact hplaced.le_mark m hm
  · intro r hr
    have := hlater r hr
    omega

/-- Closing a run puts its wrapper in front. -/
theorem variantFrom_close
    (hwrap : ∀ names, names ≠ [] → (wrapper names suffix).toList = e.wrapText names)
    {names : List String} (hne : names ≠ []) (start pos : Nat) (runs : List Run) :
    variantFrom source stop start (OpenRun.close suffix ⟨⟨start, pos⟩, names.reverse⟩ :: runs) =
      e.wrapText names ++ variantFrom source stop pos runs := by
  rw [variantFrom, OpenRun.close, slice_self, List.nil_append, List.reverse_reverse,
    hwrap names hne]

/-- Putting the wrappers for signs in place escapes them: `apart` if no run is open in front of
them, `joined` if one is that starts at `start`. -/
structure Splices (source : List Char) (usage : Usage) (e : Escape) (suffix : String) (stop : Nat)
    (later : List Run) (pos : Nat) (signs : List Sign) : Prop where
  apart : variantFrom source stop pos
      (runsFrom suffix none (signs.filterMap (markOf usage e)) ++ later) =
    escapeText e [] signs ++ variantFrom source stop (pos + Text.byteLength (plain signs)) later
  joined : ∀ start names, names ≠ [] → variantFrom source stop start
      (runsFrom suffix (some ⟨⟨start, pos⟩, names.reverse⟩) (signs.filterMap (markOf usage e)) ++
        later) =
    escapeText e names signs ++ variantFrom source stop (pos + Text.byteLength (plain signs)) later

theorem byteLength_plain_cons (pos : Nat) (x : Sign) (signs : List Sign) :
    pos + byteLength (plain (x :: signs)) =
      pos + byteLength x.text + byteLength (plain signs) := by
  rw [plain_cons, byteLength_append, Nat.add_assoc]

section Steps

variable {pos : Nat} {x : Sign} {signs : List Sign}

theorem splices_nil
    (hwrap : ∀ names, names ≠ [] → (wrapper names suffix).toList = e.wrapText names) :
    Splices source usage e suffix stop later pos [] := by
  constructor
  · simp [escapeText, Escape.wrapText, runsFrom]
  · intro start names hne
    exact variantFrom_close hwrap hne start pos later

/-- A sign that is not escaped is kept, after the wrapper of the run that it ends. -/
theorem Splices.keep
    (hwrap : ∀ names, names ≠ [] → (wrapper names suffix).toList = e.wrapText names)
    (h : Splices source usage e suffix stop later (pos + byteLength x.text) signs)
    (hplaced : Placed (pos + byteLength x.text) signs) (hat : IsAt source pos x.text)
    (hmark : ∀ m ∈ markOf usage e x, m.2 = false)
    (hkept : ∀ names, escapeText e names (x :: signs) =
      e.wrapText names ++ (x.text ++ escapeText e [] signs))
    (hlater : ∀ r ∈ later.head?, pos + byteLength (plain (x :: signs)) ≤ r.span.start)
    (hstop : pos + byteLength (plain (x :: signs)) ≤ stop) :
    Splices source usage e suffix stop later pos (x :: signs) := by
  rw [byteLength_plain_cons] at hlater hstop
  have hrest : variantFrom source stop pos
      (runsFrom suffix none (signs.filterMap (markOf usage e)) ++ later) = _ :=
    variantFrom_marks_of_isAt hat hplaced hlater hstop
  rw [h.apart] at hrest
  have hsize : 0 < byteLength x.text := by
    refine byteLength_pos ?_
    cases x <;> simp [Sign.text]
  -- the sign has no mark, or one that opens no run
  have hruns : runsFrom suffix none ((x :: signs).filterMap (markOf usage e)) =
      runsFrom suffix none (signs.filterMap (markOf usage e)) ∧ ∀ start (names : List String),
        runsFrom suffix (some ⟨⟨start, pos⟩, names⟩) ((x :: signs).filterMap (markOf usage e)) =
          OpenRun.close suffix ⟨⟨start, pos⟩, names⟩ ::
            runsFrom suffix none (signs.filterMap (markOf usage e)) := by
    cases hx : markOf usage e x with
    | none =>
      rw [List.filterMap_cons_none hx]
      refine ⟨rfl, fun start names => runsFrom_some_of_lt ?_⟩
      intro m hm
      have := hplaced.le_mark m hm
      show pos < _
      omega
    | some m =>
      obtain ⟨t, escaped⟩ := m
      obtain rfl : escaped = false := hmark _ hx
      rw [List.filterMap_cons_some hx]
      exact ⟨rfl, fun _ _ => rfl⟩
  constructor
  · rw [hruns.1, hrest, hkept, byteLength_plain_cons]
    simp [Escape.wrapText]
  · intro start names hne
    rw [hruns.2, List.cons_append, variantFrom_close hwrap hne, hrest, hkept, byteLength_plain_cons]
    simp only [List.append_assoc]

/-- An escaped class joins the run that is open, or opens one. -/
theorem Splices.join {span : Span} {hashed : String} {mixed : Bool}
    (h : Splices source usage e suffix stop later (pos + byteLength x.text) signs)
    (hmark : markOf usage e x = some (⟨span, hashed, mixed⟩, true))
    (hspan : span = ⟨pos, pos + byteLength x.text⟩)
    (hescaped : ∀ names, escapeText e names (x :: signs) = escapeText e (names ++ [hashed]) signs) :
    Splices source usage e suffix stop later pos (x :: signs) := by
  subst hspan
  constructor
  · rw [List.filterMap_cons_some hmark, hescaped, byteLength_plain_cons]
    exact h.joined pos [hashed] (by simp)
  · intro start names hne
    rw [List.filterMap_cons_some hmark, hescaped, byteLength_plain_cons, runsFrom, if_pos rfl]
    have hjoined := h.joined start (names ++ [hashed]) (by simp)
    rwa [List.reverse_append] at hjoined

end Steps

/-- **Putting wrappers in place escapes the signs.** -/
theorem Placed.splices
    (hwrap : ∀ names, names ≠ [] → (wrapper names suffix).toList = e.wrapText names)
    (hplaced : Placed pos signs) (hat : IsAt source pos (plain signs))
    (hchosen : ∀ name span, .class_ name span ∈ signs → e.chosen span = true →
      usage.runes.contains name = true)
    (hlater : ∀ r ∈ later.head?, pos + byteLength (plain signs) ≤ r.span.start)
    (hstop : pos + byteLength (plain signs) ≤ stop) :
    Splices source usage e suffix stop later pos signs := by
  induction signs generalizing pos with
  | nil => exact splices_nil hwrap
  | cons x signs ih =>
    obtain ⟨hx, hsigns⟩ := hplaced
    rw [plain_cons] at hat
    have hrest := ih hsigns hat.right
      (fun name span hmem => hchosen name span (List.mem_cons_of_mem _ hmem))
      (byteLength_plain_cons pos x signs ▸ hlater) (byteLength_plain_cons pos x signs ▸ hstop)
    cases x with
    | char c => exact hrest.keep hwrap hsigns hat.left nofun (fun _ => rfl) hlater hstop
    | class_ name span =>
      have hmark := markOf_class usage e name span
      by_cases hescaped : e.chosen span = true
      · rw [if_pos (hchosen name span List.mem_cons_self hescaped), hescaped] at hmark
        refine hrest.join hmark (hx name span rfl).1 ?_
        intro names
        rw [escapeText, if_pos hescaped]
      · refine hrest.keep hwrap hsigns hat.left ?_ ?_ hlater hstop
        · intro m hm
          rw [hmark] at hm
          split at hm
          · cases hm
            exact Bool.eq_false_iff.2 hescaped
          · cases hm
        · intro names
          rw [escapeText, if_neg hescaped]
          rfl

end Marks

/-! ### What a choice escapes -/

/-- The ranges of the occurrences that a choice escapes. -/
def chosenSpans (os : List Occurrence) (choice : List Bool) : List Span :=
  (((os.zip choice).filter Prod.snd).map Prod.fst).map Occurrence.span

/-- The escape that a choice stands for. -/
def escapeOf (usage : Usage) (setting : StyleSetting) (c : ComplexSelector) (choice : List Bool) :
    Escape where
  hash := setting.hash
  extra := if setting.specific then [sentinelClass] else []
  chosen := fun span => decide (span ∈ chosenSpans (runesIn usage c) choice)

/-- **The escapes that the variants of a complex selector stand for.** -/
def escapesOf (usage : Usage) (setting : StyleSetting) (c : ComplexSelector) : List Escape :=
  (choices (targetsIn usage setting.hash c)).map (escapeOf usage setting c)

theorem mem_span_of_mem_chosenSpans (h : span ∈ chosenSpans os choice) :
    ∃ o ∈ os, o.span = span := by
  obtain ⟨o, ho, hspan⟩ := List.mem_map.1 h
  exact ⟨o, (sublist_chosen os choice).subset ho, hspan⟩

/-- A choice is read back from the ranges that it escapes. -/
theorem zip_eq_map_chosenSpans (hd : (os.map Occurrence.span).Nodup)
    (hl : os.length = choice.length) :
    os.zip choice = os.map fun o => (o, decide (o.span ∈ chosenSpans os choice)) := by
  induction os generalizing choice with
  | nil => rfl
  | cons o os ih =>
    cases choice with
    | nil => cases hl
    | cons b choice =>
      obtain ⟨ho, hos⟩ := List.nodup_cons.1 hd
      have hrest : ∀ p ∈ os, p.span ≠ o.span := by
        rintro p hp heq
        exact ho (heq ▸ List.mem_map_of_mem hp)
      have hnot : o.span ∉ chosenSpans os choice := by
        intro hmem
        obtain ⟨p, hp, heq⟩ := mem_span_of_mem_chosenSpans hmem
        exact hrest p hp heq
      have hchosen : chosenSpans (o :: os) (b :: choice) =
          if b then o.span :: chosenSpans os choice else chosenSpans os choice := by
        cases b <;> rfl
      rw [List.zip_cons_cons, List.map_cons, ih hos (Nat.succ.inj hl), hchosen]
      congr 1
      · cases b <;> simp [hnot]
      · refine List.map_congr_left fun p hp => ?_
        cases b <;> simp [hrest p hp]

theorem Span.Row.nodup {gap lo hi : Nat} {ss : List Span} (h : Row gap lo hi ss) : ss.Nodup := by
  refine h.apart.imp_of_mem ?_
  rintro s t hs _ hst rfl
  have := (h.inside s hs).2.1
  omega

/-- The wrappers of a style are those of its escapes. -/
theorem toList_wrapper (usage : Usage) (setting : StyleSetting) (c : ComplexSelector)
    (choice : List Bool) (names : List String) (hne : names ≠ []) :
    (wrapper names setting.suffix).toList = (escapeOf usage setting c choice).wrapText names := by
  obtain ⟨name, more, rfl⟩ := List.exists_cons_of_ne_nil hne
  have hglobal : ":global(".toList = ':' :: (globalPseudoClass.toList ++ ['(']) := rfl
  have hjoin : (String.join ((name :: more).map ("." ++ ·))).toList = classText (name :: more) := by
    rw [String.toList_join, List.flatMap_map, classText]
    congr 1
    funext n
    simp
  have hsuffix : setting.suffix.toList = classText (escapeOf usage setting c choice).extra := by
    rw [StyleSetting.suffix, escapeOf]
    cases setting.specific <;> simp [classText]
  rw [wrapper, String.toList_append, String.toList_append, String.toList_append, hjoin, hsuffix,
    hglobal, Escape.wrapText, classText, classText, classText, List.flatMap_append]
  simp

section Choices

variable {source : List Char} {usage : Usage} {setting : StyleSetting} {c : ComplexSelector}
  {choice : List Bool} {signs : List Sign}

theorem length_of_mem_choices (h : choice ∈ choices (targetsIn usage setting.hash c)) :
    (runesIn usage c).length = choice.length := by
  have hlength := (mem_choices_iff.1 h).length_eq
  rwa [targetsIn, List.length_map] at hlength

/-- The targets of a selector with a choice are the marks of its signs. -/
theorem zip_targetsIn (hd : ((runesIn usage c).map Occurrence.span).Nodup)
    (hclasses : signs.filterMap Sign.class? = classesIn c.simples)
    (h : choice ∈ choices (targetsIn usage setting.hash c)) :
    (targetsIn usage setting.hash c).zip choice =
      signs.filterMap (markOf usage (escapeOf usage setting c choice)) := by
  have hrunes : runesIn usage c = signs.filterMap fun x => x.class?.bind (runeOf usage) := by
    rw [runesIn_eq, ← hclasses, List.filterMap_filterMap]
  have hmarks : signs.filterMap (markOf usage (escapeOf usage setting c choice)) =
      (runesIn usage c).map fun o =>
        (targetOf setting.hash o, (escapeOf usage setting c choice).chosen o.span) := by
    rw [hrunes, List.map_filterMap]
    rfl
  rw [hmarks, targetsIn, List.zip_map_left, zip_eq_map_chosenSpans hd (length_of_mem_choices h),
    List.map_map]
  rfl

variable {pos : Nat}

theorem Placed.pairwise_start (h : Placed pos signs) :
    (signs.filterMap Sign.class?).Pairwise fun p q => p.2.start < q.2.start := by
  induction signs generalizing pos with
  | nil => exact .nil
  | cons x signs ih =>
    cases x with
    | char ch => exact ih h.2
    | class_ name span =>
      show List.Pairwise _ ((name, span) :: signs.filterMap Sign.class?)
      refine .cons ?_ (ih h.2)
      rintro ⟨name', span'⟩ hmem
      obtain ⟨y, hy, hclass⟩ := List.mem_filterMap.1 hmem
      cases y with
      | char ch => cases hclass
      | class_ name'' span'' =>
        cases hclass
        have hle := h.2.le_start hy
        have hpos : 0 < byteLength (Sign.class_ name span).text :=
          byteLength_pos (by simp [Sign.text])
        rw [(h.1 name span rfl).1]
        show pos < span'.start
        omega

/-- What is chosen among placed signs is named by a rune. -/
theorem Placed.rune_of_chosen (h : Placed pos signs)
    (hclasses : signs.filterMap Sign.class? = classesIn c.simples) {name : String} {span : Span}
    (hmem : .class_ name span ∈ signs) (hchosen : (escapeOf usage setting c choice).chosen span) :
    ∃ o ∈ runesIn usage c, o.name = name ∧ usage.runes.contains name = true := by
  obtain ⟨o, ho, hspan⟩ := mem_span_of_mem_chosenSpans (of_decide_eq_true hchosen)
  have horigin := ho
  rw [runesIn_eq, ← hclasses] at horigin
  obtain ⟨⟨name', span'⟩, hp, hrune⟩ := List.mem_filterMap.1 horigin
  have hq : (name, span) ∈ signs.filterMap Sign.class? :=
    List.mem_filterMap.2 ⟨_, hmem, rfl⟩
  rw [runeOf] at hrune
  split at hrune
  · rename_i hcontains
    cases hrune
    obtain rfl : span' = span := hspan
    -- two classes in one place are the same
    have hnodup : ((signs.filterMap Sign.class?).map Prod.snd).Nodup := by
      refine List.pairwise_map.2 (h.pairwise_start.imp ?_)
      rintro p q hlt heq
      rw [heq] at hlt
      omega
    have hsame := List.inj_on_of_nodup_map hnodup hp hq rfl
    obtain rfl : name' = name := congrArg Prod.fst hsame
    exact ⟨_, ho, rfl, hcontains⟩
  · cases hrune

end Choices

/-! ### The edits of items -/

section Edits

variable {source : List Char} {usage : Usage} {setting : StyleSetting} {stop pos : Nat}
  {later : List Run} {x : Item}

/-- The wrappers of a choice in the place of an item give its escaped signs. -/
theorem Item.Sound.variantFrom_wrappedRuns (h : x.Sound pos) (hlaid : x.value.Laid source)
    (hat : IsAt source x.value.span.start (plain x.signs)) {choice : List Bool}
    (hchoice : choice ∈ choices (targetsIn usage setting.hash x.value))
    (hlater : ∀ r ∈ later.head?, x.value.span.stop ≤ r.span.start)
    (hstop : x.value.span.stop ≤ stop) :
    variantFrom source stop x.value.span.start
        (wrappedRuns (targetsIn usage setting.hash x.value) choice setting.suffix ++ later) =
      escapeText (escapeOf usage setting x.value choice) [] x.signs ++
        variantFrom source stop x.value.span.stop later := by
  have hplaced : Placed x.value.span.start x.signs := by
    rw [h.span]
    exact h.placed
  have hend : x.value.span.stop = x.value.span.start + byteLength (plain x.signs) := by
    rw [h.span]
  rw [wrappedRuns, zip_targetsIn (hlaid.row_runesIn usage).nodup h.classes hchoice]
  rw [hend] at hlater hstop ⊢
  refine (hplaced.splices (toList_wrapper usage setting x.value choice) hat ?_ hlater hstop).apart
  intro name span hmem hchosen
  obtain ⟨_, _, _, hrune⟩ := hplaced.rune_of_chosen h.classes hmem hchosen
  exact hrune

theorem choices_of_not_mixed {targets : List Target} (h : targets.any (·.mixed) = false) :
    choices targets = [targets.map fun _ => true] := by
  induction targets with
  | nil => rfl
  | cons t targets ih =>
    rw [List.any_cons, Bool.or_eq_false_iff] at h
    rw [choices, if_neg (by simp [h.1]), ih h.2]
    rfl

/-- **The edits of a complex selector put its variants in its place.** -/
theorem Item.Sound.variantFrom_selectorEdits (h : x.Sound pos) (hlaid : x.value.Laid source)
    (hat : IsAt source x.value.span.start (plain x.signs))
    (hlater : ∀ r ∈ later.head?, x.value.span.stop ≤ r.span.start)
    (hstop : x.value.span.stop ≤ stop) :
    variantFrom source stop x.value.span.start
        (selectorEdits usage setting source x.value ++ later) =
      [',', ' '].intercalate
          ((escapesOf usage setting x.value).map fun e => escapeText e [] x.signs) ++
        variantFrom source stop x.value.span.stop later := by
  rw [selectorEdits]
  split
  · have hvariant : ∀ choice ∈ choices (targetsIn usage setting.hash x.value),
        (variant source x.value.span (targetsIn usage setting.hash x.value) choice
          setting.suffix).toList =
            escapeText (escapeOf usage setting x.value choice) [] x.signs := by
      intro choice hchoice
      have htext : variantFrom source x.value.span.stop x.value.span.start
          (wrappedRuns (targetsIn usage setting.hash x.value) choice setting.suffix ++ []) = _ :=
        h.variantFrom_wrappedRuns hlaid hat hchoice (by simp) (Nat.le_refl _)
      rw [List.append_nil] at htext
      rw [variant, String.toList_ofList, htext, variantFrom, slice_self, List.append_nil]
    rw [List.singleton_append, variantFrom, slice_self, List.nil_append, String.toList_intercalate,
      List.map_map, escapesOf, List.map_map]
    congr 2
    exact List.map_congr_left hvariant
  · rename_i hmixed
    have hchoices : choices (targetsIn usage setting.hash x.value) =
        [(targetsIn usage setting.hash x.value).map fun _ => true] := by
      refine choices_of_not_mixed ?_
      rw [any_mixed_targetsIn]
      exact Bool.eq_false_iff.2 hmixed
    rw [h.variantFrom_wrappedRuns hlaid hat (hchoices ▸ List.mem_singleton.2 rfl) hlater hstop,
      escapesOf, hchoices, List.map_singleton, List.map_singleton, List.intercalate_singleton]

theorem ComplexOf.Laid.le_start_of_mem_selectorEdits {c : ComplexSelector} (h : c.Laid source) :
    ∀ r ∈ selectorEdits usage setting source c, c.span.start ≤ r.span.start := by
  intro r hr
  have hmem : r.span ∈ selectorRanges usage c := by
    rw [← map_span_selectorEdits usage setting source c]
    exact List.mem_map_of_mem hr
  exact ((h.sited_selectorRanges usage).clear.inside _ hmem).1

/-- The edits of an item expand it. -/
theorem Item.Sound.variantFrom_edits (h : x.Sound pos) (hlaid : x.value.Laid source)
    (hat : IsAt source pos x.text)
    (hlater : ∀ r ∈ later.head?, pos + byteLength x.text ≤ r.span.start)
    (hstop : pos + byteLength x.text ≤ stop) :
    variantFrom source stop pos (selectorEdits usage setting source x.value ++ later) =
      x.expand (escapesOf usage setting x.value) ++
        variantFrom source stop (pos + byteLength x.text) later := by
  have hstart : x.value.span.start = pos + byteLength x.lead := by rw [h.span]
  have hend : x.value.span.stop =
      pos + byteLength x.lead + byteLength (plain x.signs) := by rw [h.span]
  have hsize : pos + byteLength x.text =
      x.value.span.stop + byteLength x.trail := by
    rw [hend, Item.text, byteLength_append, byteLength_append]
    omega
  have hsigns : IsAt source x.value.span.start (plain x.signs) := hstart ▸ hat.right.left
  have htrail : IsAt source x.value.span.stop x.trail := hend ▸ hat.right.right
  rw [hsize] at hlater hstop ⊢
  have hlead : ∀ r ∈ (selectorEdits usage setting source x.value ++ later).head?,
      pos + byteLength x.lead ≤ r.span.start := by
    refine forall_mem_head?_append ?_ ?_
    · intro r hr
      have := hlaid.le_start_of_mem_selectorEdits r (List.mem_of_mem_head? hr)
      omega
    · intro r hr
      have := hlater r hr
      omega
  rw [variantFrom_of_isAt hat.left hlead (by omega), ← hstart,
    h.variantFrom_selectorEdits hlaid hsigns ?_ (by omega),
    variantFrom_of_isAt htrail hlater hstop, Item.expand]
  · simp only [List.append_assoc]
  · intro r hr
    have := hlater r hr
    omega

variable {text : List Char} {xs : List Item}

/-- No item starts before its text. -/
theorem Items.le_start (h : Items pos text xs) : ∀ x ∈ xs, pos ≤ x.value.span.start := by
  have hfirst : ∀ {x : Item} {pos : Nat}, x.Sound pos → pos ≤ x.value.span.start := by
    intro x pos h
    rw [h.span]
    exact Nat.le_add_right _ _
  induction h with
  | last h => exact List.forall_mem_singleton.2 (hfirst h)
  | cons h _ _ ih =>
    refine List.forall_mem_cons.2 ⟨hfirst h, ?_⟩
    intro y hy
    have := ih y hy
    omega

/-- **The edits of a list expand its items.** -/
theorem Items.variantFrom_edits (h : Items pos text xs) (hlaid : ∀ x ∈ xs, x.value.Laid source)
    (hat : IsAt source pos text)
    (hlater : ∀ r ∈ later.head?, pos + byteLength text ≤ r.span.start)
    (hstop : pos + byteLength text ≤ stop) :
    variantFrom source stop pos
        ((xs.flatMap fun x => selectorEdits usage setting source x.value) ++ later) =
      expandItems (escapesOf usage setting) xs ++
        variantFrom source stop (pos + byteLength text) later := by
  induction h with
  | @last pos x h =>
    rw [List.flatMap_singleton, expandItems, List.map_singleton, List.intercalate_singleton]
    exact h.variantFrom_edits (hlaid x List.mem_cons_self) hat hlater hstop
  | @cons pos x text xs h _ hmore ih =>
    obtain ⟨hx, hxs⟩ := List.forall_mem_cons.1 hlaid
    have hcomma : IsAt source (pos + byteLength x.text) ([','] ++ text) := hat.right
    have hone : byteLength [','] = 1 := rfl
    have hsize : pos + byteLength (x.text ++ ',' :: text) =
        pos + byteLength x.text + 1 + byteLength text := by
      rw [byteLength_append, byteLength_cons]
      show _ + (_ + (1 + _)) = _
      omega
    rw [hsize] at hlater hstop ⊢
    have hrest := ih hxs (hone ▸ hcomma.right) hlater hstop
    -- what comes next is edited behind the comma
    have hnext : ∀ r ∈ ((xs.flatMap fun x => selectorEdits usage setting source x.value) ++
        later).head?, pos + byteLength x.text + 1 ≤ r.span.start := by
      refine forall_mem_head?_append ?_ ?_
      · intro r hr
        obtain ⟨y, hy, hmem⟩ := List.mem_flatMap.1 (List.mem_of_mem_head? hr)
        have := hmore.le_start y hy
        have := (hxs y hy).le_start_of_mem_selectorEdits r hmem
        omega
      · intro r hr
        have := hlater r hr
        omega
    have hne : xs.map (fun x => x.expand (escapesOf usage setting x.value)) ≠ [] := by
      cases hmore <;> simp
    rw [List.flatMap_cons, List.append_assoc, h.variantFrom_edits hx hat.left ?_ (by omega),
      variantFrom_of_isAt hcomma.left (hone ▸ hnext) (by rw [hone]; omega), hone, hrest,
      expandItems, expandItems, List.map_cons, List.intercalate_cons_of_ne_nil hne]
    · simp only [List.append_assoc]
    · intro r hr
      have := hnext r hr
      omega

end Edits

end CssRune
