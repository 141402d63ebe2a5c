/-
**All variants of a selector, by number.**

The variants of a complex selector are made one after the other, and their numbers say which classes
they escape: counted down from the last number, a variant has a binary digit for each mixed class,
the first class has the highest digit, and it is escaped where its digit is one.  So each choice of
mixed classes is made once.  A variant keeps the source but for the wrappers it puts in, and from
its text the choice can be read off: where two choices part, one text goes on with a wrapper and the
other with the class as it stands, or one wrapper goes on and the other one ends.

Main definition:

* `EscapesIn` — **the text of a range with the chosen targets escaped**.

Main results:

* `getElem?_choices` — the choice of each number;
* `bijective_digits` — every choice of mixed targets has one number;
* `escapesIn_variant` — a variant escapes what is chosen;
* `Distinguishes.cons`, `nodup_variants` — variants are different;
* `variants_enumerate` — **the variants are those of all choices, each once**.
-/

import CssRune.Proofs.Rune.Variants
import CssRune.Proofs.Rune.Wrappers
import Mathlib.Algebra.Group.Nat.Defs

set_option autoImplicit false

namespace CssRune

open Text

/-! ### Choices by number -/

/-- Whether the target at a place is escaped for the digits of a number: one that is not mixed
always is, and a mixed one if its digit is one.  A digit has as many below it as there are mixed
targets behind its own, so that the first mixed target has the highest one. -/
def isEscaped (targets : List Target) (digits i : Nat) : Bool :=
  targets[i]?.any fun t => !t.mixed || digits.testBit (mixedCount (targets.drop (i + 1)))

/-- What the digits of a number choose. -/
def digitChoice (targets : List Target) (digits : Nat) : List Bool :=
  (List.range targets.length).map (isEscaped targets digits)

theorem digitChoice_cons (t : Target) (targets : List Target) (digits : Nat) :
    digitChoice (t :: targets) digits =
      (!t.mixed || digits.testBit (mixedCount targets)) :: digitChoice targets digits := by
  rw [digitChoice, List.length_cons, List.range_succ_eq_map, List.map_cons, List.map_map]
  rfl

variable {t : Target} {targets : List Target} {k i : Nat} {source : List Char} {span : Span}
  {suffix : String}

/-- Only as many digits count as there are mixed targets. -/
theorem digitChoice_two_pow_add (hk : mixedCount targets ≤ k) (digits : Nat) :
    digitChoice targets (2 ^ k + digits) = digitChoice targets digits := by
  induction targets with
  | nil => rfl
  | cons t targets ih =>
    rw [digitChoice_cons, digitChoice_cons]
    cases hmixed : t.mixed with
    | true =>
      rw [mixedCount_cons_of_mixed hmixed] at hk
      rw [ih (by omega), Nat.testBit_two_pow_add_gt (by omega)]
    | false =>
      rw [mixedCount_cons_of_not_mixed hmixed] at hk
      rw [ih hk]
      rfl

/-- **The choice of each number.** -/
theorem getElem?_choices (targets : List Target) {j : Nat} (hj : j < 2 ^ mixedCount targets) :
    (choices targets)[j]? = some (digitChoice targets (2 ^ mixedCount targets - 1 - j)) := by
  induction targets generalizing j with
  | nil =>
    obtain rfl : j = 0 := Nat.lt_one_iff.1 hj
    rfl
  | cons t targets ih =>
    have hlength := length_choices targets
    rw [choices, digitChoice_cons]
    cases hmixed : t.mixed with
    | false =>
      rw [mixedCount_cons_of_not_mixed hmixed] at hj ⊢
      rw [if_neg (by simp), List.getElem?_map, ih hj]
      rfl
    | true =>
      rw [mixedCount_cons_of_mixed hmixed, Nat.pow_succ] at hj ⊢
      rw [if_pos rfl]
      -- the upper half of the numbers has the highest digit
      by_cases hhalf : j < 2 ^ mixedCount targets
      · have hdigits : 2 ^ mixedCount targets * 2 - 1 - j =
            2 ^ mixedCount targets + (2 ^ mixedCount targets - 1 - j) := by omega
        have hlow : (2 ^ mixedCount targets - 1 - j).testBit (mixedCount targets) = false :=
          Nat.testBit_lt_two_pow (by omega)
        rw [List.getElem?_append_left (by simpa [hlength] using hhalf), List.getElem?_map,
          ih hhalf, hdigits, Nat.testBit_two_pow_add_eq, hlow,
          digitChoice_two_pow_add (Nat.le_refl _)]
        rfl
      · have hdigits : 2 ^ mixedCount targets * 2 - 1 - j =
            2 ^ mixedCount targets - 1 - (j - 2 ^ mixedCount targets) := by omega
        rw [List.getElem?_append_right (by simpa [hlength] using hhalf), List.length_map,
          hlength, List.getElem?_map, ih (by omega), hdigits,
          Nat.testBit_lt_two_pow (by omega)]
        rfl

/-- No choice is made twice. -/
theorem nodup_choices (targets : List Target) : (choices targets).Nodup := by
  have hcons : ∀ (b : Bool) {cs : List (List Bool)}, cs.Nodup → (cs.map (b :: ·)).Nodup :=
    fun b _ h => h.map fun _ _ heq => (List.cons.inj heq).2
  induction targets with
  | nil => exact List.nodup_singleton []
  | cons t targets ih =>
    rw [choices]
    split
    · refine List.nodup_append.2 ⟨hcons true ih, hcons false ih, ?_⟩
      rintro c hc d hd rfl
      obtain ⟨_, _, rfl⟩ := List.mem_map.1 hc
      obtain ⟨_, _, heq⟩ := List.mem_map.1 hd
      cases heq
    · exact hcons true ih

theorem getElem?_digitChoice (hi : i < targets.length) (digits : Nat) :
    (digitChoice targets digits)[i]? = some (isEscaped targets digits i) := by
  rw [digitChoice, List.getElem?_map, List.getElem?_range hi]
  rfl

theorem isEscaped_of_not_mixed (hi : i < targets.length) (hmixed : targets[i].mixed = false)
    (digits : Nat) : isEscaped targets digits i = true := by
  simp [isEscaped, List.getElem?_eq_getElem hi, hmixed]

/-- **Every choice of mixed targets has one number.** -/
theorem bijective_digits (targets : List Target) :
    Function.Bijective fun (j : Fin (2 ^ mixedCount targets))
      (i : { i : Fin targets.length // targets[i].mixed = true }) =>
        isEscaped targets (2 ^ mixedCount targets - 1 - j) i.1 := by
  constructor
  · intro j j' h
    -- the choices agree on the other targets as well, and no choice is made twice
    have hchoice : digitChoice targets (2 ^ mixedCount targets - 1 - j) =
        digitChoice targets (2 ^ mixedCount targets - 1 - j') := by
      refine List.map_congr_left fun i hi => ?_
      have hi := List.mem_range.1 hi
      cases hmixed : targets[i].mixed with
      | true => exact congrFun h ⟨⟨i, hi⟩, hmixed⟩
      | false => rw [isEscaped_of_not_mixed hi hmixed, isEscaped_of_not_mixed hi hmixed]
    have hget := (getElem?_choices targets j.2).trans
      ((congrArg some hchoice).trans (getElem?_choices targets j'.2).symm)
    have hlt : j.1 < (choices targets).length := by
      rw [length_choices]
      exact j.2
    exact Fin.ext ((List.getElem?_inj hlt (nodup_choices targets)).1 hget)
  · intro subset
    let choice := List.ofFn fun i : Fin targets.length =>
      if h : targets[i].mixed = true then subset ⟨i, h⟩ else true
    have hmem : choice ∈ choices targets := by
      refine mem_choices_iff.2 (List.forall₂_iff_get.2 ⟨by simp [choice], fun i hi hi' => ?_⟩)
      by_cases hmixed : targets[i].mixed = true
      · exact Or.inl hmixed
      · exact Or.inr (by simp [choice, hmixed])
    obtain ⟨j, hj⟩ := List.mem_iff_getElem?.1 hmem
    have hlt : j < 2 ^ mixedCount targets := by
      rw [← length_choices]
      exact (List.getElem?_eq_some_iff.1 hj).1
    refine ⟨⟨j, hlt⟩, funext fun i => ?_⟩
    have hdigits := Option.some.inj ((getElem?_choices targets hlt).symm.trans hj)
    have hget := getElem?_digitChoice i.1.2 (2 ^ mixedCount targets - 1 - j)
    have hmixed : targets[i.1.1].mixed = true := i.2
    rw [hdigits] at hget
    simpa [choice, hmixed] using hget.symm

/-! ### Texts with chosen targets escaped -/

/-- A text is that of a range with the chosen targets escaped.  It is put together from pieces that
fill the range: the runs of the chosen targets, with their wrappers, and what is between them, as it
is in the source. -/
def EscapesIn (source : List Char) (span : Span) (targets : List Target) (chosen : List Bool)
    (suffix text : String) : Prop :=
  ∃ runs pieces, RunsOf targets chosen suffix runs ∧ runs.Sublist pieces ∧
    Span.Links span.start span.stop (pieces.map Run.span) ∧
    text = String.join (pieces.map Run.text) ∧
    ∀ p ∈ pieces, p ∈ runs ∨ (p.span.Cuts source ∧ p.text.toList = Text.slice source p.span ∧
      ∀ n, p.span.contains n = true → ¬Covered Target.span targets chosen n)

/-- A range of the source, as it is. -/
def keptPiece (source : List Char) (span : Span) : Run :=
  ⟨span, String.ofList (Text.slice source span)⟩

/-- Runs, and what lies around them from an offset up to another one. -/
def piecesAround (source : List Char) (stop : Nat) : Nat → List Run → List Run
  | start, [] => [keptPiece source ⟨start, stop⟩]
  | start, r :: runs =>
    keptPiece source ⟨start, r.span.start⟩ :: r :: piecesAround source stop r.span.stop runs

section Pieces

variable {source : List Char} {start stop : Nat} {runs : List Run}

theorem variantFrom_eq_join (source : List Char) (start stop : Nat) (runs : List Run) :
    String.ofList (variantFrom source stop start runs) =
      String.join ((piecesAround source stop start runs).map Run.text) := by
  have htext : variantFrom source stop start runs =
      (piecesAround source stop start runs).flatMap (·.text.toList) := by
    induction runs generalizing start with
    | nil => simp [variantFrom, piecesAround, keptPiece]
    | cons r runs ih =>
      rw [variantFrom, piecesAround, List.flatMap_cons, List.flatMap_cons, ih, List.append_assoc]
      simp [keptPiece]
  rw [htext, ← String.toList_inj, String.toList_ofList, String.toList_join, List.flatMap_map]

theorem sublist_piecesAround (source : List Char) (start stop : Nat) (runs : List Run) :
    runs.Sublist (piecesAround source stop start runs) := by
  induction runs generalizing start with
  | nil => exact List.nil_sublist _
  | cons r runs ih => exact ((ih r.span.stop).cons_cons r).cons _

theorem links_piecesAround (hle : start ≤ stop) (hrow : Span.Row 0 start stop (runs.map Run.span)) :
    Span.Links start stop ((piecesAround source stop start runs).map Run.span) := by
  induction runs generalizing start with
  | nil => exact ⟨rfl, hle, rfl⟩
  | cons r runs ih =>
    obtain ⟨hlo, hlt, hhi, hrest⟩ := hrow.of_cons
    exact ⟨rfl, hlo, rfl, Nat.le_of_lt hlt, ih hhi hrest⟩

/-- What is between runs is cut out of the source, and shares no byte with a run. -/
theorem kept_of_mem_piecesAround (hstart : IsAt source start [])
    (hstop : IsAt source stop []) (hle : start ≤ stop)
    (hrow : Span.Row 0 start stop (runs.map Run.span)) (hcuts : ∀ r ∈ runs, r.span.Cuts source)
    {p : Run} (hp : p ∈ piecesAround source stop start runs) :
    p ∈ runs ∨ ∃ s : Span, p = keptPiece source s ∧ s.Cuts source ∧ start ≤ s.start ∧
      ∀ r ∈ runs, s.stop ≤ r.span.start ∨ r.span.stop ≤ s.start := by
  induction runs generalizing start with
  | nil =>
    have hcuts := Span.cuts_of_isAt hstart hstop hle
    refine Or.inr ⟨_, List.mem_singleton.1 hp, hcuts, Nat.le_refl _, ?_⟩
    simp
  | cons r runs ih =>
    obtain ⟨hlo, hlt, hhi, hrest⟩ := hrow.of_cons
    obtain ⟨hr, hcuts⟩ := List.forall_mem_cons.1 hcuts
    rw [piecesAround, List.mem_cons, List.mem_cons] at hp
    rcases hp with hp | rfl | hp
    · refine Or.inr ⟨_, hp, Span.cuts_of_isAt hstart hr.isAt_start hlo, Nat.le_refl _, ?_⟩
      refine List.forall_mem_cons.2 ⟨Or.inl (Nat.le_refl _), fun q hq => Or.inl ?_⟩
      have := (hrest.inside _ (List.mem_map_of_mem hq)).1
      show r.span.start ≤ q.span.start
      omega
    · exact Or.inl List.mem_cons_self
    · rcases ih hr.isAt_stop hhi hrest hcuts hp with hmem | ⟨s, hs, hscuts, hsstart, happart⟩
      · exact Or.inl (List.mem_cons_of_mem _ hmem)
      · exact Or.inr ⟨s, hs, hscuts, by omega, List.forall_mem_cons.2 ⟨Or.inr hsstart, happart⟩⟩

end Pieces

/-- **A variant escapes what is chosen.** -/
theorem escapesIn_variant (hspan : span.Cuts source) (hcuts : ∀ t ∈ targets, t.span.Cuts source)
    (hrow : Span.Row 0 span.start span.stop (targets.map Target.span)) (chosen : List Bool)
    (suffix : String) :
    EscapesIn source span targets chosen suffix (variant source span targets chosen suffix) := by
  have hne : ∀ t ∈ targets, t.span.start < t.span.stop := fun t ht =>
    (hrow.inside _ (List.mem_map_of_mem ht)).2.1
  have hruns := runsOf_wrappedRuns hne (List.pairwise_map.1 hrow.apart) chosen suffix
  have hrunsRow : Span.Row 0 span.start span.stop
      ((wrappedRuns targets chosen suffix).map Run.span) := by
    rw [wrappedRuns_eq_map, List.map_map]
    exact row_hull_groups hrow
  have hrunsCuts : ∀ r ∈ wrappedRuns targets chosen suffix, r.span.Cuts source := by
    rw [wrappedRuns_eq_map]
    refine List.forall_mem_map.2 fun g hg => ?_
    obtain ⟨hgne, hfilled⟩ := filled_of_mem_groups hne g hg
    exact cuts_hull hgne hfilled fun t ht => hcuts t ((sublist_of_mem_groups hg).subset ht)
  refine ⟨_, _, hruns, sublist_piecesAround source span.start span.stop _,
    links_piecesAround hspan.le hrunsRow, variantFrom_eq_join _ _ _ _, fun p hp => ?_⟩
  refine (kept_of_mem_piecesAround hspan.isAt_start hspan.isAt_stop hspan.le hrunsRow hrunsCuts
    hp).imp_right ?_
  rintro ⟨s, rfl, hs, -, happart⟩
  refine ⟨hs, String.toList_ofList, fun n hn hcovered => ?_⟩
  obtain ⟨r, hr, hin⟩ := (hruns.covers n).2 hcovered
  rw [Span.contains_iff] at hin hn
  dsimp only [keptPiece] at hn
  rcases happart r hr with hbefore | hafter
  · omega
  · omega

/-! ### Variants are different -/

theorem toList_wrapper_eq (names : List String) (suffix : String) :
    (wrapper names suffix).toList =
      ":global(".toList ++ (classText names ++ (suffix.toList ++ [')'])) := by
  have hjoin : (String.join (names.map ("." ++ ·))).toList = classText names := by
    rw [String.toList_join, List.flatMap_map, classText]
    congr 1
    funext name
    simp
  rw [wrapper, String.toList_append, String.toList_append, String.toList_append, hjoin]
  simp

/-- What stands before the first of two equal marks is the same. -/
theorem eq_of_append_cons_eq {c : Char} {a b x y : List Char} (ha : c ∉ a) (hb : c ∉ b)
    (h : a ++ c :: x = b ++ c :: y) : a = b := by
  have hwhile : ∀ {a x : List Char}, c ∉ a → (a ++ c :: x).takeWhile (· != c) = a := by
    intro a x ha
    rw [List.takeWhile_append_of_pos, List.takeWhile_cons_of_neg (by simp), List.append_nil]
    intro d hd
    have hne : d ≠ c := fun heq => ha (heq ▸ hd)
    simpa using hne
  rw [← hwhile ha (x := x), h, hwhile hb]

/-- A wrapper of more names is not the start of a text that goes on with a wrapper of fewer. -/
theorem wrapper_append_ne {names more : List String} (hmore : more ≠ [])
    (hnames : ∀ name ∈ names ++ more, ')' ∉ name.toList) (hsuffix : ')' ∉ suffix.toList)
    (x y : List Char) :
    (wrapper (names ++ more) suffix).toList ++ x ≠ (wrapper names suffix).toList ++ y := by
  have hclass : ∀ {names : List String}, (∀ name ∈ names, ')' ∉ name.toList) →
      ')' ∉ classText names := by
    intro names h hmem
    obtain ⟨name, hname, hmem⟩ := List.mem_flatMap.1 hmem
    rcases List.mem_cons.1 hmem with heq | hmem
    · cases heq
    · exact h name hname hmem
  have htext : ∀ {names : List String}, (∀ name ∈ names, ')' ∉ name.toList) →
      ')' ∉ ":global(".toList ++ (classText names ++ suffix.toList) := by
    intro names h hmem
    rcases List.mem_append.1 hmem with hmem | hmem
    · revert hmem
      decide
    · exact (List.mem_append.1 hmem).elim (hclass h) hsuffix
  intro heq
  rw [toList_wrapper_eq, toList_wrapper_eq] at heq
  have hsame := eq_of_append_cons_eq (htext hnames) (htext (List.forall_mem_append.1 hnames).1)
    (x := x) (y := y) (by simpa using heq)
  have hlength := congrArg List.length (List.append_cancel_left hsame)
  obtain ⟨name, rest, rfl⟩ := List.exists_cons_of_ne_nil hmore
  simp only [classText, List.flatMap_append, List.flatMap_cons, List.length_append,
    List.length_cons] at hlength
  omega

section Distinct

variable {source : List Char} {stop : Nat} {suffix : String}

/-- The first run from an open one on has the names of the open one, and more names of targets. -/
theorem exists_first_runsFrom (suffix : String) (r : OpenRun) (ms : List (Target × Bool)) :
    ∃ more stop rest, runsFrom suffix (some r) ms =
        ⟨⟨r.span.start, stop⟩, wrapper (r.names.reverse ++ more) suffix⟩ :: rest ∧
      ∀ name ∈ more, ∃ m ∈ ms, m.1.hashed = name := by
  have hclosed : ∀ rest, OpenRun.close suffix r :: rest =
      ⟨⟨r.span.start, r.span.stop⟩, wrapper (r.names.reverse ++ []) suffix⟩ :: rest := by
    intro rest
    rw [List.append_nil]
    rfl
  induction ms generalizing r with
  | nil => exact ⟨[], _, _, hclosed [], by simp⟩
  | cons m ms ih =>
    obtain ⟨t, escaped⟩ := m
    cases escaped with
    | false => exact ⟨[], _, _, hclosed _, by simp⟩
    | true =>
      rw [runsFrom]
      split
      · obtain ⟨more, stop, rest, hruns, hmore⟩ :=
          ih ⟨⟨r.span.start, t.span.stop⟩, t.hashed :: r.names⟩ fun _ => by
            rw [List.append_nil]
            rfl
        refine ⟨t.hashed :: more, stop, rest, ?_, List.forall_mem_cons.2
          ⟨⟨_, List.mem_cons_self, rfl⟩, fun name hname => ?_⟩⟩
        · rw [hruns, List.reverse_cons, List.append_assoc]
          rfl
        · obtain ⟨m, hm, hhashed⟩ := hmore name hname
          exact ⟨m, List.mem_cons_of_mem _ hm, hhashed⟩
      · exact ⟨[], _, _, hclosed _, by simp⟩

variable {r : OpenRun} {t : Target} {targets : List Target}

theorem runsFrom_join (h : r.span.stop = t.span.start) (ms : List (Target × Bool)) :
    runsFrom suffix (some r) ((t, true) :: ms) =
      runsFrom suffix (some ⟨⟨r.span.start, t.span.stop⟩, t.hashed :: r.names⟩) ms := if_pos h

/-- What is before an open run is kept. -/
theorem variantFrom_runsFrom_some (source : List Char) (stop pos : Nat) (suffix : String)
    (r : OpenRun) (ms : List (Target × Bool)) :
    variantFrom source stop pos (runsFrom suffix (some r) ms) =
      slice source ⟨pos, r.span.start⟩ ++
        variantFrom source stop r.span.start (runsFrom suffix (some r) ms) := by
  obtain ⟨more, stop', rest, hruns, -⟩ := exists_first_runsFrom suffix r ms
  rw [hruns, variantFrom, variantFrom, slice_self, List.nil_append, List.append_assoc]

theorem variantFrom_close_cons (source : List Char) (stop : Nat) (suffix : String) (r : OpenRun)
    (runs : List Run) :
    variantFrom source stop r.span.start (r.close suffix :: runs) =
      (wrapper r.names.reverse suffix).toList ++ variantFrom source stop r.span.stop runs := by
  rw [variantFrom, OpenRun.close, slice_self, List.nil_append]

/-- Different choices for targets give different texts: `apart` if no run is open in front of them,
`joined` if one is. -/
structure Distinguishes (source : List Char) (stop : Nat) (suffix : String)
    (targets : List Target) : Prop where
  apart : ∀ {pos c c'}, Text.IsAt source pos [] → Span.Row 0 pos stop (targets.map Target.span) →
    c.length = targets.length → c'.length = targets.length →
    variantFrom source stop pos (runsFrom suffix none (targets.zip c)) =
      variantFrom source stop pos (runsFrom suffix none (targets.zip c')) → c = c'
  joined : ∀ {r : OpenRun} {c c'}, Text.IsAt source r.span.stop [] →
    Span.Row 0 r.span.stop stop (targets.map Target.span) → (∀ name ∈ r.names, ')' ∉ name.toList) →
    c.length = targets.length → c'.length = targets.length →
    variantFrom source stop r.span.start (runsFrom suffix (some r) (targets.zip c)) =
      variantFrom source stop r.span.start (runsFrom suffix (some r) (targets.zip c')) → c = c'

/-- Where no run is open, a target that is escaped starts with a colon and one that is not with a
dot. -/
theorem variantFrom_ne_of_apart {pos : Nat} (hpos : IsAt source pos [])
    (hrow : Span.Row 0 pos stop ((t :: targets).map Target.span)) (hcuts : t.span.Cuts source)
    (hdot : (slice source t.span).head? = some '.') (ms : List (Target × Bool))
    {ms' : List (Target × Bool)} (hms' : ∀ m ∈ ms', m.1 ∈ targets) :
    variantFrom source stop pos (runsFrom suffix none ((t, true) :: ms)) ≠
      variantFrom source stop pos (runsFrom suffix none ((t, false) :: ms')) := by
  obtain ⟨hlo, hlt, hhi, hrest⟩ := hrow.of_cons
  have hbefore : Span.Cuts source ⟨pos, t.span.start⟩ := Span.cuts_of_isAt hpos hcuts.isAt_start hlo
  have hthrough : Span.Cuts source ⟨pos, t.span.stop⟩ :=
    Span.cuts_of_isAt hpos hcuts.isAt_stop (by omega)
  have hlength : byteLength (slice source ⟨pos, t.span.start⟩) = t.span.start - pos :=
    hbefore.byteLength_slice
  have hsize : pos + byteLength (slice source ⟨pos, t.span.stop⟩) = t.span.stop := by
    rw [hthrough.byteLength_slice]
    show pos + (t.span.stop - pos) = t.span.stop
    omega
  have hsplit : slice source ⟨pos, t.span.stop⟩ =
      slice source ⟨pos, t.span.start⟩ ++ slice source t.span := by
    have hle : pos + byteLength (slice source ⟨pos, t.span.start⟩) ≤ t.span.stop := by
      omega
    have hto : (⟨pos, t.span.start⟩ : Span).start + (t.span.start - pos) = t.span.start := by
      show pos + (t.span.start - pos) = t.span.start
      omega
    have happend := hbefore.isAt_slice.slice_append hle
    rwa [hlength, hto] at happend
  obtain ⟨tail, htail⟩ := List.head?_eq_some_iff.1 hdot
  -- the class that is not escaped is kept with what is before it
  have hkept : variantFrom source stop pos (runsFrom suffix none ((t, false) :: ms')) =
      slice source ⟨pos, t.span.start⟩ ++ '.' :: (tail ++
        variantFrom source stop t.span.stop (runsFrom suffix none ms')) := by
    rw [runsFrom, variantFrom_of_isAt hthrough.isAt_slice ?_ (by rw [hsize]; exact hhi), hsize,
      hsplit, htail]
    · simp
    · intro r hr
      obtain ⟨m, hm, hstart⟩ := start_head_runsFrom r hr
      rw [hsize, hstart]
      exact (hrest.inside _ (List.mem_map_of_mem (hms' m hm))).1
  obtain ⟨more, stop', rest, hruns, -⟩ := exists_first_runsFrom suffix ⟨t.span, [t.hashed]⟩ ms
  rw [hkept, runsFrom, hruns, variantFrom, toList_wrapper_eq, List.append_assoc]
  intro heq
  cases (List.cons.inj (List.append_cancel_left heq)).1

/-- Where a run is open, a target that is escaped goes on with it and one that is not ends it. -/
theorem variantFrom_ne_of_joined (hjoin : r.span.stop = t.span.start)
    (hnames : ∀ name ∈ r.names, ')' ∉ name.toList) (hhashed : ')' ∉ t.hashed.toList)
    (hsuffix : ')' ∉ suffix.toList) {ms : List (Target × Bool)}
    (hms : ∀ m ∈ ms, ')' ∉ m.1.hashed.toList) (ms' : List (Target × Bool)) :
    variantFrom source stop r.span.start (runsFrom suffix (some r) ((t, true) :: ms)) ≠
      variantFrom source stop r.span.start (runsFrom suffix (some r) ((t, false) :: ms')) := by
  obtain ⟨more, stop', rest, hruns, hmore⟩ :=
    exists_first_runsFrom suffix ⟨⟨r.span.start, t.span.stop⟩, t.hashed :: r.names⟩ ms
  have hlonger : (t.hashed :: r.names).reverse ++ more = r.names.reverse ++ t.hashed :: more := by
    simp
  have hended : runsFrom suffix (some r) ((t, false) :: ms') =
      r.close suffix :: runsFrom suffix none ms' := rfl
  rw [runsFrom_join hjoin, hended, variantFrom_close_cons, hruns, variantFrom, slice_self,
    List.nil_append, hlonger]
  refine wrapper_append_ne (List.cons_ne_nil _ _) (List.forall_mem_append.2
    ⟨fun name hname => hnames name (List.mem_reverse.1 hname),
      List.forall_mem_cons.2 ⟨hhashed, fun name hname => ?_⟩⟩) hsuffix _ _
  obtain ⟨m, hm, rfl⟩ := hmore name hname
  exact hms m hm

/-- A target in front of targets that can be told apart. -/
theorem Distinguishes.cons (h : Distinguishes source stop suffix targets)
    (hcuts : t.span.Cuts source) (hdot : (slice source t.span).head? = some '.')
    (hhashed : ')' ∉ t.hashed.toList) (htargets : ∀ s ∈ targets, ')' ∉ s.hashed.toList)
    (hsuffix : ')' ∉ suffix.toList) : Distinguishes source stop suffix (t :: targets) := by
  have hms : ∀ {c : List Bool}, ∀ m ∈ targets.zip c, m.1 ∈ targets :=
    fun m hm => (List.of_mem_zip hm).1
  have happart : ∀ {pos c c'}, IsAt source pos [] →
      Span.Row 0 pos stop ((t :: targets).map Target.span) →
      c.length = (t :: targets).length → c'.length = (t :: targets).length →
      variantFrom source stop pos (runsFrom suffix none ((t :: targets).zip c)) =
        variantFrom source stop pos (runsFrom suffix none ((t :: targets).zip c')) → c = c' := by
    intro pos c c' hpos hrow hc hc' heq
    obtain ⟨b, d, rfl⟩ := List.exists_cons_of_length_eq_add_one hc
    obtain ⟨b', d', rfl⟩ := List.exists_cons_of_length_eq_add_one hc'
    obtain ⟨hlo, hlt, hhi, hrest⟩ := hrow.of_cons
    have hd : d.length = targets.length := Nat.succ.inj hc
    have hd' : d'.length = targets.length := Nat.succ.inj hc'
    rw [List.zip_cons_cons, List.zip_cons_cons] at heq
    cases b with
    | true =>
      cases b' with
      | true =>
        have hopen := variantFrom_runsFrom_some source stop pos suffix ⟨t.span, [t.hashed]⟩
        rw [runsFrom, runsFrom, hopen (targets.zip d), hopen (targets.zip d')] at heq
        rw [h.joined hcuts.isAt_stop hrest (by simpa using hhashed) hd hd'
          (List.append_cancel_left heq)]
      | false => exact absurd heq (variantFrom_ne_of_apart hpos hrow hcuts hdot _ hms)
    | false =>
      cases b' with
      | true => exact absurd heq.symm (variantFrom_ne_of_apart hpos hrow hcuts hdot _ hms)
      | false =>
        rw [runsFrom, runsFrom] at heq
        rw [h.apart hpos (hrest.mono (by omega) (Nat.le_refl _)) hd hd' heq]
  refine ⟨happart, fun {r c c'} hpos hrow hnames hc hc' heq => ?_⟩
  obtain ⟨hlo, hlt, hhi, hrest⟩ := hrow.of_cons
  by_cases hjoin : r.span.stop = t.span.start
  · obtain ⟨b, d, rfl⟩ := List.exists_cons_of_length_eq_add_one hc
    obtain ⟨b', d', rfl⟩ := List.exists_cons_of_length_eq_add_one hc'
    have hd : d.length = targets.length := Nat.succ.inj hc
    have hd' : d'.length = targets.length := Nat.succ.inj hc'
    have hclean : ∀ {c : List Bool}, ∀ m ∈ targets.zip c, ')' ∉ m.1.hashed.toList :=
      fun m hm => htargets m.1 (hms m hm)
    rw [List.zip_cons_cons, List.zip_cons_cons] at heq
    cases b with
    | true =>
      cases b' with
      | true =>
        rw [runsFrom_join hjoin, runsFrom_join hjoin] at heq
        rw [h.joined (r := ⟨⟨r.span.start, t.span.stop⟩, t.hashed :: r.names⟩) hcuts.isAt_stop
          hrest (List.forall_mem_cons.2 ⟨hhashed, hnames⟩) hd hd' heq]
      | false =>
        exact absurd heq (variantFrom_ne_of_joined hjoin hnames hhashed hsuffix hclean _)
    | false =>
      cases b' with
      | true =>
        exact absurd heq.symm (variantFrom_ne_of_joined hjoin hnames hhashed hsuffix hclean _)
      | false =>
        rw [runsFrom, runsFrom, variantFrom_close_cons, variantFrom_close_cons] at heq
        rw [h.apart hpos (hrest.mono (by omega) (Nat.le_refl _)) hd hd'
          (List.append_cancel_left heq)]
  · -- the run ends before the target, whatever the choice
    have hclosed : ∀ c : List Bool, runsFrom suffix (some r) ((t :: targets).zip c) =
        r.close suffix :: runsFrom suffix none ((t :: targets).zip c) := by
      intro c
      refine runsFrom_some_of_lt fun m hm => ?_
      rcases List.mem_cons.1 (List.of_mem_zip hm).1 with heq | hmem
      · rw [heq]
        omega
      · have := (hrest.inside _ (List.mem_map_of_mem hmem)).1
        omega
    rw [hclosed, hclosed, variantFrom_close_cons, variantFrom_close_cons] at heq
    exact happart hpos hrow hc hc' (List.append_cancel_left heq)

theorem distinguishes_of_dots (hcuts : ∀ t ∈ targets, t.span.Cuts source)
    (hdots : ∀ t ∈ targets, (slice source t.span).head? = some '.')
    (hhashed : ∀ t ∈ targets, ')' ∉ t.hashed.toList) (hsuffix : ')' ∉ suffix.toList) :
    Distinguishes source stop suffix targets := by
  induction targets with
  | nil =>
    have hnil : ∀ {c c' : List Bool}, c.length = 0 → c'.length = 0 → c = c' := fun hc hc' =>
      (List.length_eq_zero_iff.1 hc).trans (List.length_eq_zero_iff.1 hc').symm
    exact ⟨fun _ _ hc hc' _ => hnil hc hc', fun _ _ _ hc hc' _ => hnil hc hc'⟩
  | cons t targets ih =>
    obtain ⟨ht, hcuts⟩ := List.forall_mem_cons.1 hcuts
    obtain ⟨hdot, hdots⟩ := List.forall_mem_cons.1 hdots
    obtain ⟨hclean, hhashed⟩ := List.forall_mem_cons.1 hhashed
    exact (ih hcuts hdots hhashed).cons ht hdot hclean hhashed hsuffix

end Distinct

/-- **Variants for different choices are different** if every target starts with a dot and no name
and no suffix holds the bracket that ends a wrapper. -/
theorem nodup_variants (hspan : span.Cuts source) (hcuts : ∀ t ∈ targets, t.span.Cuts source)
    (hrow : Span.Row 0 span.start span.stop (targets.map Target.span))
    (hdots : ∀ t ∈ targets, (slice source t.span).head? = some '.')
    (hhashed : ∀ t ∈ targets, ')' ∉ t.hashed.toList) (hsuffix : ')' ∉ suffix.toList) :
    ((choices targets).map fun c => variant source span targets c suffix).Nodup := by
  refine (nodup_choices targets).map_on fun c hc c' hc' heq => ?_
  exact (distinguishes_of_dots hcuts hdots hhashed hsuffix).apart hspan.isAt_start hrow
    (mem_choices_iff.1 hc).length_eq.symm (mem_choices_iff.1 hc').length_eq.symm
    (String.ofList_injective heq)

/-! ### All variants -/

/-- Where all digits are one, all targets are chosen. -/
theorem digitChoice_two_pow_sub_one (hk : mixedCount targets ≤ k) :
    digitChoice targets (2 ^ k - 1) = targets.map fun _ => true := by
  induction targets with
  | nil => rfl
  | cons t targets ih =>
    rw [digitChoice_cons, List.map_cons, Nat.testBit_two_pow_sub_one]
    cases hmixed : t.mixed with
    | true =>
      rw [mixedCount_cons_of_mixed hmixed] at hk
      rw [ih (by omega), decide_eq_true (by omega)]
      rfl
    | false =>
      rw [mixedCount_cons_of_not_mixed hmixed] at hk
      rw [ih hk]
      rfl

theorem digitChoice_zero (targets : List Target) :
    digitChoice targets 0 = targets.map fun t => !t.mixed := by
  induction targets with
  | nil => rfl
  | cons t targets ih =>
    rw [digitChoice_cons, ih, Nat.zero_testBit, Bool.or_false]
    rfl

/-- **The variants are those of all choices, each once.**  A complex selector with more than twelve
mixed targets is refused.  Otherwise the variant of each number escapes the targets that are not
mixed and those whose digits are one, counted down from the last number, and keeps all else; every
choice of mixed targets has one number; the first variant escapes all targets and the last one those
that are not mixed.  If every target starts with a dot and no bracket ends a wrapper early, no
variant comes twice. -/
theorem variants_enumerate (source : List Char) (span : Span) (targets : List Target)
    (suffix : String) (hspan : span.Cuts source) (hcuts : ∀ t ∈ targets, t.span.Cuts source)
    (hrow : Span.Row 0 span.start span.stop (targets.map Target.span)) :
    let k := mixedCount targets
    (12 < k → ∃ e, variants source span targets suffix = .error e ∧
      e.kind = .invalidPlacement ∧ e.span = span) ∧
    (k ≤ 12 → ∃ vs, variants source span targets suffix = .ok vs ∧ vs.length = 2 ^ k ∧
      (∀ j v, vs[j]? = some v → EscapesIn source span targets
        ((List.range targets.length).map (isEscaped targets (2 ^ k - 1 - j))) suffix v) ∧
      (Function.Bijective fun (j : Fin (2 ^ k))
        (i : { i : Fin targets.length // targets[i].mixed = true }) =>
          isEscaped targets (2 ^ k - 1 - j) i.1) ∧
      (∃ v, vs.head? = some v ∧
        EscapesIn source span targets (targets.map fun _ => true) suffix v) ∧
      (∃ v, vs.getLast? = some v ∧
        EscapesIn source span targets (targets.map fun t => !t.mixed) suffix v) ∧
      ((∀ t ∈ targets, (Text.slice source t.span).head? = some '.') →
        (∀ t ∈ targets, ')' ∉ t.hashed.toList) → ')' ∉ suffix.toList → vs.Nodup)) := by
  intro k
  refine ⟨fun hmany => ⟨⟨.tooManyMixed k, span⟩, if_pos hmany, rfl, rfl⟩, fun hfew => ?_⟩
  have hok : variants source span targets suffix =
      .ok ((choices targets).map fun c => variant source span targets c suffix) :=
    if_neg (Nat.not_lt.2 hfew)
  have hlength := length_choices targets
  have hpos : 0 < 2 ^ k := Nat.two_pow_pos k
  have hescapes := escapesIn_variant hspan hcuts hrow
  have hget : ∀ j, j < 2 ^ k →
      ((choices targets).map fun c => variant source span targets c suffix)[j]? =
        some (variant source span targets (digitChoice targets (2 ^ k - 1 - j)) suffix) := by
    intro j hj
    rw [List.getElem?_map, getElem?_choices targets hj]
    rfl
  refine ⟨_, hok, by rw [List.length_map, hlength], fun j v hv => ?_, bijective_digits targets,
    ⟨_, ?_, hescapes (targets.map fun _ => true) suffix⟩,
    ⟨_, ?_, hescapes (targets.map fun t => !t.mixed) suffix⟩,
    fun hdots hhashed hsuffix => nodup_variants hspan hcuts hrow hdots hhashed hsuffix⟩
  · have hj : j < 2 ^ k := by
      have := (List.getElem?_eq_some_iff.1 hv).1
      rwa [List.length_map, hlength] at this
    obtain rfl := Option.some.inj ((hget j hj).symm.trans hv)
    exact hescapes _ suffix
  · rw [List.head?_eq_getElem?, hget 0 hpos, Nat.sub_zero,
      digitChoice_two_pow_sub_one (Nat.le_refl _)]
  · rw [List.getLast?_eq_getElem?, List.length_map, hlength, hget _ (Nat.sub_lt hpos Nat.one_pos),
      Nat.sub_self, digitChoice_zero]

/-- The two mixed classes of `.m.n a`, which stand side by side. -/
def chainedTargets : List Target := [⟨⟨0, 2⟩, "m-h", true⟩, ⟨⟨2, 4⟩, "n-h", true⟩]

/-- Two mixed classes side by side have four variants, in which they share a wrapper, have one or
none. -/
theorem variants_enumerate_chained :
    variants ".m.n a".toList ⟨0, 6⟩ chainedTargets "" = .ok
        [":global(.m-h.n-h) a", ":global(.m-h).n a", ".m:global(.n-h) a", ".m.n a"] ∧
      [":global(.m-h.n-h) a", ":global(.m-h).n a", ".m:global(.n-h) a", ".m.n a"].Nodup := by
  have hcuts : ∀ s : Span, s = ⟨0, 6⟩ ∨ s = ⟨0, 2⟩ ∨ s = ⟨2, 4⟩ → s.Cuts ".m.n a".toList := by
    rintro s (rfl | rfl | rfl)
    · exact ⟨".m.n a".toList, ⟨[], [], rfl, rfl⟩, rfl⟩
    · exact ⟨".m".toList, ⟨[], ".n a".toList, rfl, rfl⟩, rfl⟩
    · exact ⟨".n".toList, ⟨".m".toList, " a".toList, rfl, rfl⟩, rfl⟩
  obtain ⟨vs, hvs, _, _, _, _, _, hnodup⟩ :=
    (variants_enumerate ".m.n a".toList ⟨0, 6⟩ chainedTargets "" (hcuts _ (Or.inl rfl))
      (by simpa [chainedTargets] using ⟨hcuts _ (by simp), hcuts _ (by simp)⟩)
      ⟨by decide, by decide⟩).2 (by decide)
  have heval : variants ".m.n a".toList ⟨0, 6⟩ chainedTargets "" = .ok
      [":global(.m-h.n-h) a", ":global(.m-h).n a", ".m:global(.n-h) a", ".m.n a"] := by decide
  obtain rfl := Except.ok.inj (hvs.symm.trans heval)
  exact ⟨heval, hnodup (by decide) (by decide) (by decide)⟩

end CssRune
