/-
**The edits that apply the runes of a component.**

Applying runes edits a buffer step by step, and any step may find a rune that is used wrongly.  What
is edited does not depend on the steps before, so it can be listed in advance: the edits of a
complex selector, those of a rune call, and the names that go with them.

* `runesIn` — the occurrences in a complex selector that runes name;
* `selectorEdits`, `callEdit` — the edits of a complex selector and of a rune call;
* `addNames` — the names that complex selectors give to the classes in them;
* `applyToSelector_cases`, `applyToCall_cases` — **one step finds a rune that is used wrongly, or
  makes these edits**;
* `applyToSelectors_eq_ok`, `applyToAll_eq_ok` — what a whole pass has done when it succeeds;
* `applyToSelectors_of_ready`, `applyToAll_of_ready` — no pass is stopped by an edit if the ranges
  share no byte.
-/

import CssRune.Proofs.Edit.Buffers
import CssRune.Proofs.Lists
import CssRune.Proofs.Rune.Runs
import CssRune.Proofs.Style.Parts
import CssRune.Rune.Literals

set_option autoImplicit false

namespace CssRune

/-! ### Complex selectors -/

/-- The occurrences in a complex selector that runes name. -/
def runesIn (usage : Usage) (c : ComplexSelector) : List Occurrence :=
  runeOccurrences (occurrences usage c)

/-- Whether a class in a complex selector is named by a rune and used natively. -/
def hasMixed (usage : Usage) (c : ComplexSelector) : Bool :=
  (runesIn usage c).any (·.placement == .mixed)

/-- The rune selectors of a complex selector. -/
def targetsIn (usage : Usage) (hash : String) (c : ComplexSelector) : List Target :=
  (runesIn usage c).map (targetOf hash)

/-- The edits of a complex selector: all variants in its place, or wrappers in the place of its runs
of rune classes. -/
def selectorEdits (usage : Usage) (setting : StyleSetting) (source : List Char)
    (c : ComplexSelector) : List Run :=
  if hasMixed usage c then
    [⟨c.span, ", ".intercalate ((choices (targetsIn usage setting.hash c)).map fun escaped =>
      variant source c.span (targetsIn usage setting.hash c) escaped setting.suffix)⟩]
  else
    wrappedRuns (targetsIn usage setting.hash c)
      ((targetsIn usage setting.hash c).map fun _ => true) setting.suffix

/-- The names of occurrences added to names given before. -/
def addNames (hash : String) (names : ClassNames) (os : List Occurrence) : ClassNames :=
  os.foldl (fun names o => names.add o.name (hashedName hash o.name)) names

section Selectors

variable {usage : Usage} {setting : StyleSetting} {source : String} {s : StyleState}
  {c : ComplexSelector}

theorem any_mixed_targetsIn :
    (targetsIn usage setting.hash c).any (·.mixed) = hasMixed usage c := by
  rw [targetsIn, List.any_map]
  rfl

/-- What replaces a complex selector is the list of its edits. -/
theorem fst_replacements {r : List Run × Option Nat}
    (h : replacements source.toList c (targetsIn usage setting.hash c) setting.suffix = .ok r) :
    r.1 = selectorEdits usage setting source.toList c := by
  unfold replacements at h
  rw [any_mixed_targetsIn] at h
  unfold selectorEdits
  split at h
  · rename_i hmixed
    obtain ⟨vs, hvs, h⟩ := bind_eq_ok_iff.1 h
    rw [if_pos hmixed, ← pure_eq_ok_iff.1 h]
    simp only [variants] at hvs
    split at hvs
    · cases hvs
    · cases hvs
      rfl
  · rename_i hmixed
    cases h
    rw [if_neg hmixed]

/-- What is wrong with the runes of a complex selector: one of them stands where it may not, or the
selector has too many variants. -/
def Misused (usage : Usage) (setting : StyleSetting) (source : String) (list : Span)
    (c : ComplexSelector) (e : RuneError) : Prop :=
  checkPlacement (occurrences usage c) list = .error e ∨
    replacements source.toList c (targetsIn usage setting.hash c) setting.suffix = .error e

/-- **A complex selector holds a rune that is used wrongly, or its edits are made.** -/
theorem applyToSelector_cases (usage : Usage) (setting : StyleSetting) (source : String)
    (s : StyleState) (list : Span) (c : ComplexSelector) :
    (∃ e, Misused usage setting source list c e ∧
        applyToSelector usage setting source s list c = .error (.rune e)) ∨
      ∃ warnings, applyToSelector usage setting source s list c =
        (ofEdit (overwriteAll s.buffer (selectorEdits usage setting source.toList c))).map fun b =>
          ⟨b, addNames setting.hash s.names (runesIn usage c), s.warnings ++ warnings⟩ := by
  unfold applyToSelector
  simp only []
  split
  · rename_i hnone
    have hempty : runesIn usage c = [] := List.isEmpty_iff.1 hnone
    refine .inr ⟨[], ?_⟩
    rw [selectorEdits, hasMixed, targetsIn, hempty, List.append_nil]
    rfl
  · cases hcheck : checkPlacement (occurrences usage c) list with
    | error e => exact .inl ⟨e, .inl hcheck, rfl⟩
    | ok u =>
      cases hreplace : replacements source.toList c (targetsIn usage setting.hash c)
          setting.suffix with
      | error e =>
        refine .inl ⟨e, .inr hreplace, ?_⟩
        show (ofRuneCheck (replacements source.toList c (targetsIn usage setting.hash c)
          setting.suffix) >>= _) = _
        rw [hreplace]
        rfl
      | ok r =>
        obtain ⟨runs, count⟩ := r
        have hruns : runs = selectorEdits usage setting source.toList c :=
          fst_replacements hreplace
        refine .inr ⟨if setting.warnsSelectors && combines (occurrences usage c) then
          [Report.expandedSelector setting.filename source c.span count] else [], ?_⟩
        show (ofRuneCheck (replacements source.toList c (targetsIn usage setting.hash c)
          setting.suffix) >>= _) = _
        rw [hreplace, ← hruns]
        show (ofEdit (overwriteAll s.buffer runs) >>= _) = _
        cases overwriteAll s.buffer runs with
        | error e => rfl
        | ok b => rfl

variable {sels : List (Span × ComplexSelector)}

/-- What a pass over complex selectors has done when it succeeds. -/
theorem applyToSelectors_eq_ok {s' : StyleState}
    (h : applyToSelectors usage setting source s sels = .ok s') :
    s.buffer.Extends s'.buffer (sels.flatMap fun p =>
        (selectorEdits usage setting source.toList p.2).map Run.toOverwrite) ∧
      s'.names = addNames setting.hash s.names (sels.flatMap fun p => runesIn usage p.2) := by
  induction sels generalizing s with
  | nil =>
    cases h
    exact ⟨EditBuffer.Extends.refl _, rfl⟩
  | cons p sels ih =>
    obtain ⟨list, c⟩ := p
    obtain ⟨s₁, h₁, h⟩ := bind_eq_ok_iff.1 h
    obtain ⟨hextends, hnames⟩ := ih h
    rcases applyToSelector_cases usage setting source s list c with
      ⟨e, _, he⟩ | ⟨warnings, heq⟩
    · rw [he] at h₁
      cases h₁
    · rw [heq] at h₁
      obtain ⟨b, hb, rfl⟩ := map_eq_ok_iff.1 h₁
      have hbuffer := EditBuffer.extends_overwriteAll (mapError_eq_ok_iff.1 hb)
      refine ⟨hbuffer.trans hextends, ?_⟩
      rw [hnames, List.flatMap_cons, addNames, addNames, addNames, List.foldl_append]

/-- The ranges that the edits of a complex selector take. -/
def selectorRanges (usage : Usage) (c : ComplexSelector) : List Span :=
  if hasMixed usage c then [c.span]
  else (groups Occurrence.span (runesIn usage c) ((runesIn usage c).map fun _ => true)).map
    (hull Occurrence.span)

theorem map_span_selectorEdits (usage : Usage) (setting : StyleSetting) (source : List Char)
    (c : ComplexSelector) :
    (selectorEdits usage setting source c).map Run.span = selectorRanges usage c := by
  unfold selectorEdits selectorRanges
  split
  · rfl
  · rw [targetsIn, List.map_map, wrappedRuns_eq (fun _ => rfl), List.map_map]
    rfl

/-- A pass over complex selectors whose edits share no byte is stopped by none of them. -/
theorem applyToSelectors_of_ready {pending : List Span}
    (hready : s.buffer.Ready ((sels.flatMap fun p => selectorRanges usage p.2) ++ pending))
    (setting : StyleSetting) (source : String) :
    (∃ e, (∃ p ∈ sels, Misused usage setting source p.1 p.2 e) ∧
        applyToSelectors usage setting source s sels = .error (.rune e)) ∨
      ∃ s', applyToSelectors usage setting source s sels = .ok s' ∧ s'.buffer.Ready pending := by
  induction sels generalizing s with
  | nil => exact .inr ⟨s, rfl, hready⟩
  | cons p sels ih =>
    obtain ⟨list, c⟩ := p
    rw [List.flatMap_cons, List.append_assoc] at hready
    rw [← map_span_selectorEdits usage setting source.toList c] at hready
    obtain ⟨b, hb, hready'⟩ := hready.overwriteAll
    rw [applyToSelectors]
    rcases applyToSelector_cases usage setting source s list c with
      ⟨e, hmisused, he⟩ | ⟨warnings, heq⟩
    · rw [he]
      exact .inl ⟨e, ⟨_, List.mem_cons_self, hmisused⟩, rfl⟩
    · rw [heq, hb]
      refine (ih hready').imp ?_ id
      rintro ⟨e, ⟨p, hp, hmisused⟩, he⟩
      exact ⟨e, ⟨p, List.mem_cons_of_mem _ hp, hmisused⟩, he⟩

end Selectors

/-! ### Where the edits of a complex selector lie -/

theorem Usage.isRune_placement (usage : Usage) (name : String) :
    (usage.placement name).isRune = usage.runes.contains name := by
  unfold Usage.placement
  split
  · rename_i hrune
    rw [hrune]
    split <;> rfl
  · rename_i hrune
    rw [Bool.eq_false_iff.2 hrune]
    rfl

section Layouts

variable {usage : Usage} {source : List Char} {c : ComplexSelector}

variable {o : Occurrence} {chosen : List Bool} {g : List Occurrence}

/-- **What runes name in a complex selector are its class selectors with such names.** -/
theorem mem_runesIn_iff :
    o ∈ runesIn usage c ↔ .named .class_ o.name o.span ∈ c.parts (· != globalPseudoClass) ∧
      usage.runes.contains o.name = true ∧ o.placement = usage.placement o.name ∧
      o.isClass = true := by
  constructor
  · intro h
    obtain ⟨ho, hrune⟩ := List.mem_filter.1 h
    obtain ⟨s, hs, hso⟩ := List.mem_filterMap.1 ho
    unfold occurrence? at hso
    split at hso
    · cases hso
      exact ⟨hs, (usage.isRune_placement _).symm.trans hrune, rfl, rfl⟩
    · cases hso
    · -- what is no class is native, so no rune names it
      cases hso
      cases hrune
    · cases hso
  · rintro ⟨hs, hrune, hplacement, hclass⟩
    refine List.mem_filter.2 ⟨List.mem_filterMap.2 ⟨_, hs, ?_⟩, ?_⟩
    · rw [occurrence?, ← hplacement, ← hclass]
    · rw [hplacement, usage.isRune_placement, hrune]

/-- What occurs among selectors that are met are atoms of them. -/
theorem sublist_atoms (usage : Usage) (enters : String → Bool) (ss : List SimpleSelector) :
    ((ss.filterMap (occurrence? usage)).map Occurrence.span).Sublist
      ((atoms enters ss).map SimpleSelector.span) := by
  induction ss with
  | nil => exact List.Sublist.refl []
  | cons s ss ih =>
    cases ho : occurrence? usage s with
    | none =>
      rw [List.filterMap_cons_none ho]
      exact ih.trans (((List.sublist_cons_self s ss).filter _).map _)
    | some o =>
      -- an occurrence is named, so it has no argument to enter
      have hs : s.isEntered enters = false ∧ o.span = s.span := by
        unfold occurrence? at ho
        split at ho
        · cases ho; exact ⟨rfl, rfl⟩
        · cases ho
        · cases ho; exact ⟨rfl, rfl⟩
        · cases ho
      rw [List.filterMap_cons_some ho, List.map_cons, hs.2, atoms,
        List.filter_cons_of_pos (by simp [hs.1])]
      exact ih.cons_cons s.span

theorem ComplexOf.Laid.row_runesIn (h : c.Laid source) (usage : Usage) :
    Span.Row 0 c.span.start c.span.stop ((runesIn usage c).map Occurrence.span) :=
  (h.row_atoms _).sublist
    ((List.filter_sublist.map Occurrence.span).trans (sublist_atoms usage _ _))

theorem ComplexOf.Laid.cuts_runesIn (h : c.Laid source) (ho : o ∈ runesIn usage c) :
    o.span.Cuts source := by
  exact (h.laidHere_of_mem_parts _ (mem_runesIn_iff.1 ho).1).cuts

/-- The range of elements that are pieces of a source is one as well. -/
theorem cuts_hull {α : Type} {span : α → Span} {xs : List α} (hne : xs ≠ [])
    (hfilled : Filled span xs) (hcuts : ∀ x ∈ xs, (span x).Cuts source) :
    (hull span xs).Cuts source := by
  have hle := Span.Chain.le hfilled
  obtain ⟨a, as, rfl⟩ := List.exists_cons_of_ne_nil hne
  have hlast : (a :: as).getLast? = some ((a :: as).getLast hne) :=
    List.getLast?_eq_some_getLast hne
  have hhull : hull span (a :: as) = ⟨(span a).start, (span ((a :: as).getLast hne)).stop⟩ := by
    rw [hull, hlast]
    rfl
  rw [hhull] at hle ⊢
  exact Span.cuts_of_isAt (hcuts a List.mem_cons_self).isAt_start
    (hcuts _ (List.getLast_mem hne)).isAt_stop hle

/-- A run of rune classes of a complex selector fills its range. -/
theorem ComplexOf.Laid.filled_of_mem_groups (h : c.Laid source)
    (hg : g ∈ groups Occurrence.span (runesIn usage c) chosen) :
    g ≠ [] ∧ g.Sublist (runesIn usage c) ∧ Filled Occurrence.span g := by
  have hrow := h.row_runesIn usage
  obtain ⟨hne, hfilled⟩ := CssRune.filled_of_mem_groups
    (fun o ho => (hrow.inside _ (List.mem_map_of_mem ho)).2.1) g hg
  exact ⟨hne, sublist_of_mem_groups hg, hfilled⟩

theorem ComplexOf.Laid.cuts_hull (h : c.Laid source)
    (hg : g ∈ groups Occurrence.span (runesIn usage c) chosen) :
    (hull Occurrence.span g).Cuts source := by
  obtain ⟨hne, hsub, hfilled⟩ := h.filled_of_mem_groups hg
  exact CssRune.cuts_hull hne hfilled fun o ho => h.cuts_runesIn (hsub.subset ho)

theorem ComplexOf.Laid.row_selectorRanges (h : c.Laid source) (usage : Usage) :
    Span.Row 0 c.span.start c.span.stop (selectorRanges usage c) := by
  unfold selectorRanges
  split
  · exact Span.Row.cons (Nat.le_refl _) h.nonempty (Nat.le_refl _) (Span.Row.nil 0 _ _)
  · exact row_hull_groups (h.row_runesIn usage)

theorem ComplexOf.Laid.sited_selectorRanges (h : c.Laid source) (usage : Usage) :
    Span.Sited source c.span.start c.span.stop (selectorRanges usage c) := by
  refine ⟨(h.row_selectorRanges usage).clear, ?_⟩
  unfold selectorRanges
  split
  · exact List.forall_mem_singleton.2 h.here.cuts
  · exact List.forall_mem_map.2 fun g hg => h.cuts_hull hg

end Layouts

/-! ### Names -/

/-- The classes that have hashed names. -/
def ClassNames.keys (names : ClassNames) : List String := names.entries.map Prod.fst

/-- Every hashed name is made from its class and the hash. -/
def ClassNames.Hashes (hash : String) (names : ClassNames) : Prop :=
  ∀ e ∈ names.entries, e.2 = hashedName hash e.1

variable {names : ClassNames} {name hash hashed : String}

theorem ClassNames.mem_keys_iff : name ∈ names.keys ↔ ∃ hashed, names.get? name = some hashed := by
  rw [keys, get?]
  induction names.entries with
  | nil => simp
  | cons e es ih =>
    rw [List.map_cons, List.mem_cons, List.lookup_cons, ih]
    by_cases h : name = e.1
    · simp [h]
    · have hne : (name == e.1) = false := beq_eq_false_iff_ne.2 h
      simp [h, hne]

/-- The hashed name that is found for a class is made from it. -/
theorem ClassNames.Hashes.eq_of_get? (h : names.Hashes hash)
    (hget : names.get? name = some hashed) :
    hashed = hashedName hash name := by
  refine h (name, hashed) ?_
  rw [get?] at hget
  generalize names.entries = entries at hget
  induction entries with
  | nil => cases hget
  | cons e es ih =>
    rw [List.lookup_cons] at hget
    split at hget
    · rename_i heq
      cases hget
      rw [beq_iff_eq.1 heq]
      exact List.mem_cons_self
    · exact List.mem_cons_of_mem e (ih hget)

theorem ClassNames.Hashes.add (h : names.Hashes hash) (name : String) :
    (names.add name (hashedName hash name)).Hashes hash := by
  unfold ClassNames.add
  split
  · exact h
  · intro e he
    rw [insertBy_eq_orderedInsert, List.mem_orderedInsert] at he
    rcases he with rfl | he
    · rfl
    · exact h e he

theorem ClassNames.mem_keys_add {other : String} :
    other ∈ (names.add name hashed).keys ↔ other = name ∨ other ∈ names.keys := by
  rw [mem_keys_iff, mem_keys_iff, get?_add]
  by_cases h : other = name
  · simp [h]
  · simp [h]

theorem hashes_addNames (h : names.Hashes hash) (os : List Occurrence) :
    (addNames hash names os).Hashes hash := by
  induction os generalizing names with
  | nil => exact h
  | cons o os ih => exact ih (h.add o.name)

theorem mem_keys_addNames {os : List Occurrence} :
    name ∈ (addNames hash names os).keys ↔ name ∈ os.map Occurrence.name ∨ name ∈ names.keys := by
  induction os generalizing names with
  | nil => simp [addNames]
  | cons o os ih =>
    show name ∈ (addNames hash (names.add o.name (hashedName hash o.name)) os).keys ↔ _
    rw [ih, ClassNames.mem_keys_add, List.map_cons, List.mem_cons]
    constructor
    · rintro (h | h | h)
      · exact .inl (.inr h)
      · exact .inl (.inl h)
      · exact .inr h
    · rintro ((h | h) | h)
      · exact .inr (.inl h)
      · exact .inl h
      · exact .inr (.inr h)

/-! ### Rune calls -/

/-- The classes that a rune call lists. -/
def RuneCall.listed (call : RuneCall) : List String :=
  match call.classes with
  | .ok classes => Text.words classes.toList
  | .error _ => []

/-- A literal that lists classes, with the sentinel class if they are to be more specific. -/
def quoted (specific : Bool) (classes : List String) : String :=
  "\"" ++ " ".intercalate (classes ++ if specific then [sentinelClass] else []) ++ "\""

/-- The edit of a rune call: the hashed names of the classes it lists. -/
def callEdit (hash : String) (specific : Bool) (call : RuneCall) : Overwrite :=
  ⟨call.span, quoted specific (call.listed.map (hashedName hash))⟩

/-- A call is well used: it lists classes, and all of them have hashed names. -/
def RuneCall.Known (names : ClassNames) (call : RuneCall) : Prop :=
  (∃ classes, call.classes = .ok classes) ∧ ∀ name ∈ call.listed, name ∈ names.keys

section Calls

variable {runes : ClassSet} {names : ClassNames} {hash : String} {specific : Bool} {b : EditBuffer}
  {call : RuneCall}

theorem hashedNames_eq_ok {classes hashed : List String} (hn : names.Hashes hash)
    (h : hashedNames runes names classes = .ok hashed) :
    hashed = classes.map (hashedName hash) ∧ ∀ name ∈ classes, name ∈ names.keys := by
  induction classes generalizing hashed with
  | nil =>
    cases h
    exact ⟨rfl, by simp⟩
  | cons name rest ih =>
    rw [hashedNames] at h
    split at h
    · cases h
    · rename_i value hvalue
      obtain ⟨more, hmore, h⟩ := bind_eq_ok_iff.1 h
      obtain ⟨hrest, hknown⟩ := ih hmore
      rw [← pure_eq_ok_iff.1 h, hn.eq_of_get? hvalue, hrest]
      exact ⟨rfl, List.forall_mem_cons.2
        ⟨ClassNames.mem_keys_iff.2 ⟨value, hvalue⟩, hknown⟩⟩

/-- **A rune call is used wrongly, or its edit is made.** -/
theorem applyToCall_cases (hn : names.Hashes hash) (runes : ClassSet) (specific : Bool)
    (b : EditBuffer) (call : RuneCall) :
    (∃ e, applyToCall runes names specific b call = .error (.rune e)) ∨
      call.Known names ∧ applyToCall runes names specific b call =
        ofEdit (b.overwrite call.span (callEdit hash specific call).text) := by
  unfold applyToCall
  cases hclasses : call.classes with
  | error fault => exact .inl ⟨_, rfl⟩
  | ok classes =>
    have hlisted : call.listed = Text.words classes.toList := by
      rw [RuneCall.listed, hclasses]
    cases hhashed : hashedNames runes names (Text.words classes.toList) with
    | error e =>
      refine .inl ⟨e, ?_⟩
      simp only [literal, hhashed]
      rfl
    | ok hashed =>
      obtain ⟨heq, hknown⟩ := hashedNames_eq_ok hn hhashed
      refine .inr ⟨⟨⟨classes, hclasses⟩, hlisted ▸ hknown⟩, ?_⟩
      simp only [literal, hhashed, callEdit, quoted, hlisted, heq]
      rfl

variable {calls : List RuneCall}

/-- What a pass over rune calls has done when it succeeds. -/
theorem applyToAll_eq_ok {b' : EditBuffer} (hn : names.Hashes hash)
    (h : applyToAll runes names specific b calls = .ok b') :
    b.Extends b' (calls.map (callEdit hash specific)) ∧ ∀ call ∈ calls, call.Known names := by
  induction calls generalizing b with
  | nil =>
    cases h
    exact ⟨EditBuffer.Extends.refl _, by simp⟩
  | cons call calls ih =>
    obtain ⟨b₁, h₁, h⟩ := bind_eq_ok_iff.1 h
    obtain ⟨hextends, hknown⟩ := ih h
    rcases applyToCall_cases hn runes specific b call with ⟨e, he⟩ | ⟨hcall, heq⟩
    · rw [he] at h₁
      cases h₁
    · rw [heq] at h₁
      have hedit := EditBuffer.extends_overwrite (mapError_eq_ok_iff.1 h₁)
      exact ⟨hedit.trans hextends, List.forall_mem_cons.2 ⟨hcall, hknown⟩⟩

/-- A pass over rune calls whose ranges share no byte is stopped by none of the edits. -/
theorem applyToAll_of_ready (hn : names.Hashes hash) (hready : b.Ready (calls.map RuneCall.span))
    (runes : ClassSet) (specific : Bool) :
    (∃ e, applyToAll runes names specific b calls = .error (.rune e)) ∨
      ∃ b', applyToAll runes names specific b calls = .ok b' := by
  induction calls generalizing b with
  | nil => exact .inr ⟨b, rfl⟩
  | cons call calls ih =>
    obtain ⟨b₁, hb₁, hready'⟩ :=
      EditBuffer.Ready.overwrite (callEdit hash specific call).text hready
    rw [applyToAll]
    rcases applyToCall_cases hn runes specific b call with ⟨e, he⟩ | ⟨_, heq⟩
    · rw [he]
      exact .inl ⟨e, rfl⟩
    · rw [heq, hb₁]
      exact ih hready'

end Calls

end CssRune
