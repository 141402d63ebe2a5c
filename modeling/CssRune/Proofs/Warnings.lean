/-
**Warnings do not change the result.**

The level of warnings is an option of preprocessing.  It decides which warnings are given, and
nothing else: the outcome is the same on all levels.  The lowest level gives none, and the highest
adds to the middle one a warning for each complex selector that combines classes used with and
without the rune.  Which selectors these are is said here by their class selectors alone.

Main results:

* `combinesUses_eq` — the selectors that are warned about combine uses;
* `applyRunes_corresponds_level`, `warnings_of_applyRunes` — two levels compared, and the warnings
  of one;
* `preprocess_level` — **the level only decides about warnings**.
-/

import CssRune.Proofs.Preprocessing
import CssRune.Proofs.Rune.Passes
import CssRune.Proofs.Style.Nesting

set_option autoImplicit false

namespace CssRune

/-! ### Selectors that combine uses -/

/-- The name of a class selector. -/
def SimpleSelector.className? : SimpleSelector → Option String
  | .named .class_ name _ => some name
  | _ => none

/-- Whether a simple selector counts: types, ids, classes and attributes do. -/
def SimpleSelector.isCollected : SimpleSelector → Bool
  | .named kind _ _ => kind != .pseudoElement
  | _ => false

/-- The names of the class selectors of a complex selector, except those that are global already. -/
def ComplexOf.classNames (c : ComplexSelector) : List String :=
  (c.parts (· != globalPseudoClass)).filterMap SimpleSelector.className?

/-- The simple selectors of a complex selector that count, except those that are global already. -/
def ComplexOf.collected (c : ComplexSelector) : List SimpleSelector :=
  (c.parts (· != globalPseudoClass)).filter SimpleSelector.isCollected

/-- Whether a complex selector with a rune class has a class that no rune names as well, or a class
that is used both ways beside another selector. -/
def combinesUses (usage : Usage) (c : ComplexSelector) : Bool :=
  c.classNames.any usage.runes.contains &&
    (c.classNames.any (fun name => !usage.runes.contains name) ||
      (c.classNames.any (fun name => usage.runes.contains name && usage.natives.contains name) &&
        1 < c.collected.length))

section Selectors

variable {usage : Usage}

/-- A test of occurrences that only classes pass is a test of class names. -/
theorem any_occurrences {p : Occurrence → Bool} {q : String → Bool}
    (hclass : ∀ name span, p ⟨name, span, usage.placement name, true⟩ = q name)
    (hother : ∀ name span, p ⟨name, span, .native, false⟩ = false) (ss : List SimpleSelector) :
    (ss.filterMap (occurrence? usage)).any p = (ss.filterMap SimpleSelector.className?).any q := by
  induction ss with
  | nil => rfl
  | cons s ss ih =>
    cases s with
    | pseudoClass name args span => exact ih
    | nesting span => exact ih
    | named kind name span =>
      cases kind with
      | class_ =>
        show (p _ || _) = (q name || _)
        rw [hclass, ih]
      | pseudoElement => exact ih
      | _ =>
        show (p _ || _) = _
        rw [hother, Bool.false_or, ih]
        rfl

/-- What counts are the occurrences. -/
theorem length_occurrences (ss : List SimpleSelector) :
    (ss.filterMap (occurrence? usage)).length = (ss.filter SimpleSelector.isCollected).length := by
  induction ss with
  | nil => rfl
  | cons s ss ih =>
    cases s with
    | pseudoClass name args span => exact ih
    | nesting span => exact ih
    | named kind name span =>
      cases kind with
      | pseudoElement => exact ih
      | _ => exact congrArg (· + 1) ih

theorem Usage.placement_beq_native (usage : Usage) (name : String) :
    (usage.placement name == .native) = !usage.runes.contains name := by
  have h := usage.isRune_placement name
  rw [Placement.isRune, bne] at h
  rw [← h, Bool.not_not]

theorem Usage.placement_beq_mixed (usage : Usage) (name : String) :
    (usage.placement name == .mixed) =
      (usage.runes.contains name && usage.natives.contains name) := by
  unfold Usage.placement
  cases usage.runes.contains name with
  | false => rfl
  | true =>
    cases usage.natives.contains name with
    | false => rfl
    | true => rfl

/-- **The selectors that are warned about combine uses.** -/
theorem combinesUses_eq (usage : Usage) (c : ComplexSelector) :
    combinesUses usage c =
      (!(runesIn usage c).isEmpty && combines (occurrences usage c)) := by
  have hrunes : (!(runesIn usage c).isEmpty) = c.classNames.any usage.runes.contains := by
    have hany : (occurrences usage c).any (·.placement.isRune) =
        c.classNames.any usage.runes.contains :=
      any_occurrences (fun name _ => usage.isRune_placement name) (fun _ _ => rfl) _
    rw [← hany, Bool.eq_iff_iff, runesIn, runeOccurrences]
    simp
  have hnative : (occurrences usage c).any (fun o => o.isClass && o.placement == .native) =
      c.classNames.any fun name => !usage.runes.contains name :=
    any_occurrences (fun name _ => usage.placement_beq_native name) (fun _ _ => rfl) _
  have hmixed : (occurrences usage c).any (·.placement == .mixed) =
      c.classNames.any fun name => usage.runes.contains name && usage.natives.contains name :=
    any_occurrences (fun name _ => usage.placement_beq_mixed name) (fun _ _ => rfl) _
  have hlength : (occurrences usage c).length = c.collected.length := length_occurrences _
  rw [combinesUses, combines, hrunes, hnative, hmixed, hlength]

end Selectors

/-! ### Applying runes -/

section Applying

variable {options : Options} {filename : String} {component : Component} {usage : Usage}
  {buffer : EditBuffer} {style : StyleState}

/-- On all levels the same edits are made and the same names are given. -/
theorem applyRunes_corresponds_level (hasher : Hasher) (level level' : WarningLevel)
    (specific : Bool) (filename : String) (component : Component) (usage : Usage) :
    Corresponds (fun done done' => done.1 = done'.1 ∧ done.2.names = done'.2.names)
      (applyRunes ⟨hasher, level, specific⟩ filename component usage)
      (applyRunes ⟨hasher, level', specific⟩ filename component usage) := by
  rw [applyRunes_eq, applyRunes_eq]
  refine (Corresponds.refl (fun _ => rfl) _).bind fun _ _ _ => ?_
  rw [applyToStyle_eq, applyToStyle_eq]
  have hstyle : Corresponds (fun t t' => t.buffer = t'.buffer ∧ t.names = t'.names)
      (applyToSelectors usage ((⟨hasher, level, specific⟩ : Options).styleSetting filename
        component.source) component.source
        ⟨EditBuffer.ofSource component.source, ClassNames.empty, []⟩ component.selectors)
      (applyToSelectors usage ((⟨hasher, level', specific⟩ : Options).styleSetting filename
        component.source) component.source
        ⟨EditBuffer.ofSource component.source, ClassNames.empty, []⟩ component.selectors) := by
    refine applyToSelectors_corresponds rfl (fun c b b' hb => ?_) rfl rfl
    subst hb
    exact Corresponds.refl (fun _ => rfl) _
  refine hstyle.bind fun t t' ht => ?_
  rw [ht.1, ht.2]
  refine (Corresponds.refl (fun _ => rfl) _).bind fun b b' hb => .ok ⟨hb, ht.2⟩

/-- The warnings about selectors, of those that combine uses, if the level asks for them. -/
theorem warnings_of_applyRunes
    (h : applyRunes options filename component usage = .ok (buffer, style)) :
    style.warnings = if options.level.warnsSelectors then
      (component.selectors.filter fun p => combinesUses usage p.2).map fun p =>
        Report.expandedSelector filename component.source p.2.span (variantCount usage p.2)
      else [] := by
  rw [applyRunes_eq] at h
  obtain ⟨_, _, h⟩ := bind_eq_ok_iff.1 h
  obtain ⟨style', hstyle, h⟩ := bind_eq_ok_iff.1 h
  obtain ⟨_, _, h⟩ := bind_eq_ok_iff.1 h
  cases h
  rw [applyToStyle_eq] at hstyle
  rw [warnings_of_applyToSelectors hstyle, List.nil_append]
  generalize component.selectors = sels
  -- the pass asks for rune classes, then for the level, then for combined uses
  induction sels with
  | nil => simp
  | cons p sels ih =>
    rw [List.flatMap_cons, ih, List.filter_cons, combinesUses_eq, selectorWarnings]
    show (if (runesIn usage p.2).isEmpty = true then []
      else if (options.level.warnsSelectors && combines (occurrences usage p.2)) = true then
        [Report.expandedSelector filename component.source p.2.span (variantCount usage p.2)]
      else []) ++ _ = _
    cases (runesIn usage p.2).isEmpty with
    | true => rfl
    | false =>
      cases combines (occurrences usage p.2) with
      | false =>
        rw [Bool.and_false]
        rfl
      | true =>
        cases options.level.warnsSelectors with
        | false => rfl
        | true => rfl

end Applying

/-! ### Preprocessing -/

/-- The output without its warnings. -/
def Preprocessed.result (out : Preprocessed) : String × Option SourceMap × ClassNames :=
  (out.code, out.map, out.names)

/-- The complex selectors of a component come in source order. -/
theorem pairwise_start_selectors {scripts : ScriptReader} {source : String} {component : Component}
    (hread : Component.read scripts source = .ok component) :
    (component.selectors.map fun p => p.2.span.start).Pairwise (· < ·) := by
  rw [Component.selectors]
  cases hstyle : component.style with
  | none => exact List.Pairwise.nil
  | some sheet =>
    have hrow := (laid_style_of_read hread hstyle).row_selectors
    rw [Option.toList_some, List.flatMap_singleton]
    refine List.pairwise_map.2 ((List.pairwise_map.1 hrow.apart).imp_of_mem ?_)
    intro p q hp _ hstop
    have := (hrow.inside _ (List.mem_map_of_mem hp)).2.1
    omega

theorem combinesUses_of_isEmpty {usage : Usage} (h : usage.runes.isEmpty = true)
    (c : ComplexSelector) : combinesUses usage c = false := by
  have hany : c.classNames.any usage.runes.contains = false :=
    List.any_eq_false.2 fun name _ => Bool.eq_false_iff.1 (ClassSet.contains_of_isEmpty h name)
  rw [combinesUses, hany, Bool.false_and]

section Preprocessing

variable {scripts : ScriptReader} {options : Options} {filename source : String}
  {component : Component} {usage : Usage} {out : Preprocessed}

/-- The warnings of a run: those about classes, then those about selectors. -/
theorem warnings_of_preprocess (hread : Component.read scripts source = .ok component)
    (husage : component.usage = .ok usage)
    (h : preprocess scripts options filename source = .ok out) :
    out.warnings =
      (if options.level.isEnabled ∧ usage.runes.isEmpty = false then
        Report.mixedUse filename source usage.runes usage.natives else []) ++
      if options.level.warnsSelectors then
        (component.selectors.filter fun p => combinesUses usage p.2).map fun p =>
          Report.expandedSelector filename source p.2.span (variantCount usage p.2)
      else [] := by
  rw [preprocess_eq hread husage] at h
  split at h
  · rename_i hempty
    have hnone : (component.selectors.filter fun p => combinesUses usage p.2) = [] :=
      List.filter_eq_nil_iff.2 fun p _ => Bool.eq_false_iff.1 (combinesUses_of_isEmpty hempty p.2)
    rw [← Except.ok.inj h, hnone, hempty]
    simp
  · rename_i hrunes
    obtain ⟨⟨buffer, style⟩, happly, rfl⟩ := map_eq_ok_iff.1 h
    have hwarnings := warnings_of_applyRunes (mapError_eq_ok_iff.1 happly)
    rw [(laid_read hread).1] at hwarnings
    rw [← hwarnings, Bool.eq_false_iff.2 hrunes]
    simp only [and_true]

/-- **The level only decides about warnings.**  On all levels preprocessing has the same outcome:
the same error, or the same code, map and names.  The lowest level gives no warning.  The highest
gives those of the middle one, and then one for each complex selector that combines uses, in the
order of the source. -/
theorem preprocess_level (scripts : ScriptReader) (hasher : Hasher) (specific : Bool)
    (filename source : String) :
    (∀ level level',
      (preprocess scripts ⟨hasher, level, specific⟩ filename source).map Preprocessed.result =
        (preprocess scripts ⟨hasher, level', specific⟩ filename source).map Preprocessed.result) ∧
      ∀ off use all,
        preprocess scripts ⟨hasher, .off, specific⟩ filename source = .ok off →
        preprocess scripts ⟨hasher, .use, specific⟩ filename source = .ok use →
        preprocess scripts ⟨hasher, .all, specific⟩ filename source = .ok all →
        off.warnings = [] ∧ ∃ component usage,
          Component.read scripts source = .ok component ∧ component.usage = .ok usage ∧
          (component.selectors.map fun p => p.2.span.start).Pairwise (· < ·) ∧
          all.warnings = use.warnings ++
            (component.selectors.filter fun p => combinesUses usage p.2).map fun p =>
              Report.expandedSelector filename source p.2.span (variantCount usage p.2) := by
  constructor
  · intro level level'
    -- a component is read, and its references are collected, before the level matters
    cases hread : Component.read scripts source with
    | error e =>
      unfold preprocess
      rw [hread]
      rfl
    | ok component =>
      cases husage : component.usage with
      | error e =>
        unfold preprocess
        rw [hread]
        dsimp only [bind, Except.bind, Except.mapError]
        rw [husage]
      | ok usage =>
        rw [preprocess_eq hread husage, preprocess_eq hread husage]
        split
        · rfl
        · have hruns := applyRunes_corresponds_level hasher level level' specific filename
            component usage
          refine Corresponds.map_eq ((hruns.mapError _).map fun done done' h => ?_)
            fun _ _ h => h
          show (_, _, _) = (_, _, _)
          rw [h.1, h.2]
  · intro off use all hoff huse hall
    obtain ⟨component, usage, hread, husage⟩ := exists_read_of_preprocess_eq_ok hoff
    refine ⟨?_, component, usage, hread, husage, pairwise_start_selectors hread, ?_⟩
    · rw [warnings_of_preprocess hread husage hoff]
      simp [WarningLevel.isEnabled, WarningLevel.warnsSelectors]
    · rw [warnings_of_preprocess hread husage hall, warnings_of_preprocess hread husage huse]
      simp [WarningLevel.isEnabled, WarningLevel.warnsSelectors]

/-- A component with four complex selectors, of which the first two combine uses. -/
def combinedStyle : String :=
  "<p class=\x7b$css(\"a b\")\x7d/><b class=\"a\"/><style>.a i,.b .n,.b,.a\x7b\x7d</style>"

/-- The highest level warns about these two, after what the middle one warns about. -/
theorem preprocess_level_combinedStyle :
    ∃ off use all component usage,
      preprocess ScriptReader.callsOnly ⟨.djb2, .off, false⟩ "f" combinedStyle = .ok off ∧
      preprocess ScriptReader.callsOnly ⟨.djb2, .use, false⟩ "f" combinedStyle = .ok use ∧
      preprocess ScriptReader.callsOnly ⟨.djb2, .all, false⟩ "f" combinedStyle = .ok all ∧
      Component.read ScriptReader.callsOnly combinedStyle = .ok component ∧
      component.usage = .ok usage ∧ off.warnings = [] ∧ use.warnings.length = 1 ∧
      ((component.selectors.filter fun p => combinesUses usage p.2).map fun p =>
        (p.2.span, variantCount usage p.2)) = [(⟨45, 49⟩, some 2), (⟨50, 55⟩, none)] ∧
      all.warnings = use.warnings ++
        (component.selectors.filter fun p => combinesUses usage p.2).map fun p =>
          Report.expandedSelector "f" combinedStyle p.2.span (variantCount usage p.2) := by
  have hoff : (preprocess ScriptReader.callsOnly ⟨.djb2, .off, false⟩ "f"
      combinedStyle).toOption.isSome = true := by decide +kernel
  have huse : (preprocess ScriptReader.callsOnly ⟨.djb2, .use, false⟩ "f"
      combinedStyle).toOption.map (·.warnings.length) = some 1 := by decide +kernel
  have hall : (preprocess ScriptReader.callsOnly ⟨.djb2, .all, false⟩ "f"
      combinedStyle).toOption.isSome = true := by decide +kernel
  have heval : ((Component.read ScriptReader.callsOnly combinedStyle).toOption.bind
      fun component => component.usage.toOption.map fun usage =>
        (component.selectors.filter fun p => combinesUses usage p.2).map fun p =>
          (p.2.span, variantCount usage p.2)) =
      some [(⟨45, 49⟩, some 2), (⟨50, 55⟩, none)] := by decide +kernel
  obtain ⟨off, hoff⟩ := Option.isSome_iff_exists.1 hoff
  obtain ⟨use, huse, hlength⟩ := Option.map_eq_some_iff.1 huse
  obtain ⟨all, hall⟩ := Option.isSome_iff_exists.1 hall
  obtain ⟨component, hread, heval⟩ := Option.bind_eq_some_iff.1 heval
  obtain ⟨usage, husage, hspans⟩ := Option.map_eq_some_iff.1 heval
  rw [toOption_eq_some_iff] at hoff huse hall hread husage
  obtain ⟨hnone, component', usage', hread', husage', _, hwarnings⟩ :=
    (preprocess_level ScriptReader.callsOnly .djb2 false "f" combinedStyle).2 off use all hoff huse
      hall
  cases hread.symm.trans hread'
  cases husage.symm.trans husage'
  exact ⟨off, use, all, component, usage, hoff, huse, hall, hread, husage, hnone, hlength, hspans,
    hwarnings⟩

end Preprocessing

end CssRune
