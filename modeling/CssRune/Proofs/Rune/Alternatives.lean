/-
**A complex selector has at most four alternatives.**

Every mixed class of a complex selector doubles the number of its variants, and there is a limit on
how many of them are expanded.  The limit is never met: the placement check runs first, it reads all
occurrences in one sequence, also those in arguments of pseudo-classes, and accepts mixed ones only
as the first and the last of it.  So no more than two classes are left to choose for.

Main results:

* `length_alternatives_le` — **where the check accepts, there are at most four**;
* `join_alternatives` — the edits of a complex selector put its alternatives in its place;
* `applyToSelectors_eq_error`, `accepted_of_applyToSelectors` — a pass over complex selectors is
  only stopped by the placement check, or accepts all of them;
* `applyToStyle_at_most_four` — a stylesheet is never refused for too many mixed classes.
-/

import CssRune.Proofs.Preprocessing
import CssRune.Proofs.Rune.Passes
import CssRune.Proofs.Rune.Positions

set_option autoImplicit false

namespace CssRune

/-- The texts that a complex selector is replaced by: one for each choice of the mixed classes to
escape.  If nothing in it is mixed there is one, and without rune classes it is the text itself. -/
def alternatives (usage : Usage) (setting : StyleSetting) (source : List Char)
    (c : ComplexSelector) : List String :=
  (choices (targetsIn usage setting.hash c)).map fun escaped =>
    variant source c.span (targetsIn usage setting.hash c) escaped setting.suffix

/-! ### One complex selector -/

section Selectors

variable {usage : Usage} {setting : StyleSetting} {c : ComplexSelector} {list : Span}

theorem length_alternatives (usage : Usage) (setting : StyleSetting) (source : List Char)
    (c : ComplexSelector) : (alternatives usage setting source c).length =
      2 ^ mixedCount (targetsIn usage setting.hash c) := by
  rw [alternatives, List.length_map, length_choices]

theorem length_alternatives_le_of_mixedCount
    (h : mixedCount (targetsIn usage setting.hash c) ≤ 2) (source : List Char) :
    (alternatives usage setting source c).length ≤ 4 := by
  rw [length_alternatives]
  exact Nat.pow_le_pow_right (n := 2) (by decide) h

/-- **A complex selector that the check accepts has at most four alternatives.** -/
theorem length_alternatives_le (h : checkPlacement (occurrences usage c) list = .ok ())
    (setting : StyleSetting) (source : List Char) :
    (alternatives usage setting source c).length ≤ 4 :=
  length_alternatives_le_of_mixedCount (mixedCount_targetsIn_le h setting.hash) source

theorem length_alternatives_of_isEmpty (h : (runesIn usage c).isEmpty = true)
    (setting : StyleSetting) (source : List Char) :
    (alternatives usage setting source c).length ≤ 4 := by
  refine length_alternatives_le_of_mixedCount ?_ source
  simp [targetsIn, List.isEmpty_iff.1 h, mixedCount]

/-- The variants of an accepted complex selector are its alternatives. -/
theorem variants_eq_alternatives (h : checkPlacement (occurrences usage c) list = .ok ())
    (setting : StyleSetting) (source : List Char) :
    variants source c.span (targetsIn usage setting.hash c) setting.suffix =
      .ok (alternatives usage setting source c) := by
  have hfew : ¬maxMixedTargets < mixedCount (targetsIn usage setting.hash c) := by
    have := mixedCount_targetsIn_le h setting.hash
    rw [maxMixedTargets]
    omega
  rw [variants, if_neg hfew]
  rfl

/-- **The edits of a complex selector put its alternatives in its place**, with commas between
them. -/
theorem join_alternatives (usage : Usage) (setting : StyleSetting) (source : List Char)
    (c : ComplexSelector) :
    String.ofList (variantFrom source c.span.stop c.span.start
      (selectorEdits usage setting source c)) =
        ", ".intercalate (alternatives usage setting source c) := by
  unfold selectorEdits alternatives
  cases hmixed : hasMixed usage c with
  | true =>
    -- one edit takes the whole range
    rw [if_pos rfl, variantFrom, variantFrom, slice_self, slice_self, List.nil_append,
      List.append_nil, String.ofList_toList]
  | false =>
    have hnone : (targetsIn usage setting.hash c).any (·.mixed) = false :=
      any_mixed_targetsIn.trans hmixed
    rw [if_neg (by simp), choices_of_not_mixed hnone, List.map_singleton,
      String.intercalate_singleton]
    rfl

end Selectors

/-! ### All complex selectors of a stylesheet -/

section Passes

variable {usage : Usage} {setting : StyleSetting} {source : String} {s s' : StyleState}
  {sels : List (Span × ComplexSelector)}

/-- If runes stop a pass, the check has refused a complex selector. -/
theorem applyToSelectors_eq_error {e : RuneError}
    (h : applyToSelectors usage setting source s sels = .error (.rune e)) :
    ∃ p ∈ sels, checkPlacement (occurrences usage p.2) p.1 = .error e := by
  induction sels generalizing s with
  | nil => cases h
  | cons p sels ih =>
    obtain ⟨list, c⟩ := p
    rcases bind_eq_error_iff.1 h with hstep | ⟨s₁, _, hrest⟩
    · refine ⟨(list, c), List.mem_cons_self, ?_⟩
      rw [applyToSelector_eq] at hstep
      split at hstep
      · cases hstep
      · rcases bind_eq_error_iff.1 hstep with hcheck | ⟨_, _, hedit⟩
        · obtain ⟨e', he', heq⟩ := mapError_eq_error_iff.1 hcheck
          cases heq
          exact he'
        · -- an edit that is refused is no rune that is used wrongly
          cases hoverwrite : overwriteAll s.buffer
              (selectorEdits usage setting source.toList c) with
          | ok b =>
            rw [hoverwrite] at hedit
            cases hedit
          | error e' =>
            rw [hoverwrite] at hedit
            cases hedit
    · obtain ⟨p, hp, hrefused⟩ := ih hrest
      exact ⟨p, List.mem_cons_of_mem _ hp, hrefused⟩

/-- When a pass succeeds, every complex selector had no rune classes or was accepted. -/
theorem accepted_of_applyToSelectors (h : applyToSelectors usage setting source s sels = .ok s') :
    ∀ p ∈ sels, (runesIn usage p.2).isEmpty = true ∨
      checkPlacement (occurrences usage p.2) p.1 = .ok () := by
  induction sels generalizing s with
  | nil =>
    intro p hp
    cases hp
  | cons p sels ih =>
    obtain ⟨list, c⟩ := p
    obtain ⟨s₁, hstep, hrest⟩ := bind_eq_ok_iff.1 h
    refine List.forall_mem_cons.2 ⟨?_, ih hrest⟩
    rw [applyToSelector_eq] at hstep
    split at hstep
    · rename_i hempty
      exact Or.inl hempty
    · obtain ⟨_, hcheck, _⟩ := bind_eq_ok_iff.1 hstep
      exact Or.inr (mapError_eq_ok_iff.1 hcheck)

end Passes

/-- **A complex selector is replaced by at most four alternatives**, for every component and however
its classes are used.  If the placement check accepts the occurrences in a complex selector, at most
two of its targets are mixed and it is expanded.  So a stylesheet is never refused because a
selector has too many mixed classes, and when runes are applied to it, the edits are those that put
the alternatives of each complex selector in its place. -/
theorem applyToStyle_at_most_four (component : Component) (usage : Usage) (setting : StyleSetting)
    (buffer : EditBuffer) :
    let source := component.source.toList
    (∀ list c, checkPlacement (occurrences usage c) list = .ok () →
      mixedCount (targetsIn usage setting.hash c) ≤ 2 ∧
        ∃ vs, variants source c.span (targetsIn usage setting.hash c) setting.suffix = .ok vs ∧
          vs.length ≤ 4) ∧
    (∀ e, applyToStyle component usage setting buffer = .error (.rune e) →
      e.fault.message ≠ "Too many mixed selectors") ∧
    ∀ s, applyToStyle component usage setting buffer = .ok s →
      buffer.Extends s.buffer (component.selectors.flatMap fun p =>
        (selectorEdits usage setting source p.2).map Run.toOverwrite) ∧
      ∀ p ∈ component.selectors, (alternatives usage setting source p.2).length ≤ 4 ∧
        String.ofList (variantFrom source p.2.span.stop p.2.span.start
          (selectorEdits usage setting source p.2)) =
            ", ".intercalate (alternatives usage setting source p.2) := by
  intro source
  rw [applyToStyle_eq]
  refine ⟨?_, ?_, ?_⟩
  · intro list c haccepted
    exact ⟨mixedCount_targetsIn_le haccepted setting.hash, _,
      variants_eq_alternatives haccepted setting source,
      length_alternatives_le haccepted setting source⟩
  · intro e herror
    obtain ⟨p, _, hrefused⟩ := applyToSelectors_eq_error herror
    obtain ⟨o, _, _, rfl⟩ := exists_occurrence_of_checkPlacement_eq_error hrefused
    change _ ++ _ ≠ _
    decide +kernel
  · intro s hok
    refine ⟨(applyToSelectors_eq_ok hok).1, ?_⟩
    intro p hp
    refine ⟨?_, join_alternatives usage setting source p.2⟩
    rcases accepted_of_applyToSelectors hok p hp with hempty | haccepted
    · exact length_alternatives_of_isEmpty hempty setting source
    · exact length_alternatives_le haccepted setting source

/-- A complex selector with mixed classes at its ends and a rune class in an argument between
them. -/
def mixedEnds : String := "<style>.m :is(.r) .n\x7b\x7d</style>"

/-- How its classes are used. -/
def mixedEndsUsage : Usage :=
  ⟨⟨[("m", ⟨0, 0⟩), ("n", ⟨0, 0⟩), ("r", ⟨0, 0⟩)]⟩, ⟨[("m", ⟨0, 0⟩), ("n", ⟨0, 0⟩)]⟩⟩

/-- The bound is met: this complex selector is replaced by four alternatives. -/
theorem applyToStyle_at_most_four_mixedEnds :
    ∃ component s p, Component.read ScriptReader.callsOnly mixedEnds = .ok component ∧
      applyToStyle component mixedEndsUsage ⟨"h", "f", false, false⟩
        (EditBuffer.ofSource mixedEnds) = .ok s ∧
      component.selectors = [p] ∧
      String.ofList (variantFrom component.source.toList p.2.span.stop p.2.span.start
        (selectorEdits mixedEndsUsage ⟨"h", "f", false, false⟩ component.source.toList p.2)) =
          ", ".intercalate [":global(.m-h) :is(:global(.r-h)) :global(.n-h)",
            ":global(.m-h) :is(:global(.r-h)) .n", ".m :is(:global(.r-h)) :global(.n-h)",
            ".m :is(:global(.r-h)) .n"] := by
  have heval : ((Component.read ScriptReader.callsOnly mixedEnds).toOption.bind fun component =>
      (applyToStyle component mixedEndsUsage ⟨"h", "f", false, false⟩
        (EditBuffer.ofSource mixedEnds)).toOption.map fun _ =>
          component.selectors.map fun p => alternatives mixedEndsUsage ⟨"h", "f", false, false⟩
            component.source.toList p.2) =
      some [[":global(.m-h) :is(:global(.r-h)) :global(.n-h)",
        ":global(.m-h) :is(:global(.r-h)) .n", ".m :is(:global(.r-h)) :global(.n-h)",
        ".m :is(:global(.r-h)) .n"]] := by decide +kernel
  obtain ⟨component, hread, heval⟩ := Option.bind_eq_some_iff.1 heval
  obtain ⟨s, happly, hselectors⟩ := Option.map_eq_some_iff.1 heval
  rw [toOption_eq_some_iff] at hread happly
  obtain ⟨p, hp, hfour⟩ := List.map_eq_singleton_iff.1 hselectors
  obtain ⟨_, _, hall⟩ := applyToStyle_at_most_four component mixedEndsUsage
    ⟨"h", "f", false, false⟩ (EditBuffer.ofSource mixedEnds)
  obtain ⟨_, hjoin⟩ := (hall s happly).2 p (by simp [hp])
  exact ⟨component, s, p, hread, happly, hp, hfour ▸ hjoin⟩

end CssRune
