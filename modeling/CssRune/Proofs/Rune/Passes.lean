/-
**Two passes over the same component.**

Options change what is written into a buffer and what is warned about, but not which ranges are
edited.  To compare two runs with different options, this module relates their outcomes: both fail
in the same way, or both succeed with results that are related.  Such a relation is carried through
the steps of a pass by one rule for sequences.

Main definition:

* `Corresponds` — **outcomes that fail alike, or succeed with related results**.

Main results:

* `Corresponds.bind` — the rule for sequences;
* `applyToSelector_eq` — what one step does: a check, the edits, the names and the warnings;
* `applyToSelectors_corresponds` — two passes over complex selectors correspond if the edits of each
  step do;
* `warnings_of_applyToSelectors` — the warnings of a pass.
-/

import CssRune.Proofs.Rune.Commutation

set_option autoImplicit false

namespace CssRune

/-! ### Outcomes that correspond -/

/-- Two outcomes fail in the same way, or succeed with related results. -/
inductive Corresponds {ε α β : Type} (R : α → β → Prop) : Except ε α → Except ε β → Prop where
  | error (e : ε) : Corresponds R (.error e) (.error e)
  | ok {a : α} {b : β} (h : R a b) : Corresponds R (.ok a) (.ok b)

namespace Corresponds

variable {ε ε' α β γ δ : Type} {R : α → β → Prop} {S : γ → δ → Prop} {x : Except ε α}
  {y : Except ε β}

theorem refl {R : α → α → Prop} (h : ∀ a, R a a) (x : Except ε α) : Corresponds R x x := by
  cases x with
  | error e => exact .error e
  | ok a => exact .ok (h a)

/-- **Steps that correspond, after outcomes that correspond.** -/
theorem bind {f : α → Except ε γ} {g : β → Except ε δ} (h : Corresponds R x y)
    (hstep : ∀ a b, R a b → Corresponds S (f a) (g b)) : Corresponds S (x >>= f) (y >>= g) := by
  cases h with
  | error e => exact .error e
  | ok h => exact hstep _ _ h

theorem map {f : α → γ} {g : β → δ} (h : Corresponds R x y)
    (hresult : ∀ a b, R a b → S (f a) (g b)) : Corresponds S (x.map f) (y.map g) := by
  cases h with
  | error e => exact .error e
  | ok h => exact .ok (hresult _ _ h)

theorem mapError (h : Corresponds R x y) (f : ε → ε') :
    Corresponds R (x.mapError f) (y.mapError f) := by
  cases h with
  | error e => exact .error (f e)
  | ok h => exact .ok h

theorem map_eq {f : α → γ} {g : β → γ} (h : Corresponds R x y) (heq : ∀ a b, R a b → f a = g b) :
    x.map f = y.map g := by
  cases h with
  | error e => rfl
  | ok h => exact congrArg Except.ok (heq _ _ h)

theorem exists_ok_iff (h : Corresponds R x y) : (∃ a, x = .ok a) ↔ ∃ b, y = .ok b := by
  cases h with
  | error e =>
    refine iff_of_false ?_ ?_
    · rintro ⟨a, ha⟩
      cases ha
    · rintro ⟨b, hb⟩
      cases hb
  | ok h => exact iff_of_true ⟨_, rfl⟩ ⟨_, rfl⟩

end Corresponds

/-! ### One complex selector -/

/-- The number of variants of a complex selector, if it is replaced by them. -/
def variantCount (usage : Usage) (c : ComplexSelector) : Option Nat :=
  if hasMixed usage c then some (2 ^ (runesIn usage c).countP (·.placement == .mixed))
  else none

/-- The warnings about a complex selector with rune classes. -/
def selectorWarnings (usage : Usage) (setting : StyleSetting) (source : String)
    (c : ComplexSelector) : List String :=
  if setting.warnsSelectors && combines (occurrences usage c) then
    [Report.expandedSelector setting.filename source c.span (variantCount usage c)]
  else []

section Selectors

variable {usage : Usage} {setting setting' : StyleSetting} {source : String} {s s' : StyleState}
  {list : Span} {c : ComplexSelector} {sels : List (Span × ComplexSelector)}

/-- What replaces a complex selector whose classes stand where they may. -/
theorem replacements_eq_ok (h : checkPlacement (occurrences usage c) list = .ok ())
    (setting : StyleSetting) (source : String) :
    replacements source.toList c (targetsIn usage setting.hash c) setting.suffix =
      .ok (selectorEdits usage setting source.toList c, variantCount usage c) := by
  cases hreplace : replacements source.toList c (targetsIn usage setting.hash c)
      setting.suffix with
  | error e => exact absurd (.inr hreplace) (not_misused h setting source e)
  | ok r =>
    have hruns := fst_replacements hreplace
    have hcount : r.2 = variantCount usage c := by
      unfold replacements at hreplace
      rw [any_mixed_targetsIn] at hreplace
      unfold variantCount
      split at hreplace
      · rename_i hmixed
        obtain ⟨vs, hvs, hreplace⟩ := bind_eq_ok_iff.1 hreplace
        simp only [variants] at hvs
        split at hvs
        · cases hvs
        · cases hvs
          rw [if_pos hmixed, ← pure_eq_ok_iff.1 hreplace, List.length_map, length_choices,
            mixedCount, targetsIn, List.countP_map]
          rfl
      · rename_i hmixed
        cases hreplace
        rw [if_neg hmixed]
    rw [← hruns, ← hcount]

/-- **What one step does**: classes are checked, edits are made, names and warnings are added. -/
theorem applyToSelector_eq (usage : Usage) (setting : StyleSetting) (source : String)
    (s : StyleState) (list : Span) (c : ComplexSelector) :
    applyToSelector usage setting source s list c =
      if (runesIn usage c).isEmpty then .ok s
      else ofRuneCheck (checkPlacement (occurrences usage c) list) >>= fun _ =>
        (ofEdit (overwriteAll s.buffer (selectorEdits usage setting source.toList c))).map fun b =>
          ⟨b, addNames setting.hash s.names (runesIn usage c),
            s.warnings ++ selectorWarnings usage setting source c⟩ := by
  unfold applyToSelector
  simp only []
  show (if (runesIn usage c).isEmpty = true then _ else _) = _
  split
  · rfl
  · cases hcheck : checkPlacement (occurrences usage c) list with
    | error e => rfl
    | ok u =>
      -- once classes stand where they may, there is always something to replace them by
      show (ofRuneCheck (replacements source.toList c (targetsIn usage setting.hash c)
        setting.suffix) >>= _) = (ofEdit _).map _
      rw [replacements_eq_ok hcheck]
      show (ofEdit (overwriteAll s.buffer (selectorEdits usage setting source.toList c)) >>= _) = _
      cases overwriteAll s.buffer (selectorEdits usage setting source.toList c) with
      | error e => rfl
      | ok b => rfl

/-! ### A pass over complex selectors -/

/-- **Two passes correspond if the edits of each step do.**  `B` relates their buffers; the names
they give are the same. -/
theorem applyToSelectors_corresponds {B : EditBuffer → EditBuffer → Prop}
    (hhash : setting.hash = setting'.hash)
    (hedits : ∀ c b b', B b b' →
      Corresponds B (overwriteAll b (selectorEdits usage setting source.toList c))
        (overwriteAll b' (selectorEdits usage setting' source.toList c)))
    (hbuffer : B s.buffer s'.buffer) (hnames : s.names = s'.names) :
    Corresponds (fun t t' => B t.buffer t'.buffer ∧ t.names = t'.names)
      (applyToSelectors usage setting source s sels)
      (applyToSelectors usage setting' source s' sels) := by
  induction sels generalizing s s' with
  | nil => exact .ok ⟨hbuffer, hnames⟩
  | cons p sels ih =>
    obtain ⟨list, c⟩ := p
    have hstep : Corresponds (fun t t' => B t.buffer t'.buffer ∧ t.names = t'.names)
        (applyToSelector usage setting source s list c)
        (applyToSelector usage setting' source s' list c) := by
      rw [applyToSelector_eq, applyToSelector_eq]
      -- the check does not look at the setting, so only edits and names are compared
      split
      · exact .ok ⟨hbuffer, hnames⟩
      · refine (Corresponds.refl (fun _ => rfl) _).bind fun _ _ _ => ?_
        refine ((hedits c _ _ hbuffer).mapError _).map fun b b' hb => ⟨hb, ?_⟩
        rw [hhash, hnames]
    exact hstep.bind fun t t' ht => ih ht.1 ht.2

/-- The warnings of a pass: one step after the other adds its own. -/
theorem warnings_of_applyToSelectors (h : applyToSelectors usage setting source s sels = .ok s') :
    s'.warnings = s.warnings ++ sels.flatMap fun p =>
      if (runesIn usage p.2).isEmpty then [] else selectorWarnings usage setting source p.2 := by
  induction sels generalizing s with
  | nil =>
    cases h
    simp
  | cons p sels ih =>
    obtain ⟨list, c⟩ := p
    obtain ⟨s₁, h₁, h⟩ := bind_eq_ok_iff.1 h
    rw [ih h, List.flatMap_cons, ← List.append_assoc]
    congr 1
    rw [applyToSelector_eq] at h₁
    split at h₁
    · rename_i hempty
      cases h₁
      simp [hempty]
    · rename_i hrunes
      obtain ⟨_, _, h₁⟩ := bind_eq_ok_iff.1 h₁
      obtain ⟨b, _, rfl⟩ := map_eq_ok_iff.1 h₁
      rw [if_neg hrunes]

end Selectors

end CssRune
