/-
**What preprocessing edits.**

The edits of a component are those of its complex selectors and those of its rune calls.  When
preprocessing succeeds, the buffer that is rendered holds exactly these edits, and the names are
those of the rune classes in the selectors.  It never fails because of the edits: their ranges are
pieces of the source that share no byte.

* `Component.edits`, `Component.editRanges` — all edits of a component, and their ranges;
* `sited_editRanges` — the ranges share no byte;
* `applyRunes_eq_ok`, `preprocess_eq_ok` — what has been done when applying runes, and
  preprocessing, succeed;
* `preprocess_ne_internal` — **no edit is ever refused**.
-/

import CssRune.Proofs.Components
import CssRune.Proofs.Rune.Edits
import CssRune.Preprocess

set_option autoImplicit false

namespace CssRune

/-! ### The edits of a component -/

/-- The edits of a component: those of its complex selectors, then those of its rune calls. -/
def Component.edits (component : Component) (usage : Usage) (setting : StyleSetting) :
    List Overwrite :=
  (component.selectors.flatMap fun p =>
      (selectorEdits usage setting component.source.toList p.2).map Run.toOverwrite) ++
    component.runeCalls.map (callEdit setting.hash setting.specific)

/-- The ranges of the edits of a component: for each complex selector its runs of rune classes, or
all of it if one of them is used natively, and the rune calls. -/
def Component.editRanges (component : Component) (usage : Usage) : List Span :=
  (component.selectors.flatMap fun p => selectorRanges usage p.2) ++
    component.runeCalls.map RuneCall.span

/-- The occurrences in the selectors of a component that runes name. -/
def Component.runesIn (component : Component) (usage : Usage) : List Occurrence :=
  component.selectors.flatMap fun p => CssRune.runesIn usage p.2

theorem Component.map_span_edits (component : Component) (usage : Usage) (setting : StyleSetting) :
    (component.edits usage setting).map Overwrite.span = component.editRanges usage := by
  rw [edits, editRanges, List.map_append, List.map_flatMap, List.map_map]
  congr 2
  funext p
  rw [List.map_map]
  exact map_span_selectorEdits usage setting _ p.2

variable {component : Component}

/-- The overwrites of a buffer that has been edited this way are at these ranges. -/
theorem EditBuffer.Extends.perm_editRanges {usage : Usage} {setting : StyleSetting}
    {buffer : EditBuffer}
    (h : (EditBuffer.ofSource component.source).Extends buffer (component.edits usage setting)) :
    (buffer.overwrites.map Overwrite.span).Perm (component.editRanges usage) := by
  have hperm := h.overwrites.map Overwrite.span
  rwa [List.map_append, component.map_span_edits, show (EditBuffer.ofSource
    component.source).overwrites = [] from rfl, List.map_nil, List.append_nil] at hperm

/-- **The ranges of the edits share no byte**, and each is a non-empty piece of the source. -/
theorem sited_editRanges {scripts : ScriptReader} {source : String} (hlaw : scripts.Lawful)
    (h : Component.read scripts source = .ok component) (usage : Usage) :
    Span.Sited source.toList 0 (Text.byteLength source.toList) (component.editRanges usage) := by
  have hrefined := (sited_read hlaw h).refine fun p hp =>
    (laid_of_mem_selectors h p hp).sited_selectorRanges usage
  exact hrefined.perm List.perm_append_comm

/-! ### Applying runes -/

section Applying

variable {options : Options} {filename : String} {component : Component} {usage : Usage}

/-- Applying runes to a stylesheet applies them to its complex selectors. -/
theorem applyToStyle_eq (component : Component) (usage : Usage) (setting : StyleSetting)
    (b : EditBuffer) :
    applyToStyle component usage setting b =
      applyToSelectors usage setting component.source ⟨b, ClassNames.empty, []⟩
        component.selectors := by
  unfold applyToStyle Component.selectors
  cases component.style with
  | none => rfl
  | some sheet => rw [Option.toList_some, List.flatMap_singleton]

theorem hashes_empty (hash : String) : ClassNames.empty.Hashes hash := by
  intro e he
  cases he

/-- Runes may name all classes but the reserved ones. -/
theorem refuseReserved_eq_ok_iff {runes : ClassSet} {names : List String} :
    refuseReserved runes names = .ok () ↔ ∀ name ∈ names, runes.contains name = false := by
  induction names with
  | nil => exact iff_of_true rfl (by simp)
  | cons name rest ih =>
    rw [refuseReserved, List.forall_mem_cons, ClassSet.contains]
    cases runes.get? name with
    | none => exact ih.trans ⟨fun h => ⟨rfl, h⟩, fun h => h.2⟩
    | some span => exact iff_of_false (by rintro ⟨⟩) (by rintro ⟨⟨⟩, _⟩)

/-- The steps of applying runes: the check of reserved classes, the selectors, the calls. -/
theorem applyRunes_eq (options : Options) (filename : String) (component : Component)
    (usage : Usage) :
    applyRunes options filename component usage =
      (do
        (if options.specific then ofRuneCheck (refuseReserved usage.runes reservedClasses)
          else pure ())
        let style ← applyToStyle component usage (options.styleSetting filename component.source)
          (EditBuffer.ofSource component.source)
        let buffer ← applyToCalls component usage.runes style.names options.specific style.buffer
        return (buffer, style)) := by
  unfold applyRunes
  cases options.specific <;> rfl

/-- What has been done when applying runes succeeds. -/
theorem applyRunes_eq_ok {buffer : EditBuffer} {style : StyleState}
    (h : applyRunes options filename component usage = .ok (buffer, style)) :
    (EditBuffer.ofSource component.source).Extends buffer
        (component.edits usage (options.styleSetting filename component.source)) ∧
      style.names = addNames (options.hasher.hash (filename ++ component.source)) ClassNames.empty
        (component.runesIn usage) ∧
      ∀ call ∈ component.runeCalls, call.Known style.names := by
  rw [applyRunes_eq] at h
  obtain ⟨_, _, h⟩ := bind_eq_ok_iff.1 h
  obtain ⟨style', hstyle, h⟩ := bind_eq_ok_iff.1 h
  obtain ⟨buffer', hcalls, h⟩ := bind_eq_ok_iff.1 h
  obtain ⟨rfl, rfl⟩ := Prod.mk.inj (pure_eq_ok_iff.1 h)
  rw [applyToStyle_eq] at hstyle
  obtain ⟨hextends, hnames⟩ := applyToSelectors_eq_ok hstyle
  have hhashes : style'.names.Hashes (options.hasher.hash (filename ++ component.source)) :=
    hnames ▸ hashes_addNames (hashes_empty _) _
  obtain ⟨hextends', hknown⟩ := applyToAll_eq_ok hhashes hcalls
  exact ⟨hextends.trans hextends', hnames, hknown⟩

/-- The pass over the selectors is stopped by no edit, and leaves room for those of the calls. -/
theorem applyToStyle_cases (setting : StyleSetting)
    (hready : (EditBuffer.ofSource component.source).Ready (component.editRanges usage)) :
    (∃ e, applyToStyle component usage setting (EditBuffer.ofSource component.source) =
        .error (.rune e)) ∨
      ∃ style, applyToStyle component usage setting (EditBuffer.ofSource component.source) =
        .ok style ∧ style.names.Hashes setting.hash ∧
        style.buffer.Ready (component.runeCalls.map RuneCall.span) := by
  rw [applyToStyle_eq]
  have hcases := applyToSelectors_of_ready (s := ⟨_, ClassNames.empty, []⟩) hready setting
    component.source
  rcases hcases with ⟨e, _, hrune⟩ | ⟨style, hstyle, hready'⟩
  · exact .inl ⟨e, hrune⟩
  · refine .inr ⟨style, hstyle, ?_, hready'⟩
    rw [(applyToSelectors_eq_ok hstyle).2]
    exact hashes_addNames (hashes_empty _) _

/-- **No edit is refused when runes are applied** to a component that has been read. -/
theorem applyRunes_ne_edit {scripts : ScriptReader} {source : String} (hlaw : scripts.Lawful)
    (hread : Component.read scripts source = .ok component) (options : Options) (filename : String)
    (usage : Usage) (e : EditError) :
    applyRunes options filename component usage ≠ .error (.edit e) := by
  have hready : (EditBuffer.ofSource component.source).Ready (component.editRanges usage) :=
    EditBuffer.ready_ofSource ((laid_read hread).1 ▸ sited_editRanges hlaw hread usage)
  intro h
  rw [applyRunes_eq] at h
  -- each step finds a rune that is used wrongly, which is no edit, or leaves the buffer ready
  rcases bind_eq_error_iff.1 h with hcheck | ⟨_, _, h⟩
  · split at hcheck
    · obtain ⟨_, _, hrune⟩ := mapError_eq_error_iff.1 hcheck
      cases hrune
    · cases hcheck
  rcases applyToStyle_cases (options.styleSetting filename component.source) hready with
    ⟨e', he⟩ | ⟨style, hstyle, hhashes, hready'⟩
  · rw [he] at h
    cases h
  rw [hstyle] at h
  change (applyToCalls component usage.runes style.names options.specific style.buffer >>=
    fun b => pure (b, style)) = _ at h
  rcases bind_eq_error_iff.1 h with hcalls | ⟨_, _, hpure⟩
  · rcases applyToAll_of_ready hhashes hready' usage.runes options.specific with ⟨e', he⟩ | ⟨b, hb⟩
    · cases hcalls.symm.trans he
    · cases hcalls.symm.trans hb
  · cases hpure

end Applying

/-! ### Preprocessing -/

section Preprocessing

variable {scripts : ScriptReader} {options : Options} {filename source : String}

variable {component : Component} {usage : Usage} {out : Preprocessed}

/-- What preprocessing does once a component has been read and its references are collected. -/
theorem preprocess_eq (hread : Component.read scripts source = .ok component)
    (husage : component.usage = .ok usage) (options : Options) (filename : String) :
    preprocess scripts options filename source =
      if usage.runes.isEmpty then .ok ⟨source, none, ClassNames.empty, []⟩
      else ((applyRunes options filename component usage).mapError ApplyError.toPreprocess).map
        fun done => ⟨done.1.render, some (done.1.sourceMap filename), done.2.names,
          (if options.level.isEnabled then
            Report.mixedUse filename source usage.runes usage.natives else []) ++
            done.2.warnings⟩ := by
  unfold preprocess
  rw [hread]
  dsimp only [bind, Except.bind, Except.mapError]
  rw [husage]
  dsimp only [bind, Except.bind, Except.mapError]
  split
  · rfl
  · cases applyRunes options filename component usage with
    | error e => rfl
    | ok done => rfl

/-- What has been done when preprocessing succeeds: the component uses no rune and is left as it is,
or runes have been applied. -/
theorem preprocess_eq_ok (hread : Component.read scripts source = .ok component)
    (husage : component.usage = .ok usage)
    (h : preprocess scripts options filename source = .ok out) :
    (usage.runes.isEmpty = true ∧ out = ⟨source, none, ClassNames.empty, []⟩) ∨
      (usage.runes.isEmpty = false ∧ ∃ buffer style warnings,
        applyRunes options filename component usage = .ok (buffer, style) ∧
        out = ⟨buffer.render, some (buffer.sourceMap filename), style.names, warnings⟩) := by
  obtain ⟨component', hread', h⟩ := bind_eq_ok_iff.1 h
  obtain ⟨usage', husage', h⟩ := bind_eq_ok_iff.1 h
  cases hread.symm.trans (mapError_eq_ok_iff.1 hread')
  cases husage.symm.trans (mapError_eq_ok_iff.1 husage')
  split at h
  · rename_i hempty
    exact .inl ⟨hempty, (pure_eq_ok_iff.1 h).symm⟩
  · rename_i hempty
    obtain ⟨⟨buffer, style⟩, happly, h⟩ := bind_eq_ok_iff.1 h
    have hout := (pure_eq_ok_iff.1 h).symm
    exact .inr ⟨Bool.eq_false_iff.2 hempty, buffer, style, _, mapError_eq_ok_iff.1 happly, hout⟩

/-- A component that is preprocessed has been read, and its references have been collected. -/
theorem exists_read_of_preprocess_eq_ok (h : preprocess scripts options filename source = .ok out) :
    ∃ component usage, Component.read scripts source = .ok component ∧
      component.usage = .ok usage := by
  obtain ⟨component, hread, h⟩ := bind_eq_ok_iff.1 h
  obtain ⟨usage, husage, h⟩ := bind_eq_ok_iff.1 h
  exact ⟨component, usage, mapError_eq_ok_iff.1 hread, mapError_eq_ok_iff.1 husage⟩

/-- **No edit is ever refused.**  Preprocessing never fails because two edits are in conflict: the
ranges it edits in a component are non-empty pieces of the source that share no byte, and when runes
have been applied, these are the ranges of the overwrites in the buffer. -/
theorem preprocess_ne_internal (hlaw : scripts.Lawful) (options : Options)
    (filename source : String) :
    (∀ e, preprocess scripts options filename source ≠ .error (.internal e)) ∧
      ∀ component usage, Component.read scripts source = .ok component →
        component.usage = .ok usage →
        Span.Sited source.toList 0 (Text.byteLength source.toList) (component.editRanges usage) ∧
          ∀ buffer style, applyRunes options filename component usage = .ok (buffer, style) →
            (buffer.overwrites.map Overwrite.span).Perm (component.editRanges usage) := by
  refine ⟨fun e h => ?_, fun component usage hread husage =>
    ⟨sited_editRanges hlaw hread usage, fun buffer style happly => ?_⟩⟩
  · rcases bind_eq_error_iff.1 h with hparse | ⟨component, hread, h⟩
    · obtain ⟨_, _, hparse⟩ := mapError_eq_error_iff.1 hparse
      cases hparse
    rcases bind_eq_error_iff.1 h with hrune | ⟨usage, husage, h⟩
    · obtain ⟨_, _, hrune⟩ := mapError_eq_error_iff.1 hrune
      cases hrune
    split at h
    · cases h
    rcases bind_eq_error_iff.1 h with happly | ⟨_, _, hpure⟩
    · obtain ⟨e', he', heq⟩ := mapError_eq_error_iff.1 happly
      cases e' with
      | rune e' => cases heq
      | edit e' =>
        exact applyRunes_ne_edit hlaw (mapError_eq_ok_iff.1 hread) options filename usage e' he'
    · cases hpure
  · exact (applyRunes_eq_ok happly).1.perm_editRanges

/-- A component with a run of classes, a class that is used both ways, and two calls. -/
def twoCalls : String :=
  "<p class=\x7b$css(\"a b\")\x7d>\x7b$css(\"é\")\x7d</p><b class=\"é\"/>" ++
    "<style>.a.b p,.é,p\x7b\x7d</style>"

/-- Its four edits lie apart: a run, a whole complex selector, and two calls. -/
theorem preprocess_ne_internal_twoCalls :
    ∃ component usage buffer style,
      Component.read ScriptReader.callsOnly twoCalls = .ok component ∧
      component.usage = .ok usage ∧
      applyRunes Options.default "f" component usage = .ok (buffer, style) ∧
      (∀ e, preprocess ScriptReader.callsOnly Options.default "f" twoCalls ≠
        .error (.internal e)) ∧
      component.editRanges usage = [⟨61, 65⟩, ⟨68, 71⟩, ⟨10, 21⟩, ⟨24, 34⟩] ∧
      Span.Sited twoCalls.toList 0 (Text.byteLength twoCalls.toList)
        (component.editRanges usage) ∧
      (buffer.overwrites.map Overwrite.span).Perm (component.editRanges usage) := by
  have heval : ((Component.read ScriptReader.callsOnly twoCalls).toOption.bind fun component =>
      component.usage.toOption.bind fun usage =>
        (applyRunes Options.default "f" component usage).toOption.map fun _ =>
          component.editRanges usage) =
      some [⟨61, 65⟩, ⟨68, 71⟩, ⟨10, 21⟩, ⟨24, 34⟩] := by decide +kernel
  obtain ⟨component, hread, heval⟩ := Option.bind_eq_some_iff.1 heval
  obtain ⟨usage, husage, heval⟩ := Option.bind_eq_some_iff.1 heval
  obtain ⟨⟨buffer, style⟩, happly, hranges⟩ := Option.map_eq_some_iff.1 heval
  rw [toOption_eq_some_iff] at hread husage happly
  obtain ⟨hinternal, hedits⟩ := preprocess_ne_internal ScriptReader.lawful_callsOnly
    Options.default "f" twoCalls
  obtain ⟨hsited, hperm⟩ := hedits component usage hread husage
  exact ⟨component, usage, buffer, style, hread, husage, happly, hinternal, hranges, hsited,
    hperm buffer style happly⟩

end Preprocessing

end CssRune
