/-
**What preprocessing puts out.**

A component that has been preprocessed is its source with edits, and the map back to the source
tells where each of them went.  So the output can be described range by range: rune calls have
become literals, ranges of complex selectors have become variants, and everything else stands as it
was.

* `Preprocessed.Replaces` — the output shows a text in the place of a range;
* `Preprocessed.Emits` — it shows variants of a complex selector there;
* `Preprocessed.OfEdits` — the output is the source with the edits of the component, with
  `OfEdits.replaces_call`, `OfEdits.emits` and `OfEdits.accounts`: what it shows in each place;
* `preprocess_rewires` — **markup, scripts and stylesheet agree on the classes**;
* `preprocess_verbatim` — **all else is verbatim**.
-/

import CssRune.Proofs.Edit.Segments
import CssRune.Proofs.Preprocessing
import CssRune.Proofs.Rune.Pieces
import CssRune.Proofs.Rune.References
import CssRune.Script.Grammar
import Mathlib.Tactic.TFAE

set_option autoImplicit false

namespace CssRune

/-! ### What the output shows -/

/-- The output shows a text in the place of a range of the source. -/
def Preprocessed.Replaces (out : Preprocessed) (range : Span) (text : String) : Prop :=
  ∃ map, out.map = some map ∧ ∃ m ∈ map.mappings, m.origin = range ∧
    Text.slice out.code.toList m.generated = text.toList

/-- The output shows variants of a complex selector, made of pieces, in the place of a range. -/
structure Preprocessed.Emits (out : Preprocessed) (usage : Usage) (setting : StyleSetting)
    (source : List Char) (c : ComplexSelector) (range : Span) (variants : List (List Piece)) :
    Prop where
  nonempty : variants ≠ []
  laid : ∀ ps ∈ variants, PiecesLaid usage source c range ps
  replaces : out.Replaces range (", ".intercalate (variants.map (piecesText source setting)))

section Output

variable {scripts : ScriptReader} {options : Options} {filename source : String}
  {component : Component} {usage : Usage} {out : Preprocessed}

/-- What a component with runes has become. -/
structure Preprocessed.OfEdits (out : Preprocessed) (component : Component) (usage : Usage)
    (setting : StyleSetting) : Prop where
  names_eq : out.names = addNames setting.hash ClassNames.empty (component.runesIn usage)
  known : ∀ call ∈ component.runeCalls, call.Known out.names
  rendered : ∃ buffer name, (EditBuffer.ofSource component.source).Extends buffer
    (component.edits usage setting) ∧ out.code = buffer.render ∧
    out.map = some (buffer.sourceMap name)

/-- A component is left as it is or has its edits made. -/
theorem ofEdits_of_preprocess_eq_ok (hread : Component.read scripts source = .ok component)
    (husage : component.usage = .ok usage)
    (h : preprocess scripts options filename source = .ok out) :
    (usage.runes.isEmpty = true ∧ out = ⟨source, none, ClassNames.empty, []⟩) ∨
      (usage.runes.isEmpty = false ∧
        out.OfEdits component usage (options.styleSetting filename source)) := by
  obtain rfl : component.source = source := (laid_read hread).1
  rcases preprocess_eq_ok hread husage h with hleft | ⟨hrunes, buffer, style, warnings, happly, rfl⟩
  · exact .inl hleft
  · obtain ⟨hextends, hnames, hknown⟩ := applyRunes_eq_ok happly
    exact .inr ⟨hrunes, hnames, hknown, buffer, filename, hextends, rfl, rfl⟩

namespace Preprocessed.OfEdits

variable {setting : StyleSetting}

/-- Every edit is found in the output. -/
theorem replaces_of_mem_edits (h : out.OfEdits component usage setting) {o : Overwrite}
    (ho : o ∈ component.edits usage setting) : out.Replaces o.span o.text := by
  obtain ⟨buffer, name, hextends, hcode, hmap⟩ := h.rendered
  have hmem : o ∈ buffer.overwrites := hextends.overwrites.mem_iff.2 (List.mem_append_left _ ho)
  obtain ⟨m, hm, horigin, htext⟩ :=
    EditBuffer.exists_mapping_of_mem_overwrites name hextends.insertions_eq hmem
  exact ⟨_, hmap, m, hm, horigin, hcode ▸ htext⟩

/-- **A rune call becomes the literal of the hashed names of the classes it lists.** -/
theorem replaces_call (h : out.OfEdits component usage setting) {call : RuneCall}
    (hcall : call ∈ component.runeCalls) :
    out.Replaces call.span
      (quoted setting.specific (call.listed.map (hashedName setting.hash))) :=
  h.replaces_of_mem_edits (List.mem_append_right _ (List.mem_map_of_mem hcall))

/-- **A range of a complex selector becomes its variants.** -/
theorem emits (h : out.OfEdits component usage setting) {p : Span × ComplexSelector}
    (hlaid : p.2.Laid component.source.toList) (hp : p ∈ component.selectors)
    {v : Span × List (List Piece)} (hv : v ∈ selectorVariants usage setting p.2) :
    out.Emits usage setting component.source.toList p.2 v.1 v.2 := by
  obtain ⟨hne, hpieces⟩ := hlaid.piecesLaid_of_mem hv
  have hedit : ⟨v.1, ", ".intercalate (v.2.map (piecesText component.source.toList setting))⟩ ∈
      component.edits usage setting := by
    refine List.mem_append_left _ (List.mem_flatMap.2 ⟨p, hp, ?_⟩)
    rw [selectorEdits_eq, List.map_map]
    exact List.mem_map_of_mem hv
  exact ⟨hne, hpieces, h.replaces_of_mem_edits hedit⟩

/-- The map accounts for the source and the output. -/
theorem accounts (h : out.OfEdits component usage setting) {map : SourceMap}
    (hmap : out.map = some map) :
    map.Accounts component.source.toList out.code.toList (component.editRanges usage) := by
  obtain ⟨buffer, name, hextends, hcode, hmap'⟩ := h.rendered
  have hsound : buffer.Sound := hextends.sound (EditBuffer.sound_ofSource _)
  obtain rfl : buffer.sourceMap name = map := Option.some.inj (hmap'.symm.trans hmap)
  rw [hcode, show component.source = buffer.source from hextends.source_eq.symm]
  exact (hsound.accounts name hextends.insertions_eq).of_perm hextends.perm_editRanges

theorem mem_keys_iff (h : out.OfEdits component usage setting) {name : String} :
    name ∈ out.names.keys ↔ ∃ o ∈ component.runesIn usage, o.name = name := by
  rw [h.names_eq, mem_keys_addNames, List.mem_map]
  exact or_iff_left (List.not_mem_nil (a := name))

end Preprocessed.OfEdits

/-! ### Classes are rewired -/

/-- The output shows a rune call as a literal that holds the hashed name of a class. -/
def Preprocessed.Writes (out : Preprocessed) (setting : StyleSetting) (call : RuneCall)
    (name : String) : Prop :=
  out.Replaces call.span (quoted setting.specific (call.listed.map (hashedName setting.hash))) ∧
    name ∈ call.listed

/-- The output shows a variant of a complex selector with the hashed name of a class under a
wrapper. -/
def Preprocessed.Wraps (out : Preprocessed) (usage : Usage) (setting : StyleSetting)
    (source : List Char) (c : ComplexSelector) (name : String) : Prop :=
  ∃ range variants, out.Emits usage setting source c range variants ∧
    ∃ ps ∈ variants, ∃ os, .wrapped os ∈ ps ∧ name ∈ os.map Occurrence.name

/-- Only classes that runes name are wrapped. -/
theorem Preprocessed.Wraps.contains_runes {setting : StyleSetting} {c : ComplexSelector}
    {name : String} (h : out.Wraps usage setting source.toList c name) :
    usage.runes.contains name = true := by
  obtain ⟨range, variants, hemits, ps, hps, os, hos, hname⟩ := h
  obtain ⟨o, ho, rfl⟩ := List.mem_map.1 hname
  have hrune := ((hemits.laid ps hps).wrapped os hos).2.1.subset ho
  exact (mem_runesIn_iff.1 hrune).2.1

/-- How the parts of a component hang together in the output: every rune call has become a literal,
every edited range of a selector has become variants, and the same classes have hashed names, are
named by runes, are written in literals and stand under wrappers. -/
structure Preprocessed.Rewired (out : Preprocessed) (component : Component) (usage : Usage)
    (setting : StyleSetting) : Prop where
  calls : ∀ call ∈ component.runeCalls, out.Replaces call.span
    (quoted setting.specific (call.listed.map (hashedName setting.hash)))
  selectors : ∀ p ∈ component.selectors, ∀ range ∈ selectorRanges usage p.2, ∃ variants,
    out.Emits usage setting component.source.toList p.2 range variants
  agree : ∀ name, List.TFAE [
    name ∈ out.names.keys,
    usage.runes.contains name = true,
    ∃ call ∈ component.runeCalls, out.Writes setting call name,
    ∃ p ∈ component.selectors, out.Wraps usage setting component.source.toList p.2 name]

/-- **Markup, scripts and stylesheet agree on the classes.**  When a component with rune classes has
been preprocessed, and no rune call stands inside another one, every class has its own name with the
hash of the file, and the parts of the component have been rewired to these names. -/
theorem preprocess_rewires (hread : Component.read scripts source = .ok component)
    (husage : component.usage = .ok usage) (hrunes : usage.runes.isEmpty = false)
    (hnested : component.nestedCalls = [])
    (h : preprocess scripts options filename source = .ok out) :
    (∀ e ∈ out.names.entries, e.2 = e.1 ++ "-" ++ options.hasher.hash (filename ++ source)) ∧
      out.Rewired component usage (options.styleSetting filename source) := by
  have hlaid := laid_of_mem_selectors hread
  obtain rfl : component.source = source := (laid_read hread).1
  rcases ofEdits_of_preprocess_eq_ok hread husage h with ⟨hempty, _⟩ | ⟨_, hedits⟩
  · cases hempty.symm.trans hrunes
  refine ⟨?_, fun call hcall => hedits.replaces_call hcall, fun p hp range hrange => ?_,
    fun name => ?_⟩
  · rw [hedits.names_eq]
    exact hashes_addNames (hashes_empty _) _
  · obtain ⟨v, hv, rfl⟩ := exists_variants_of_mem_selectorRanges hrange
    exact ⟨v.2, hedits.emits (hlaid p hp) hp hv⟩
  · tfae_have 2 → 3 := by
      intro hcontains
      obtain ⟨call, hcall, hlisted⟩ := exists_call_of_contains_runes husage hnested hcontains
      exact ⟨call, hcall, hedits.replaces_call hcall, hlisted⟩
    tfae_have 3 → 1 := by
      rintro ⟨call, hcall, _, hlisted⟩
      exact (hedits.known call hcall).2 name hlisted
    tfae_have 1 → 4 := by
      intro hkey
      obtain ⟨o, ho, rfl⟩ := hedits.mem_keys_iff.1 hkey
      obtain ⟨p, hp, ho⟩ := List.mem_flatMap.1 ho
      obtain ⟨v, hv, ps, hps, os, hos, hmem⟩ := exists_wrapped_of_mem_runesIn _ ho
      exact ⟨p, hp, v.1, v.2, hedits.emits (hlaid p hp) hp hv, ps, hps, os, hos,
        List.mem_map_of_mem hmem⟩
    tfae_have 4 → 2 := by
      rintro ⟨p, _, hwraps⟩
      exact hwraps.contains_runes
    tfae_finish

/-- A component with a script, a class that is used both ways, and a selector that is global
already. -/
def mixedScript : String :=
  "<script>let x = $css(\"a b\")</script><p class=\x7bx\x7d/><i class=\"b\"/>" ++
    "<style>@media y\x7b.b:global(.c q) p,i .a.a\x7b\x7d\x7d</style>"

/-- What preprocessing makes of it. -/
theorem eval_mixedScript :
    ∃ component usage out, Component.read ScriptReader.grammar mixedScript = .ok component ∧
      component.usage = .ok usage ∧
      preprocess ScriptReader.grammar Options.default "f" mixedScript = .ok out ∧
      usage.runes.isEmpty = false ∧ component.nestedCalls = [] ∧ out.names.keys = ["a", "b"] ∧
      component.editRanges usage = [⟨80, 97⟩, ⟨100, 104⟩, ⟨16, 27⟩] := by
  have heval : ((Component.read ScriptReader.grammar mixedScript).toOption.bind fun component =>
      component.usage.toOption.bind fun usage =>
        (preprocess ScriptReader.grammar Options.default "f" mixedScript).toOption.map fun out =>
          (usage.runes.isEmpty, component.nestedCalls.isEmpty, out.names.keys,
            component.editRanges usage)) =
      some (false, true, ["a", "b"], [⟨80, 97⟩, ⟨100, 104⟩, ⟨16, 27⟩]) := by decide +kernel
  obtain ⟨component, hread, heval⟩ := Option.bind_eq_some_iff.1 heval
  obtain ⟨usage, husage, heval⟩ := Option.bind_eq_some_iff.1 heval
  obtain ⟨out, hout, heval⟩ := Option.map_eq_some_iff.1 heval
  simp only [Prod.mk.injEq, List.isEmpty_iff] at heval
  rw [toOption_eq_some_iff] at hread husage hout
  exact ⟨component, usage, out, hread, husage, hout, heval⟩

/-- Its two classes have hashed names, are named by a rune, written in a literal and wrapped. -/
theorem preprocess_rewires_mixedScript :
    ∃ component usage out, Component.read ScriptReader.grammar mixedScript = .ok component ∧
      component.usage = .ok usage ∧ usage.runes.isEmpty = false ∧ component.nestedCalls = [] ∧
      preprocess ScriptReader.grammar Options.default "f" mixedScript = .ok out ∧
      out.names.keys = ["a", "b"] ∧
      (∀ e ∈ out.names.entries,
        e.2 = e.1 ++ "-" ++ Options.default.hasher.hash ("f" ++ mixedScript)) ∧
      out.Rewired component usage (Options.default.styleSetting "f" mixedScript) := by
  obtain ⟨component, usage, out, hread, husage, hout, hrunes, hnested, hkeys, _⟩ :=
    eval_mixedScript
  exact ⟨component, usage, out, hread, husage, hrunes, hnested, hout, hkeys,
    preprocess_rewires hread husage hrunes hnested hout⟩

/-! ### All else is verbatim -/

theorem selectorRanges_eq_nil (h : usage.runes.isEmpty = true) (c : ComplexSelector) :
    selectorRanges usage c = [] := by
  have hnone : runesIn usage c = [] := by
    refine List.eq_nil_iff_forall_not_mem.2 fun o ho => ?_
    have hcontains := (mem_runesIn_iff.1 ho).2.1
    rw [ClassSet.contains, ClassSet.get?, List.isEmpty_iff.1 h] at hcontains
    cases hcontains
  rw [selectorRanges, hasMixed, hnone]
  rfl

/-- What the output keeps of a component.  Without a map nothing has changed.  A map accounts for
the source and for the output, with rune calls, runs of rune classes, and complex selectors with a
class that is used both ways as the edited ranges.  In the place of a range of a complex selector
there are variants that keep all of it but rune classes, and above all what is global already. -/
structure Preprocessed.Framed (out : Preprocessed) (component : Component) (usage : Usage)
    (setting : StyleSetting) : Prop where
  unmapped : out.map = none → out.code = component.source
  accounts : ∀ map, out.map = some map →
    map.Accounts component.source.toList out.code.toList (component.editRanges usage)
  selectors : ∀ p ∈ component.selectors, ∀ range ∈ selectorRanges usage p.2, ∃ variants,
    out.Emits usage setting component.source.toList p.2 range variants ∧
      ∀ s ∈ p.2.parts (· != globalPseudoClass), s.isGlobal = true →
        s.span.intersects range = false ∨
          ∀ ps ∈ variants, ∃ k, .kept k ∈ ps ∧ k.start ≤ s.span.start ∧ s.span.stop ≤ k.stop

/-- **All else is verbatim.**  Whenever preprocessing succeeds, the output is the source outside the
edited ranges, and selectors keep everything but their rune classes. -/
theorem preprocess_verbatim (h : preprocess scripts options filename source = .ok out) :
    ∃ component usage, Component.read scripts source = .ok component ∧ component.source = source ∧
      component.usage = .ok usage ∧
      out.Framed component usage (options.styleSetting filename source) := by
  obtain ⟨component, usage, hread, husage⟩ := exists_read_of_preprocess_eq_ok h
  have hlaid := laid_of_mem_selectors hread
  obtain rfl : component.source = source := (laid_read hread).1
  refine ⟨component, usage, hread, rfl, husage, ?_⟩
  rcases ofEdits_of_preprocess_eq_ok hread husage h with ⟨hempty, rfl⟩ | ⟨_, hedits⟩
  · refine ⟨fun _ => rfl, fun map hmap => (by cases hmap), fun p _ range hrange => ?_⟩
    rw [selectorRanges_eq_nil hempty] at hrange
    cases hrange
  · refine ⟨fun hmap => ?_, fun map hmap => hedits.accounts hmap, fun p hp range hrange => ?_⟩
    · obtain ⟨_, _, _, _, hsome⟩ := hedits.rendered
      cases hmap.symm.trans hsome
    · obtain ⟨v, hv, rfl⟩ := exists_variants_of_mem_selectorRanges hrange
      exact ⟨v.2, hedits.emits (hlaid p hp) hp hv, fun s hs hglobal =>
        (hlaid p hp).exists_kept_of_isGlobal hv hs hglobal⟩

/-- The component keeps what is outside a call, a selector with two variants and a run. -/
theorem preprocess_verbatim_mixedScript :
    ∃ out component usage,
      preprocess ScriptReader.grammar Options.default "f" mixedScript = .ok out ∧
      Component.read ScriptReader.grammar mixedScript = .ok component ∧
      component.usage = .ok usage ∧
      component.editRanges usage = [⟨80, 97⟩, ⟨100, 104⟩, ⟨16, 27⟩] ∧
      out.Framed component usage (Options.default.styleSetting "f" mixedScript) := by
  obtain ⟨component, usage, out, hread, husage, hout, heval⟩ := eval_mixedScript
  obtain ⟨component', usage', hread', _, husage', hframed⟩ := preprocess_verbatim hout
  cases hread.symm.trans hread'
  cases husage.symm.trans husage'
  exact ⟨out, component, usage, hout, hread, husage, heval.2.2.2, hframed⟩

end Output

end CssRune
