/-
**Rune calls become literals.**

A rune call is replaced by the hashed names of the classes it lists, in quotes and as they are.
There are two ways for it not to become a string literal.  If no rune names a class, because all
arguments are blank, the component is left as it is, with its calls.  And a class is written with
the escapes it has in the stylesheet, some of which are no escapes of a literal.

Main results:

* `isLiteral_quoted_iff` — classes in quotes are a literal if each of them is one;
* `preprocess_showsLiteral_iff` — **when rune calls become literals**;
* `exists_call_not_showsLiteral` — **some calls do not become literals**.
-/

import CssRune.Proofs.Hash.Base36
import CssRune.Proofs.Output
import CssRune.Proofs.Script.Literals
import Mathlib.Data.List.Nodup

set_option autoImplicit false

namespace CssRune

/-! ### Hashes are plain -/

section Digits

variable {P : Char → Prop}

/-- What digits have in common is true of the characters of a hash, unless a function of the
caller's makes it. -/
theorem Hasher.forall_mem_hash (hP : ∀ d < 36, P (Text.digit d)) {hasher : Hasher}
    (hcustom : ∀ run, hasher = custom run → ∀ text, ∀ c ∈ (run text).toList, P c)
    (text : String) : ∀ c ∈ (hasher.hash text).toList, P c := by
  cases hasher with
  | djb2 =>
    rw [Hasher.hash, Hash.djb2_eq, String.toList_ofList]
    exact Text.forall_mem_inBase hP (by decide) _
  | xxh3 sum =>
    rw [Hasher.hash, Hash.hexSum, Hash.hex, String.toList_ofList, Text.padded]
    refine List.forall_mem_append.2 ⟨?_, Text.forall_mem_inBase hP (by decide) _⟩
    intro c hc
    rw [List.eq_of_mem_replicate hc]
    exact hP 0 (by decide)
  | custom run => exact hcustom run rfl text

end Digits

/-- A function of the caller's is asked to hash to plain characters. -/
def Hasher.Plain : Hasher → Prop
  | djb2 => True
  | xxh3 _ => True
  | custom run => ∀ text, ∀ c ∈ (run text).toList, Script.IsPlain c

theorem Hasher.Plain.isPlain_hash {hasher : Hasher} (h : hasher.Plain) (text : String) :
    ∀ c ∈ (hasher.hash text).toList, Script.IsPlain c := by
  refine Hasher.forall_mem_hash (by decide) ?_ text
  rintro run rfl
  exact h

/-! ### Literals of classes -/

theorem closed_hashedName {hash : String} (hhash : ∀ c ∈ hash.toList, Script.IsPlain c)
    (name : String) : Script.Closed (hashedName hash name).toList := by
  rw [hashedName, String.toList_append, String.toList_append]
  exact (Script.closed_append_dash name.toList).append_isPlain hhash

theorem isPlain_sentinelClass : ∀ c ∈ sentinelClass.toList, Script.IsPlain c := by
  have hall : sentinelClass.toList.all (fun c => decide (Script.IsPlain c)) = true := by
    decide +kernel
  exact fun c hc => of_decide_eq_true (List.all_eq_true.1 hall c hc)

theorem eq_sentinelClass_of_mem {specific : Bool} :
    ∀ w ∈ (if specific then [sentinelClass] else []), w = sentinelClass := by
  cases specific <;> simp

/-- **The literal of a list of classes is one if each of them can be written between quotes.** -/
theorem isLiteral_quoted_iff {hash : String} (hhash : ∀ c ∈ hash.toList, Script.IsPlain c)
    (specific : Bool) (names : List String) :
    Script.IsLiteral (quoted specific (names.map (hashedName hash))) ↔
      ∀ name ∈ names, Script.IsLiteral ("\"" ++ hashedName hash name ++ "\"") := by
  rw [quoted, Script.isLiteral_quote_iff, String.toList_intercalate, List.map_append]
  have hclosed : ∀ w ∈ (names.map (hashedName hash)).map String.toList ++
      (if specific then [sentinelClass] else []).map String.toList, Script.Closed w := by
    simp only [List.forall_mem_append, List.forall_mem_map]
    refine ⟨fun name _ => closed_hashedName hhash name, fun w hw => ?_⟩
    rw [eq_sentinelClass_of_mem w hw]
    exact Script.closed_of_isPlain isPlain_sentinelClass
  rw [show " ".toList = [' '] from rfl, Script.closes_intercalate_iff hclosed]
  simp only [List.forall_mem_append, List.forall_mem_map, Script.isLiteral_quote_iff]
  refine and_iff_left fun w hw => ?_
  rw [eq_sentinelClass_of_mem w hw, Script.closes_append_of_isPlain isPlain_sentinelClass,
    Script.closes_quote_iff]

/-! ### What the output shows for a call -/

/-- The output shows a string literal in the place of a range of the source. -/
def Preprocessed.ShowsLiteral (out : Preprocessed) (range : Span) : Prop :=
  ∃ text, out.Replaces range text ∧ Script.IsLiteral text

section Replacement

variable {scripts : ScriptReader} {options : Options} {filename source : String}
  {component : Component} {usage : Usage} {out : Preprocessed} {setting : StyleSetting}

/-- The output shows one text in the place of a range. -/
theorem Preprocessed.OfEdits.eq_of_replaces (h : out.OfEdits component usage setting)
    {range : Span} {text text' : String} (htext : out.Replaces range text)
    (htext' : out.Replaces range text') : text = text' := by
  obtain ⟨map, hmap, m, hm, horigin, hslice⟩ := htext
  obtain ⟨map', hmap', m', hm', horigin', hslice'⟩ := htext'
  obtain rfl : map = map' := Option.some.inj (hmap.symm.trans hmap')
  have hnodup := (h.accounts hmap).origins.nodup
  obtain rfl : m = m' :=
    List.inj_on_of_nodup_map hnodup hm hm' (horigin.trans horigin'.symm)
  exact String.toList_injective (hslice.symm.trans hslice')

/-- **A rune call becomes a literal if the classes it lists can be written between quotes.** -/
theorem Preprocessed.OfEdits.showsLiteral_iff (h : out.OfEdits component usage setting)
    (hhash : ∀ c ∈ setting.hash.toList, Script.IsPlain c) {call : RuneCall}
    (hcall : call ∈ component.runeCalls) :
    out.ShowsLiteral call.span ↔ ∀ name ∈ call.listed,
      Script.IsLiteral ("\"" ++ hashedName setting.hash name ++ "\"") := by
  have hshows := h.replaces_call hcall
  rw [← isLiteral_quoted_iff hhash setting.specific]
  constructor
  · rintro ⟨text, htext, hliteral⟩
    exact h.eq_of_replaces htext hshows ▸ hliteral
  · intro hliteral
    exact ⟨_, hshows, hliteral⟩

theorem Preprocessed.not_showsLiteral (h : out.map = none) (range : Span) :
    ¬ out.ShowsLiteral range := by
  rintro ⟨text, ⟨map, hmap, _⟩, _⟩
  cases h.symm.trans hmap

/-- What preprocessing a component comes to, as far as its rune calls are concerned: the ranges of
the calls and the classes they list, and whether runes name no class. -/
def callsEval (source : String) : Option (List (Span × List String) × Bool) :=
  (Component.read ScriptReader.grammar source).toOption.bind fun component =>
    component.usage.toOption.bind fun usage =>
      (preprocess ScriptReader.grammar Options.default "App.svelte" source).toOption.map fun _ =>
        (component.runeCalls.map fun call => (call.span, call.listed), usage.runes.isEmpty)

/-- An evaluation tells what preprocessing does. -/
theorem exists_of_callsEval {calls : List (Span × List String)} {empty : Bool}
    (h : callsEval source = some (calls, empty)) :
    ∃ component usage out, Component.read ScriptReader.grammar source = .ok component ∧
      component.usage = .ok usage ∧
      preprocess ScriptReader.grammar Options.default "App.svelte" source = .ok out ∧
      (component.runeCalls.map fun call => (call.span, call.listed)) = calls ∧
      usage.runes.isEmpty = empty := by
  obtain ⟨component, hread, h⟩ := Option.bind_eq_some_iff.1 h
  obtain ⟨usage, husage, h⟩ := Option.bind_eq_some_iff.1 h
  obtain ⟨out, hout, h⟩ := Option.map_eq_some_iff.1 h
  simp only [Prod.mk.injEq] at h
  rw [toOption_eq_some_iff] at hread husage hout
  exact ⟨component, usage, out, hread, husage, hout, h⟩

/-! ### Calls and literals -/

/-- **When rune calls become literals.**  Whenever preprocessing succeeds, a rune call is replaced
by a string literal exactly if some rune names a class and every class the call lists can be written
between quotes with its hash.  If no rune names a class, all calls stay as they are. -/
theorem preprocess_showsLiteral_iff (hplain : options.hasher.Plain)
    (h : preprocess scripts options filename source = .ok out) :
    ∃ component usage, Component.read scripts source = .ok component ∧
      component.usage = .ok usage ∧
      (∀ call ∈ component.runeCalls, out.ShowsLiteral call.span ↔
        usage.runes.isEmpty = false ∧ ∀ name ∈ call.listed, Script.IsLiteral
          ("\"" ++ hashedName (options.hasher.hash (filename ++ source)) name ++ "\"")) ∧
      (usage.runes.isEmpty = true → out.code = source) := by
  obtain ⟨component, usage, hread, husage⟩ := exists_read_of_preprocess_eq_ok h
  refine ⟨component, usage, hread, husage, ?_⟩
  rcases ofEdits_of_preprocess_eq_ok hread husage h with ⟨hempty, rfl⟩ | ⟨hrunes, hedits⟩
  · refine ⟨fun call _ => ?_, fun _ => rfl⟩
    rw [hempty]
    simp [Preprocessed.not_showsLiteral]
  · refine ⟨fun call hcall => ?_, fun hempty => ?_⟩
    · have hhash := hplain.isPlain_hash (filename ++ source)
      rw [hedits.showsLiteral_iff hhash hcall]
      exact (and_iff_right hrunes).symm
    · cases hrunes.symm.trans hempty

/-- A component with a call that lists no class and another one that lists two. -/
def blankAndClasses : String :=
  "<p class=\x7b$css('')\x7d/><i class=\x7b$css('a b')\x7d/><style>.a .b\x7b\x7d</style>"

/-- Both calls of it become literals. -/
theorem preprocess_showsLiteral_iff_blankAndClasses :
    ∃ component out, Component.read ScriptReader.grammar blankAndClasses = .ok component ∧
      preprocess ScriptReader.grammar Options.default "App.svelte" blankAndClasses = .ok out ∧
      (component.runeCalls.map fun call => (call.span, call.listed)) =
        [(⟨10, 18⟩, []), (⟨31, 42⟩, ["a", "b"])] ∧
      ∀ call ∈ component.runeCalls, out.ShowsLiteral call.span := by
  have heval : callsEval blankAndClasses =
      some ([(⟨10, 18⟩, []), (⟨31, 42⟩, ["a", "b"])], false) := by decide +kernel
  obtain ⟨component, usage, out, hread, husage, hout, hcalls, hrunes⟩ := exists_of_callsEval heval
  obtain ⟨component', usage', hread', husage', hshows, _⟩ :=
    preprocess_showsLiteral_iff (show Options.default.hasher.Plain from trivial) hout
  cases hread.symm.trans hread'
  cases husage.symm.trans husage'
  refine ⟨component, out, hread, hout, hcalls, fun call hcall => ?_⟩
  have hlisted : call.listed ∈ [[], ["a", "b"]] := by
    have := List.mem_map_of_mem (f := fun call => (call.span, call.listed)) hcall
    rw [hcalls] at this
    exact List.mem_map_of_mem (f := Prod.snd) this
  refine (hshows call hcall).2 ⟨hrunes, fun name hname => ?_⟩
  have hclose : ∀ name ∈ ["a", "b"], Script.Closes ((hashedName (Options.default.hasher.hash
      ("App.svelte" ++ blankAndClasses)) name).toList ++ ['"']) := by decide +kernel
  refine Script.isLiteral_quote_iff.2 (hclose name ?_)
  simp only [List.mem_cons, List.not_mem_nil, or_false] at hlisted
  rcases hlisted with hlisted | hlisted
  · rw [hlisted] at hname
    cases hname
  · exact hlisted ▸ hname

/-- A component whose only call lists no class. -/
def blankCall : String := "<p class=\x7b$css('')\x7d></p>"

/-- A component with a class whose name has an escape that literals do not have. -/
def escapedCall : String :=
  "<p class=\x7b$css('a\\\\xg')\x7d></p><style>.a\\xg\x7b\x7d</style>"

/-- **Some calls do not become literals.**  A call that lists no class survives if there is no other
one, and a class is written into a literal with its escapes, which may not be escapes there. -/
theorem exists_call_not_showsLiteral :
    (∃ component out call, Component.read ScriptReader.grammar blankCall = .ok component ∧
      preprocess ScriptReader.grammar Options.default "App.svelte" blankCall = .ok out ∧
      call ∈ component.runeCalls ∧ call.listed = [] ∧ out.code = blankCall ∧
      ¬ out.ShowsLiteral call.span) ∧
    ∃ component out call, Component.read ScriptReader.grammar escapedCall = .ok component ∧
      preprocess ScriptReader.grammar Options.default "App.svelte" escapedCall = .ok out ∧
      call ∈ component.runeCalls ∧ call.listed = ["a\\xg"] ∧ ¬ out.ShowsLiteral call.span := by
  constructor
  · have heval : callsEval blankCall = some ([(⟨10, 18⟩, [])], true) := by decide +kernel
    obtain ⟨component, usage, out, hread, husage, hout, hcalls, hrunes⟩ :=
      exists_of_callsEval heval
    obtain ⟨call, hcall, hspan⟩ := List.mem_map.1 (hcalls ▸ List.mem_singleton_self _)
    rcases ofEdits_of_preprocess_eq_ok hread husage hout with ⟨_, rfl⟩ | ⟨hsome, _⟩
    · exact ⟨component, _, call, hread, hout, hcall, congrArg Prod.snd hspan, rfl,
        Preprocessed.not_showsLiteral rfl _⟩
    · cases hrunes.symm.trans hsome
  · have heval : callsEval escapedCall = some ([(⟨10, 23⟩, ["a\\xg"])], false) := by decide +kernel
    obtain ⟨component, usage, out, hread, husage, hout, hcalls, hrunes⟩ :=
      exists_of_callsEval heval
    obtain ⟨call, hcall, hspan⟩ := List.mem_map.1 (hcalls ▸ List.mem_singleton_self _)
    have hlisted : call.listed = ["a\\xg"] := congrArg Prod.snd hspan
    rcases ofEdits_of_preprocess_eq_ok hread husage hout with ⟨hnone, _⟩ | ⟨_, hedits⟩
    · cases hrunes.symm.trans hnone
    · refine ⟨component, out, call, hread, hout, hcall, hlisted, fun hshows => ?_⟩
      have hplain : Options.default.hasher.Plain := trivial
      have hliteral := (hedits.showsLiteral_iff (hplain.isPlain_hash _) hcall).1 hshows "a\\xg"
        (by simp [hlisted])
      revert hliteral
      rw [Script.isLiteral_quote_iff]
      decide +kernel

end Replacement

end CssRune
