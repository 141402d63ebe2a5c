/-
**What rewritten rune calls denote.**

A rune call lists classes, and its literal is meant to list their hashed names.  The names go into
the literal as they stand in the stylesheet.  A name without a backslash is an identifier of plain
characters, and a literal of such names denotes them.  A backslash is part of a name in the
stylesheet, but starts an escape in the literal, which then is no literal or denotes other words.

Main definition:

* `Preprocessed.Denotes` — **the output shows a call as a literal of hashed names**.

Main results:

* `denotes_quoted_iff` — classes in quotes denote themselves if they have no backslash;
* `preprocess_denotes_iff` — **when rewritten calls denote the hashed names**;
* `exists_call_not_denotes` — **some rewritten calls denote other names**.
-/

import CssRune.Hash.Xxh3
import CssRune.Proofs.Rune.Names
import CssRune.Proofs.Rune.Replacement
import CssRune.Proofs.Script.Decoding

set_option autoImplicit false

namespace CssRune

open Text

/-! ### Names in literals -/

/-- A function of the caller's is asked to hash to plain characters that are not blank. -/
def Hasher.Solid : Hasher → Prop
  | djb2 => True
  | xxh3 _ => True
  | custom run => ∀ text, ∀ c ∈ (run text).toList, Script.IsPlain c ∧ Text.isBlank c = false

theorem Hasher.Solid.solid_hash {hasher : Hasher} (h : hasher.Solid) (text : String) :
    ∀ c ∈ (hasher.hash text).toList, Script.IsPlain c ∧ isBlank c = false := by
  refine Hasher.forall_mem_hash (by decide) ?_ text
  rintro run rfl
  exact h

theorem isPlain_of_isIdentChar {c : Char} (h : isIdentChar c = true) : Script.IsPlain c := by
  refine ⟨?_, ?_, ?_, ?_⟩
  all_goals
    rintro rfl
    revert h
    decide

section Names

variable {hash name : String}

theorem forall_mem_hashedName {P : Char → Prop} (hdash : P '-') (hname : ∀ c ∈ name.toList, P c)
    (hhash : ∀ c ∈ hash.toList, P c) : ∀ c ∈ (hashedName hash name).toList, P c := by
  rw [hashedName, String.toList_append, String.toList_append]
  simp only [List.forall_mem_append]
  exact ⟨⟨hname, List.forall_mem_singleton.2 hdash⟩, hhash⟩

theorem mem_hashedName {c : Char} (h : c ∈ name.toList) : c ∈ (hashedName hash name).toList := by
  rw [hashedName, String.toList_append, String.toList_append]
  exact List.mem_append_left _ (List.mem_append_left _ h)

theorem isWord_hashedName (hname : IsWord name)
    (hhash : ∀ c ∈ hash.toList, isBlank c = false) : IsWord (hashedName hash name) := by
  refine ⟨?_, forall_mem_hashedName (by decide) hname.2 hhash⟩
  obtain ⟨c, hc⟩ := List.exists_mem_of_ne_nil _ hname.1
  exact List.ne_nil_of_mem (mem_hashedName hc)

theorem isWord_sentinelClass : IsWord sentinelClass := by
  have hall : sentinelClass.toList.all (!isBlank ·) = true := by decide
  refine ⟨by decide, fun c hc => ?_⟩
  simpa using List.all_eq_true.1 hall c hc

end Names

/-! ### Literals of names -/

/-- What is true of the characters of words, and of the blank between them. -/
theorem forall_mem_intercalate {P : Char → Prop} (hblank : P ' ') {ws : List String}
    (h : ∀ w ∈ ws, ∀ c ∈ w.toList, P c) : ∀ c ∈ (" ".intercalate ws).toList, P c := by
  rw [String.toList_intercalate]
  induction ws with
  | nil => nofun
  | cons w ws ih =>
    obtain ⟨hw, hws⟩ := List.forall_mem_cons.1 h
    cases ws with
    | nil => simpa using hw
    | cons v ws =>
      rw [List.map_cons, List.map_cons, List.intercalate_cons_cons, List.forall_mem_append,
        List.forall_mem_append]
      exact ⟨⟨hw, List.forall_mem_singleton.2 hblank⟩, ih hws⟩

/-- **Classes in quotes denote themselves if they have no backslash**, and only then. -/
theorem denotes_quoted_iff {classes : List String} (specific : Bool)
    (hwords : ∀ w ∈ classes, IsWord w)
    (hplain : ∀ w ∈ classes, '\\' ∉ w.toList → ∀ c ∈ w.toList, Script.IsPlain c) :
    (∃ value, Script.Denotes (quoted specific classes) value ∧
      words value.toList = classes ++ if specific then [sentinelClass] else []) ↔
      ∀ w ∈ classes, '\\' ∉ w.toList := by
  have hsentinel := @eq_sentinelClass_of_mem specific
  rw [quoted]
  generalize (if specific then [sentinelClass] else []) = extra at hsentinel ⊢
  have hjoined : words (" ".intercalate (classes ++ extra)).toList = classes ++ extra := by
    refine words_intercalate (List.forall_mem_append.2 ⟨hwords, fun w hw => ?_⟩)
    rw [hsentinel w hw]
    exact isWord_sentinelClass
  constructor
  · rintro ⟨value, hdenotes, hvalue⟩ w hw hslash
    -- the backslash is written in the literal, which then has other words
    have hmem : '\\' ∈ (words (" ".intercalate (classes ++ extra)).toList).flatMap
        String.toList := by
      rw [hjoined]
      exact List.mem_flatMap.2 ⟨w, List.mem_append_left _ hw, hslash⟩
    rw [flatMap_words] at hmem
    exact Script.words_ne_of_denotes hdenotes (List.mem_of_mem_filter hmem)
      (hvalue.trans hjoined.symm)
  · intro hslash
    refine ⟨_, Script.denotes_of_isPlain (forall_mem_intercalate (by decide) ?_), hjoined⟩
    refine List.forall_mem_append.2 ⟨fun w hw => hplain w hw (hslash w hw), fun w hw => ?_⟩
    rw [hsentinel w hw]
    exact isPlain_sentinelClass

/-! ### What the output denotes for a call -/

/-- The output shows, in the place of a rune call, a string literal whose words are the hashed names
of the words of its argument, in order, and the sentinel class if there is to be one. -/
def Preprocessed.Denotes (out : Preprocessed) (specific : Bool) (call : RuneCall) : Prop :=
  ∃ text value argument classes, out.Replaces call.span text ∧ Script.Denotes text value ∧
    call.classes = .ok argument ∧
    (Text.words argument.toList).mapM out.names.get? = some classes ∧
    Text.words value.toList = classes ++ if specific then [sentinelClass] else []

/-- The hashed names that are found for classes are made from them. -/
theorem ClassNames.Hashes.mapM_get? {hash : String} {names : ClassNames} (h : names.Hashes hash)
    {classes : List String} (hknown : ∀ name ∈ classes, name ∈ names.keys) :
    classes.mapM names.get? = some (classes.map (hashedName hash)) := by
  induction classes with
  | nil => rfl
  | cons name classes ih =>
    obtain ⟨hname, hknown⟩ := List.forall_mem_cons.1 hknown
    obtain ⟨hashed, hget⟩ := ClassNames.mem_keys_iff.1 hname
    rw [List.mapM_cons, ih hknown, hget, h.eq_of_get? hget]
    rfl

section Denotation

variable {scripts : ScriptReader} {options : Options} {filename source : String}
  {component : Component} {usage : Usage} {out : Preprocessed} {setting : StyleSetting}

theorem RuneCall.isWord_of_mem_listed {call : RuneCall} :
    ∀ name ∈ call.listed, IsWord name := by
  intro name hname
  unfold RuneCall.listed at hname
  split at hname
  · exact isWord_of_mem_words hname
  · cases hname

theorem Preprocessed.OfEdits.hashes (h : out.OfEdits component usage setting) :
    out.names.Hashes setting.hash := by
  rw [h.names_eq]
  exact hashes_addNames (hashes_empty _) _

/-- A class with a hashed name is plain if it has no backslash. -/
theorem Preprocessed.OfEdits.isPlain_of_mem_keys (h : out.OfEdits component usage setting)
    (hread : Component.read scripts source = .ok component) {name : String}
    (hname : name ∈ out.names.keys) (hslash : '\\' ∉ name.toList) :
    ∀ c ∈ name.toList, Script.IsPlain c := by
  obtain ⟨o, ho, rfl⟩ := h.mem_keys_iff.1 hname
  intro c hc
  have hident := isIdentChar_of_afterIdent (afterIdent_of_mem_runesIn hread ho) hslash
  exact isPlain_of_isIdentChar (hident c hc)

/-- **A rewritten call denotes the hashed names if no class it lists has a backslash.** -/
theorem Preprocessed.OfEdits.denotes_iff (h : out.OfEdits component usage setting)
    (hread : Component.read scripts source = .ok component)
    (hhash : ∀ c ∈ setting.hash.toList, Script.IsPlain c ∧ isBlank c = false)
    {call : RuneCall} (hcall : call ∈ component.runeCalls) :
    out.Denotes setting.specific call ↔ ∀ name ∈ call.listed, '\\' ∉ name.toList := by
  obtain ⟨⟨argument, hargument⟩, hknown⟩ := h.known call hcall
  have hshows := h.replaces_call hcall
  have hlisted : call.listed = words argument.toList := by
    rw [RuneCall.listed, hargument]
  -- a hash brings no backslash into a name
  have hslash (name : String) :
      '\\' ∉ (hashedName setting.hash name).toList ↔ '\\' ∉ name.toList := by
    refine ⟨fun hnot hmem => hnot (mem_hashedName hmem), fun hnot hmem => ?_⟩
    exact forall_mem_hashedName (P := (· ≠ '\\')) (by decide) (fun c hc heq => hnot (heq ▸ hc))
      (fun c hc => (hhash c hc).1.1) _ hmem rfl
  have hquoted := @denotes_quoted_iff (call.listed.map (hashedName setting.hash)) setting.specific
    (List.forall_mem_map.2 fun name hname =>
      isWord_hashedName (RuneCall.isWord_of_mem_listed name hname) fun c hc => (hhash c hc).2)
    (List.forall_mem_map.2 fun name hname hnot =>
      forall_mem_hashedName (by decide)
        (h.isPlain_of_mem_keys hread (hknown name hname) ((hslash name).1 hnot))
        fun c hc => (hhash c hc).1)
  simp only [List.forall_mem_map, hslash] at hquoted
  rw [← hquoted]
  have hfound := h.hashes.mapM_get? hknown
  constructor
  · rintro ⟨text, value, argument', classes, htext, hvalue, hargument', hclasses, hwords⟩
    cases hargument.symm.trans hargument'
    rw [← hlisted, hfound] at hclasses
    cases hclasses
    exact ⟨value, h.eq_of_replaces htext hshows ▸ hvalue, hwords⟩
  · rintro ⟨value, hvalue, hwords⟩
    exact ⟨_, value, argument, _, hshows, hvalue, hargument, hlisted ▸ hfound, hwords⟩

/-- **When rewritten calls denote the hashed names.**  Whenever preprocessing succeeds, all rune
calls are rewritten if some rune names a class, and none of them otherwise.  A rewritten call is a
literal whose words are the hashed names of the classes it lists exactly if none of these has a
backslash in its name. -/
theorem preprocess_denotes_iff (hsolid : options.hasher.Solid)
    (h : preprocess scripts options filename source = .ok out) :
    ∃ component usage, Component.read scripts source = .ok component ∧
      component.usage = .ok usage ∧ ∀ call ∈ component.runeCalls,
        ((∃ text, out.Replaces call.span text) ↔ usage.runes.isEmpty = false) ∧
        (out.Denotes options.specific call ↔
          usage.runes.isEmpty = false ∧ ∀ name ∈ call.listed, '\\' ∉ name.toList) := by
  obtain ⟨component, usage, hread, husage⟩ := exists_read_of_preprocess_eq_ok h
  refine ⟨component, usage, hread, husage, fun call hcall => ?_⟩
  rcases ofEdits_of_preprocess_eq_ok hread husage h with ⟨hempty, rfl⟩ | ⟨hrunes, hedits⟩
  · have hnone (text : String) :
        ¬ Preprocessed.Replaces ⟨source, none, ClassNames.empty, []⟩ call.span text := by
      rintro ⟨map, hmap, _⟩
      cases hmap
    rw [hempty]
    refine ⟨⟨fun ⟨text, htext⟩ => absurd htext (hnone text), nofun⟩, ⟨?_, nofun⟩⟩
    rintro ⟨text, _, _, _, htext, _⟩
    exact absurd htext (hnone text)
  · refine ⟨⟨fun _ => hrunes, fun _ => ⟨_, hedits.replaces_call hcall⟩⟩, ?_⟩
    have hhash := hsolid.solid_hash (filename ++ source)
    exact (hedits.denotes_iff hread hhash hcall).trans (and_iff_right hrunes).symm

/-- Options that ask for the other hash and for more specific classes. -/
def specificOptions : Options := ⟨.xxh3 Hash.Xxh3.hash, .use, true⟩

/-- A component with a call that lists no class and another one that lists two, against the order of
the stylesheet. -/
def reversedClasses : String :=
  "<p class=\x7b$css('')\x7d/><i class=\x7b$css(' b  a')\x7d/><style>.a .b\x7b\x7d</style>"

/-- Both of its calls denote the hashed names, with the sentinel class behind them. -/
theorem preprocess_denotes_iff_reversedClasses :
    ∃ component out, Component.read ScriptReader.grammar reversedClasses = .ok component ∧
      specificOptions.hasher.Solid ∧
      preprocess ScriptReader.grammar specificOptions "App.svelte" reversedClasses = .ok out ∧
      component.runeCalls.map RuneCall.listed = [[], ["b", "a"]] ∧
      ∀ call ∈ component.runeCalls, out.Denotes true call := by
  have heval : ((Component.read ScriptReader.grammar reversedClasses).toOption.bind fun component =>
      component.usage.toOption.bind fun usage =>
        (preprocess ScriptReader.grammar specificOptions "App.svelte"
          reversedClasses).toOption.map fun _ =>
          (component.runeCalls.map RuneCall.listed, usage.runes.isEmpty)) =
      some ([[], ["b", "a"]], false) := by decide +kernel
  obtain ⟨component, hread, heval⟩ := Option.bind_eq_some_iff.1 heval
  obtain ⟨usage, husage, heval⟩ := Option.bind_eq_some_iff.1 heval
  obtain ⟨out, hout, heval⟩ := Option.map_eq_some_iff.1 heval
  obtain ⟨hlisted, hrunes⟩ := Prod.mk.inj heval
  rw [toOption_eq_some_iff] at hread husage hout
  have hsolid : specificOptions.hasher.Solid := trivial
  obtain ⟨component', usage', hread', husage', hcalls⟩ := preprocess_denotes_iff hsolid hout
  cases hread.symm.trans hread'
  cases husage.symm.trans husage'
  refine ⟨component, out, hread, hsolid, hout, hlisted, fun call hcall => ?_⟩
  have hplain : ∀ classes ∈ [[], ["b", "a"]], ∀ name ∈ classes, '\\' ∉ name.toList := by decide
  exact (hcalls call hcall).2.2
    ⟨hrunes, hplain call.listed (hlisted ▸ List.mem_map_of_mem hcall)⟩

/-- A component with a class whose name has an escape that a literal has as well. -/
def lineFeedClass : String :=
  "<p class=\x7b$css('a\\\\nb')\x7d></p><style>.a\\nb\x7b\x7d</style>"

/-- **Some rewritten calls denote other names.**  In a name of a stylesheet `\n` is part of one
word, and in the literal it is a line feed between two words. -/
theorem exists_call_not_denotes :
    ∃ component out call, Component.read ScriptReader.grammar lineFeedClass = .ok component ∧
      preprocess ScriptReader.grammar Options.default "App.svelte" lineFeedClass = .ok out ∧
      call ∈ component.runeCalls ∧ call.listed = ["a\\nb"] ∧
      call.listed.mapM out.names.get? = some ["a\\nb-1mt8hrw"] ∧
      out.Replaces call.span "\"a\\nb-1mt8hrw\"" ∧
      Script.Denotes "\"a\\nb-1mt8hrw\"" "a\nb-1mt8hrw" ∧
      Text.words "a\nb-1mt8hrw".toList = ["a", "b-1mt8hrw"] ∧
      ¬ out.Denotes Options.default.specific call := by
  have heval : callsEval lineFeedClass = some ([(⟨10, 23⟩, ["a\\nb"])], false) := by decide +kernel
  obtain ⟨component, usage, out, hread, husage, hout, hcalls, hrunes⟩ := exists_of_callsEval heval
  obtain ⟨call, hcall, hspan⟩ := List.mem_map.1 (hcalls ▸ List.mem_singleton_self _)
  have hlisted : call.listed = ["a\\nb"] := congrArg Prod.snd hspan
  have hhashed : ["a\\nb"].map (hashedName (Options.default.hasher.hash
      ("App.svelte" ++ lineFeedClass))) = ["a\\nb-1mt8hrw"] := by decide +kernel
  have hquoted : quoted false ["a\\nb-1mt8hrw"] = "\"a\\nb-1mt8hrw\"" := by decide +kernel
  rcases ofEdits_of_preprocess_eq_ok hread husage hout with ⟨hnone, _⟩ | ⟨_, hedits⟩
  · cases hrunes.symm.trans hnone
  have hnames := hedits.hashes.mapM_get? (hedits.known call hcall).2
  have hshows := hedits.replaces_call hcall
  simp only [Options.styleSetting, hlisted, hhashed] at hnames hshows
  refine ⟨component, out, call, hread, hout, hcall, hlisted, hlisted ▸ hnames, hquoted ▸ hshows,
    ?_, by decide +kernel, fun hdenotes => ?_⟩
  · unfold Script.Denotes
    decide +kernel
  · have hsolid : Options.default.hasher.Solid := trivial
    have hslash := (hedits.denotes_iff hread (hsolid.solid_hash _) hcall).1 hdenotes "a\\nb"
      (by simp [hlisted])
    exact absurd hslash (by decide)

end Denotation

end CssRune
