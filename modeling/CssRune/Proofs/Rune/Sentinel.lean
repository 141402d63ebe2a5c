/-
**The sentinel class is all that the specific setting adds.**

Rune classes can be made more specific by a sentinel class.  It is put at the end of every wrapper
in the stylesheet and of every literal in place of a rune call, and nothing else changes: the same
ranges of the source are replaced, by the same variants, and classes have the same names.  To say
so, the output is taken apart into pieces, of which each is shown in two ways, without the sentinel
and with it.

A component is refused because of this setting only if a rune names one of the reserved classes.

Main definition:

* `Preprocessed.Marks` — **one output is the other with the sentinel put in**.

Main results:

* `EditBuffer.Alike.overwrite`, `applyPasses_corresponds` — both runs replace the same ranges, or
  fail alike;
* `Preprocessed.OfEdits.woven` — an output is woven from the edits;
* `preprocess_specific` — **the specific setting only adds the sentinel**.
-/

import CssRune.Proofs.Edit.Rendering
import CssRune.Proofs.Output
import CssRune.Proofs.Rune.Passes

set_option autoImplicit false

namespace CssRune

/-! ### Buffers that replace the same ranges -/

namespace EditBuffer

/-- Two buffers replace the same ranges of the same source, maybe by different texts. -/
structure Alike (b b' : EditBuffer) : Prop where
  source_eq : b.source = b'.source
  insertions_eq : b.insertions = b'.insertions
  spans_eq : b.overwrites.map Overwrite.span = b'.overwrites.map Overwrite.span

variable {b b' : EditBuffer}

theorem Alike.refl (b : EditBuffer) : b.Alike b := ⟨rfl, rfl, rfl⟩

theorem Alike.conflicts_eq (h : b.Alike b') (span : Span) :
    b.conflicts span = b'.conflicts span := by
  have hany : ∀ os : List Overwrite, (os.any fun o => o.span.intersects span) =
      (os.map Overwrite.span).any (·.intersects span) := by
    intro os
    rw [List.any_map]
    rfl
  rw [conflicts, conflicts, hany, hany, h.spans_eq, h.insertions_eq]

/-- A new overwrite goes to the same place. -/
theorem Alike.withOverwrite (h : b.Alike b') (span : Span) (text text' : String) :
    (b.withOverwrite ⟨span, text⟩).Alike (b'.withOverwrite ⟨span, text'⟩) := by
  refine ⟨h.source_eq, h.insertions_eq, ?_⟩
  have hplace : ∀ os : List Overwrite,
      (os.takeWhile (fun p => p.span.start < span.start)).map Overwrite.span =
          (os.map Overwrite.span).takeWhile (fun s => s.start < span.start) ∧
        (os.dropWhile (fun p => p.span.start < span.start)).map Overwrite.span =
          (os.map Overwrite.span).dropWhile fun s => s.start < span.start := by
    intro os
    rw [List.takeWhile_map, List.dropWhile_map]
    exact ⟨rfl, rfl⟩
  simp only [EditBuffer.withOverwrite, List.map_append, List.map_cons, (hplace _).1, (hplace _).2,
    h.spans_eq]

/-- **One overwrite of a range**: both buffers refuse it for the same reason, or both take it. -/
theorem Alike.overwrite (h : b.Alike b') (span : Span) (text text' : String) :
    Corresponds Alike (b.overwrite span text) (b'.overwrite span text') := by
  have hrange : b.checkRange span = b'.checkRange span := by
    rw [checkRange, checkRange, h.source_eq]
  unfold EditBuffer.overwrite
  rw [hrange, h.conflicts_eq span]
  by_cases hempty : span.isEmpty = true
  · rw [if_pos hempty, if_pos hempty]
    exact Corresponds.error (EditError.emptyRange span.start)
  · rw [if_neg hempty, if_neg hempty]
    refine (Corresponds.refl (fun _ => rfl) (b'.checkRange span)).bind fun _ _ _ => ?_
    by_cases hconflict : b'.conflicts span = true
    · rw [if_pos hconflict, if_pos hconflict]
      exact Corresponds.error (EditError.overlap span)
    · rw [if_neg hconflict, if_neg hconflict]
      exact .ok (h.withOverwrite span text text')

/-- A list of overwrites of the same ranges. -/
theorem Alike.overwriteAll (h : b.Alike b') {runs runs' : List Run}
    (hspans : runs.map Run.span = runs'.map Run.span) :
    Corresponds Alike (CssRune.overwriteAll b runs) (CssRune.overwriteAll b' runs') := by
  induction runs generalizing b b' runs' with
  | nil =>
    cases runs' with
    | nil => exact .ok h
    | cons r' runs' => cases hspans
  | cons r runs ih =>
    cases runs' with
    | nil => cases hspans
    | cons r' runs' =>
      obtain ⟨hspan, hspans⟩ := List.cons.inj hspans
      rw [CssRune.overwriteAll, CssRune.overwriteAll, hspan]
      exact (h.overwrite r'.span r.text r'.text).bind fun c c' hc => ih hc hspans

end EditBuffer

/-! ### Both settings -/

section Passes

variable {b b' : EditBuffer}

/-- One call is replaced in both buffers, or refused for the same reason. -/
theorem applyToCall_corresponds (h : b.Alike b') (runes : ClassSet) (names : ClassNames)
    (specific specific' : Bool) (call : RuneCall) :
    Corresponds EditBuffer.Alike (applyToCall runes names specific b call)
      (applyToCall runes names specific' b' call) := by
  unfold applyToCall
  cases call.classes with
  | error fault => exact .error _
  | ok classes =>
    have hliteral : Corresponds (fun _ _ => True)
        (ofRuneCheck (literal runes names specific classes))
        (ofRuneCheck (literal runes names specific' classes)) := by
      refine Corresponds.mapError (Corresponds.bind (Corresponds.refl (fun _ => rfl) _) ?_) _
      exact fun _ _ _ => .ok trivial
    exact hliteral.bind fun text text' _ => (h.overwrite call.span text text').mapError _

/-- A pass over calls. -/
theorem applyToAll_corresponds (h : b.Alike b') (runes : ClassSet) (names : ClassNames)
    (specific specific' : Bool) (calls : List RuneCall) :
    Corresponds EditBuffer.Alike (applyToAll runes names specific b calls)
      (applyToAll runes names specific' b' calls) := by
  induction calls generalizing b b' with
  | nil => exact .ok h
  | cons call calls ih =>
    rw [applyToAll, applyToAll]
    exact (applyToCall_corresponds h runes names specific specific' call).bind
      fun c c' hc => ih hc

/-- What is done to a component after the check of reserved classes. -/
def applyPasses (component : Component) (usage : Usage) (setting : StyleSetting) :
    Except ApplyError (EditBuffer × StyleState) := do
  let style ← applyToStyle component usage setting (EditBuffer.ofSource component.source)
  let buffer ← applyToCalls component usage.runes style.names setting.specific style.buffer
  return (buffer, style)

/-- **With the sentinel and without it the same ranges are replaced**, and a component is refused
for the same reasons. -/
theorem applyPasses_corresponds (component : Component) (usage : Usage) (setting : StyleSetting)
    (specific : Bool) :
    Corresponds (fun done done' => done.1.Alike done'.1)
      (applyPasses component usage setting)
      (applyPasses component usage { setting with specific := specific }) := by
  unfold applyPasses
  rw [applyToStyle_eq, applyToStyle_eq]
  have hstyle : Corresponds (fun t t' => t.buffer.Alike t'.buffer ∧ t.names = t'.names)
      (applyToSelectors usage setting component.source
        ⟨EditBuffer.ofSource component.source, ClassNames.empty, []⟩ component.selectors)
      (applyToSelectors usage { setting with specific := specific } component.source
        ⟨EditBuffer.ofSource component.source, ClassNames.empty, []⟩ component.selectors) := by
    refine applyToSelectors_corresponds rfl (fun c b b' hb => hb.overwriteAll ?_)
      (EditBuffer.Alike.refl _) rfl
    rw [map_span_selectorEdits, map_span_selectorEdits]
  refine hstyle.bind fun t t' ht => ?_
  rw [ht.2]
  refine (applyToAll_corresponds ht.1 usage.runes t'.names setting.specific specific
    component.runeCalls).bind fun b b' hb => .ok hb

theorem applyRunes_eq_applyPasses (options : Options) (filename : String) (component : Component)
    (usage : Usage) :
    applyRunes options filename component usage =
      (if options.specific then ofRuneCheck (refuseReserved usage.runes reservedClasses)
        else pure ()) >>= fun _ =>
      applyPasses component usage (options.styleSetting filename component.source) :=
  applyRunes_eq options filename component usage

end Passes

/-! ### Pieces of an output -/

/-- A piece of an output. -/
inductive OutputPiece where
  /-- Text of the source, or what separates two variants. -/
  | plain (text : List Char)
  /-- Hashed names under a wrapper. -/
  | wrapper (names : List String)
  /-- Hashed names in the literal that a rune call has become. -/
  | literal (names : List String)

namespace OutputPiece

/-- The text of a piece. -/
def text : OutputPiece → List Char
  | plain text => text
  | wrapper names => (CssRune.wrapper names "").toList
  | literal names => (quoted false names).toList

/-- The text of a piece with the sentinel in it: a class before the closing parenthesis of a
wrapper, and one more token in a literal. -/
def marked : OutputPiece → List Char
  | plain text => text
  | wrapper names =>
    (CssRune.wrapper names "").toList.dropLast ++ ("." ++ sentinelClass).toList ++ [')']
  | literal names => (quoted false (names ++ [sentinelClass])).toList

/-- The text of a piece with or without the sentinel. -/
def shown (specific : Bool) (p : OutputPiece) : List Char := if specific then p.marked else p.text

theorem shown_wrapper (setting : StyleSetting) (names : List String) :
    (wrapper names).shown setting.specific = (CssRune.wrapper names setting.suffix).toList := by
  have hparen : ")".toList = [')'] := rfl
  unfold shown StyleSetting.suffix
  split
  · rw [marked, CssRune.wrapper, CssRune.wrapper, String.append_empty, String.toList_append, hparen,
      List.dropLast_concat]
    simp only [String.toList_append, hparen]
  · rfl

theorem shown_literal (specific : Bool) (names : List String) :
    (literal names).shown specific = (quoted specific names).toList := by
  cases specific with
  | false => rfl
  | true =>
    show (quoted false (names ++ [sentinelClass])).toList = _
    rw [quoted, quoted]
    simp

end OutputPiece

/-- A piece of a variant as a piece of the output. -/
def Piece.output (source : List Char) (hash : String) : Piece → OutputPiece
  | kept span => .plain (Text.slice source span)
  | wrapped os => .wrapper (os.map fun o => hashedName hash o.name)

/-- Variants one after the other, with commas between them. -/
def variantPieces (source : List Char) (hash : String) (variants : List (List Piece)) :
    List OutputPiece :=
  [OutputPiece.plain ", ".toList].intercalate
    (variants.map fun ps => ps.map (Piece.output source hash))

/-- The edits of a component, in pieces: those of its complex selectors, then those of its calls. -/
def Component.outputEdits (component : Component) (usage : Usage) (setting : StyleSetting) :
    List (Span × List OutputPiece) :=
  (component.selectors.flatMap fun p => (selectorVariants usage setting p.2).map fun v =>
      (v.1, variantPieces component.source.toList setting.hash v.2)) ++
    component.runeCalls.map fun call =>
      (call.span, [.literal (call.listed.map (hashedName setting.hash))])

/-- The pieces of an output after the offset `start`: the source as it is, and edits in between. -/
def weave (source : List Char) : Nat → List (Span × List OutputPiece) → List OutputPiece
  | start, [] => [.plain (Text.slice source ⟨start, Text.byteLength source⟩)]
  | start, e :: es =>
    .plain (Text.slice source ⟨start, e.1.start⟩) :: (e.2 ++ weave source e.1.stop es)

/-- The order of edits in the source. -/
def startsBefore (e e' : Span × List OutputPiece) : Bool := e.1.start ≤ e'.1.start

/-- The edits that are made to a component, in source order: none if runes name no class. -/
def Component.madeEdits (component : Component) (usage : Usage) (setting : StyleSetting) :
    List (Span × List OutputPiece) :=
  if usage.runes.isEmpty then [] else sortBy startsBefore (component.outputEdits usage setting)

/-! ### Edits in pieces -/

section Pieces

variable {source : List Char} {setting : StyleSetting}

theorem Piece.shown_output (source : List Char) (setting : StyleSetting) (p : Piece) :
    (p.output source setting.hash).shown setting.specific = p.text source setting := by
  cases p with
  | kept span =>
    unfold Piece.output OutputPiece.shown
    split
    · rfl
    · rfl
  | wrapped os => exact OutputPiece.shown_wrapper setting _

theorem flatMap_intercalate {α β : Type} (f : α → List β) (sep : List α) (xs : List (List α)) :
    (sep.intercalate xs).flatMap f = (sep.flatMap f).intercalate (xs.map (·.flatMap f)) := by
  induction xs with
  | nil => rfl
  | cons x xs ih =>
    cases xs with
    | nil => rw [List.map_singleton, List.intercalate_singleton, List.intercalate_singleton]
    | cons y ys =>
      rw [List.intercalate_cons_cons, List.flatMap_append, List.flatMap_append, ih]
      exact List.intercalate_cons_cons.symm

/-- Variants are shown as they are written. -/
theorem flatMap_shown_variantPieces (source : List Char) (setting : StyleSetting)
    (variants : List (List Piece)) :
    (variantPieces source setting.hash variants).flatMap (OutputPiece.shown setting.specific) =
      (", ".intercalate (variants.map (piecesText source setting))).toList := by
  have hcomma : [OutputPiece.plain ", ".toList].flatMap (OutputPiece.shown setting.specific) =
      ", ".toList := by
    rw [List.flatMap_singleton]
    unfold OutputPiece.shown
    split
    · rfl
    · rfl
  rw [variantPieces, flatMap_intercalate, hcomma, String.toList_intercalate, List.map_map,
    List.map_map]
  congr 1
  refine List.map_congr_left fun ps _ => ?_
  show (ps.map _).flatMap _ = (piecesText source setting ps).toList
  rw [piecesText, String.toList_ofList, List.flatMap_map]
  congr 1
  funext p
  exact p.shown_output source setting

/-- **The edits of a component are its edits in pieces.** -/
theorem Component.edits_eq (component : Component) (usage : Usage) (setting : StyleSetting) :
    component.edits usage setting = (component.outputEdits usage setting).map fun e =>
      ⟨e.1, String.ofList (e.2.flatMap (OutputPiece.shown setting.specific))⟩ := by
  rw [Component.edits, Component.outputEdits, List.map_append, List.map_flatMap, List.map_map]
  congr 1
  · congr 1
    funext p
    rw [selectorEdits_eq, List.map_map, List.map_map]
    refine List.map_congr_left fun v _ => ?_
    show Overwrite.mk v.1 _ = Overwrite.mk v.1 _
    rw [flatMap_shown_variantPieces, String.ofList_toList]
  · refine List.map_congr_left fun call _ => ?_
    show Overwrite.mk call.span _ = Overwrite.mk call.span _
    rw [List.flatMap_singleton, OutputPiece.shown_literal, String.ofList_toList]

/-- What is woven is the source with the edits in place. -/
theorem flatMap_shown_weave (source : List Char) (specific : Bool) (start : Nat)
    (edits : List (Span × List OutputPiece)) :
    (weave source start edits).flatMap (OutputPiece.shown specific) =
      (EditBuffer.segmentsFrom source start (edits.map fun e =>
        ⟨e.1, String.ofList (e.2.flatMap (OutputPiece.shown specific))⟩) []).flatMap
          Segment.text := by
  have hplain : ∀ text, (OutputPiece.plain text).shown specific = text := by
    intro text
    cases specific with
    | false => rfl
    | true => rfl
  induction edits generalizing start with
  | nil =>
    rw [weave, List.flatMap_singleton, hplain]
    exact (EditBuffer.flatMap_text_copy source start _).symm
  | cons e edits ih =>
    rw [weave, List.flatMap_cons, List.flatMap_append, hplain, ih, List.map_cons,
      EditBuffer.segmentsFrom_cons, List.flatMap_append, EditBuffer.flatMap_text_copy,
      List.flatMap_cons, Segment.text, String.toList_ofList]

end Pieces

/-! ### Outputs -/

/-- The source ranges of a map. -/
def SourceMap.ranges (map : SourceMap) : List Span := map.mappings.map Mapping.origin

/-- One output is the other with the sentinel put in.  They are woven from the same edits, and the
maps back to the source have the same ranges. -/
structure Preprocessed.Marks (off on : Preprocessed) (source : List Char)
    (edits : List (Span × List OutputPiece)) : Prop where
  names_eq : on.names = off.names
  plain : off.code.toList = (weave source 0 edits).flatMap OutputPiece.text
  marked : on.code.toList = (weave source 0 edits).flatMap OutputPiece.marked
  ranges_eq : on.map.map SourceMap.ranges = off.map.map SourceMap.ranges

/-- A buffer that took the edits of a list holds them in source order. -/
theorem EditBuffer.Extends.overwrites_eq {source : String} {buffer : EditBuffer}
    {edits : List (Span × List OutputPiece)} {f : Span × List OutputPiece → Overwrite}
    (hf : ∀ e, (f e).span = e.1)
    (h : (EditBuffer.ofSource source).Extends buffer (edits.map f)) :
    buffer.overwrites = (sortBy startsBefore edits).map f := by
  have hsound : buffer.Sound := h.sound (EditBuffer.sound_ofSource source)
  have hperm : buffer.overwrites.Perm ((sortBy startsBefore edits).map f) := by
    have hall := h.overwrites
    rw [EditBuffer.ofSource, List.append_nil] at hall
    exact hall.trans ((sortBy_perm startsBefore edits).map f).symm
  have hbuffer : buffer.overwrites.Pairwise fun o p => o.span.start ≤ p.span.start := by
    refine (List.pairwise_map.1 hsound.row.apart).imp_of_mem ?_
    intro o p ho _ hstop
    have := (hsound.row.inside _ (List.mem_map_of_mem ho)).2.1
    omega
  have hsorted : ((sortBy startsBefore edits).map f).Pairwise
      fun o p => o.span.start ≤ p.span.start := by
    refine List.pairwise_map.2 ((sortBy_pairwise ?_ ?_ edits).imp ?_)
    · intro e e'
      simp only [startsBefore, decide_eq_true_eq]
      omega
    · intro e e' e''
      simp only [startsBefore, decide_eq_true_eq]
      omega
    · intro e e' hle
      rw [hf, hf]
      exact of_decide_eq_true hle
  refine hperm.eq_of_pairwise ?_ hbuffer hsorted
  intro o p ho hp hle hge
  exact hsound.eq_of_start_eq ho (hperm.mem_iff.2 hp) (Nat.le_antisymm hle hge)

/-- The source ranges of segments depend only on the ranges that are overwritten. -/
theorem EditBuffer.origins_segmentsFrom (source : List Char) (start : Nat) {os ps : List Overwrite}
    (h : os.map Overwrite.span = ps.map Overwrite.span) :
    (segmentsFrom source start os []).filterMap Segment.origin? =
      (segmentsFrom source start ps []).filterMap Segment.origin? := by
  induction os generalizing start ps with
  | nil =>
    cases ps with
    | nil => rfl
    | cons p ps => cases h
  | cons o os ih =>
    cases ps with
    | nil => cases h
    | cons p ps =>
      obtain ⟨hspan, h⟩ := List.cons.inj h
      rw [segmentsFrom_cons, segmentsFrom_cons, List.filterMap_append, List.filterMap_append,
        hspan]
      exact congrArg _ (congrArg (p.span :: ·) (ih p.span.stop h))

/-- **An output is woven from the edits of the component**, and its map has the ranges between and
under them. -/
theorem Preprocessed.OfEdits.woven {out : Preprocessed} {component : Component} {usage : Usage}
    {setting : StyleSetting} (h : out.OfEdits component usage setting) :
    out.code.toList = (weave component.source.toList 0 (sortBy startsBefore
        (component.outputEdits usage setting))).flatMap (OutputPiece.shown setting.specific) ∧
      out.map.map SourceMap.ranges =
        some ((EditBuffer.segmentsFrom component.source.toList 0
          ((sortBy startsBefore (component.outputEdits usage setting)).map fun e => ⟨e.1, ""⟩)
            []).filterMap Segment.origin?) := by
  obtain ⟨buffer, name, hextends, hcode, hmap⟩ := h.rendered
  rw [component.edits_eq] at hextends
  have hoverwrites := hextends.overwrites_eq fun _ => rfl
  have hsegments := EditBuffer.segments_eq (b := buffer) hextends.insertions_eq
  rw [hextends.source_eq, hoverwrites] at hsegments
  constructor
  · rw [hcode, EditBuffer.toList_render, hsegments, flatMap_shown_weave]
    rfl
  · rw [hmap, Option.map_some, SourceMap.ranges, EditBuffer.sourceMap,
      Mapping.map_origin_ofSegments, hsegments]
    refine congrArg some (EditBuffer.origins_segmentsFrom _ 0 ?_)
    rw [List.map_map, List.map_map]
    rfl

/-! ### Preprocessing -/

section Preprocessing

variable {scripts : ScriptReader} {filename source : String} {component : Component} {usage : Usage}

/-- Preprocessing succeeds if runes name no class, or if they can be applied. -/
theorem exists_preprocess_iff (hread : Component.read scripts source = .ok component)
    (husage : component.usage = .ok usage) (options : Options) :
    (∃ out, preprocess scripts options filename source = .ok out) ↔
      usage.runes.isEmpty = true ∨
        ∃ done, applyRunes options filename component usage = .ok done := by
  rw [preprocess_eq hread husage]
  split
  · rename_i hempty
    exact iff_of_true ⟨_, rfl⟩ (.inl hempty)
  · rename_i hrunes
    rw [or_iff_right hrunes]
    constructor
    · rintro ⟨out, hout⟩
      obtain ⟨done, hdone, _⟩ := map_eq_ok_iff.1 hout
      exact ⟨done, mapError_eq_ok_iff.1 hdone⟩
    · rintro ⟨done, hdone⟩
      rw [hdone]
      exact ⟨_, rfl⟩

/-- Runes are applied with the sentinel exactly if they are applied without it and name no reserved
class. -/
theorem exists_applyRunes_iff (hasher : Hasher) (level : WarningLevel) (filename : String)
    (component : Component) (usage : Usage) :
    (∃ done, applyRunes ⟨hasher, level, true⟩ filename component usage = .ok done) ↔
      (∃ done, applyRunes ⟨hasher, level, false⟩ filename component usage = .ok done) ∧
        ∀ name ∈ reservedClasses, usage.runes.contains name = false := by
  have hpasses := (applyPasses_corresponds component usage
    ((⟨hasher, level, false⟩ : Options).styleSetting filename component.source) true).exists_ok_iff
  rw [applyRunes_eq_applyPasses, applyRunes_eq_applyPasses, ← refuseReserved_eq_ok_iff]
  refine Iff.trans ?_ (and_congr_left' hpasses.symm)
  constructor
  · rintro ⟨done, hdone⟩
    obtain ⟨_, hcheck, hdone⟩ := bind_eq_ok_iff.1 hdone
    exact ⟨⟨done, hdone⟩, mapError_eq_ok_iff.1 hcheck⟩
  · rintro ⟨⟨done, hdone⟩, hcheck⟩
    exact ⟨done, bind_eq_ok_iff.2 ⟨(), mapError_eq_ok_iff.2 hcheck, hdone⟩⟩

/-- The outputs of both settings are woven from the same edits. -/
theorem marks_of_preprocess {hasher : Hasher} {level : WarningLevel} {off on : Preprocessed}
    (hread : Component.read scripts source = .ok component) (husage : component.usage = .ok usage)
    (hoff : preprocess scripts ⟨hasher, level, false⟩ filename source = .ok off)
    (hon : preprocess scripts ⟨hasher, level, true⟩ filename source = .ok on) :
    off.Marks on source.toList (component.madeEdits usage
      ((⟨hasher, level, false⟩ : Options).styleSetting filename source)) := by
  rw [Component.madeEdits]
  obtain rfl : component.source = source := (laid_read hread).1
  rcases ofEdits_of_preprocess_eq_ok hread husage hoff with ⟨hempty, rfl⟩ | ⟨hrunes, hoff⟩
  · rcases ofEdits_of_preprocess_eq_ok hread husage hon with ⟨_, rfl⟩ | ⟨hrunes, _⟩
    · have hall : Text.slice component.source.toList
          ⟨0, Text.byteLength component.source.toList⟩ = component.source.toList := by
        have hself := (Text.isAt_self component.source.toList).slice
        rwa [Nat.zero_add] at hself
      rw [if_pos hempty]
      refine ⟨rfl, ?_, ?_, rfl⟩
      · rw [weave, hall]
        exact (List.append_nil _).symm
      · rw [weave, hall]
        exact (List.append_nil _).symm
    · cases hempty.symm.trans hrunes
  · rcases ofEdits_of_preprocess_eq_ok hread husage hon with ⟨hempty, _⟩ | ⟨_, hon⟩
    · cases hempty.symm.trans hrunes
    · rw [if_neg (Bool.eq_false_iff.1 hrunes)]
      exact ⟨hon.names_eq.trans hoff.names_eq.symm, hoff.woven.1, hon.woven.1,
        hon.woven.2.trans hoff.woven.2.symm⟩

/-- **The specific setting only adds the sentinel.**  With it preprocessing succeeds exactly if it
succeeds without it and runes name no reserved class.  Then the two outputs have the same names and
are woven from the same edits, and one shows the sentinel in every wrapper and every literal. -/
theorem preprocess_specific (scripts : ScriptReader) (hasher : Hasher) (level : WarningLevel)
    (filename source : String) :
    ((∃ on, preprocess scripts ⟨hasher, level, true⟩ filename source = .ok on) ↔
      (∃ off, preprocess scripts ⟨hasher, level, false⟩ filename source = .ok off) ∧
        ∀ component usage, Component.read scripts source = .ok component →
          component.usage = .ok usage →
          ∀ name ∈ reservedClasses, usage.runes.contains name = false) ∧
      ∀ off on, preprocess scripts ⟨hasher, level, false⟩ filename source = .ok off →
        preprocess scripts ⟨hasher, level, true⟩ filename source = .ok on →
        ∃ component usage, Component.read scripts source = .ok component ∧
          component.usage = .ok usage ∧
          off.Marks on source.toList (component.madeEdits usage
            ((⟨hasher, level, false⟩ : Options).styleSetting filename source)) := by
  -- once a component has been read, the two runs succeed together
  have hboth : ∀ component usage, Component.read scripts source = .ok component →
      component.usage = .ok usage →
      ((∃ on, preprocess scripts ⟨hasher, level, true⟩ filename source = .ok on) ↔
        (∃ off, preprocess scripts ⟨hasher, level, false⟩ filename source = .ok off) ∧
          ∀ name ∈ reservedClasses, usage.runes.contains name = false) := by
    intro component usage hread husage
    rw [exists_preprocess_iff hread husage, exists_preprocess_iff hread husage,
      exists_applyRunes_iff, or_and_left]
    refine and_congr_right fun _ => or_iff_right_of_imp fun hempty name _ => ?_
    exact ClassSet.contains_of_isEmpty hempty name
  refine ⟨⟨?_, ?_⟩, ?_⟩
  · rintro ⟨on, hon⟩
    obtain ⟨component, usage, hread, husage⟩ := exists_read_of_preprocess_eq_ok hon
    obtain ⟨hoff, hreserved⟩ := (hboth component usage hread husage).1 ⟨on, hon⟩
    refine ⟨hoff, fun component' usage' hread' husage' => ?_⟩
    cases hread.symm.trans hread'
    cases husage.symm.trans husage'
    exact hreserved
  · rintro ⟨⟨off, hoff⟩, hreserved⟩
    obtain ⟨component, usage, hread, husage⟩ := exists_read_of_preprocess_eq_ok hoff
    exact (hboth component usage hread husage).2
      ⟨⟨off, hoff⟩, hreserved component usage hread husage⟩
  · intro off on hoff hon
    obtain ⟨component, usage, hread, husage⟩ := exists_read_of_preprocess_eq_ok hoff
    exact ⟨component, usage, hread, husage, marks_of_preprocess hread husage hoff hon⟩

/-- A component with a class that is used both ways, a run of classes and two calls. -/
def markedStyle : String :=
  "<p class=\x7b$css(\"a b\")\x7d>\x7b$css(\" \")\x7d</p><i class=\"a\"/>" ++
    "<style>.b.b p,.a p\x7b\x7d</style>"

/-- Both settings succeed on it, and the outputs differ by the sentinel in three wrappers and two
literals. -/
theorem preprocess_specific_markedStyle :
    ∃ off on component usage,
      preprocess ScriptReader.callsOnly ⟨.custom fun _ => "h", .use, false⟩ "f" markedStyle =
        .ok off ∧
      preprocess ScriptReader.callsOnly ⟨.custom fun _ => "h", .use, true⟩ "f" markedStyle =
        .ok on ∧
      Component.read ScriptReader.callsOnly markedStyle = .ok component ∧
      component.usage = .ok usage ∧
      (∀ name ∈ reservedClasses, usage.runes.contains name = false) ∧
      off.code = "<p class=\x7b\"a-h b-h\"\x7d>\x7b\"\"\x7d</p><i class=\"a\"/>" ++
        "<style>:global(.b-h.b-h) p,:global(.a-h) p, .a p\x7b\x7d</style>" ∧
      on.code = "<p class=\x7b\"a-h b-h __css_rune\"\x7d>\x7b\"__css_rune\"\x7d</p>" ++
        "<i class=\"a\"/><style>:global(.b-h.b-h.__css_rune) p," ++
        ":global(.a-h.__css_rune) p, .a p\x7b\x7d</style>" ∧
      off.Marks on markedStyle.toList (component.madeEdits usage
        ((⟨.custom fun _ => "h", .use, false⟩ : Options).styleSetting "f" markedStyle)) := by
  have hoff : (preprocess ScriptReader.callsOnly ⟨.custom fun _ => "h", .use, false⟩ "f"
      markedStyle).toOption.map (·.code) =
      some ("<p class=\x7b\"a-h b-h\"\x7d>\x7b\"\"\x7d</p><i class=\"a\"/>" ++
        "<style>:global(.b-h.b-h) p,:global(.a-h) p, .a p\x7b\x7d</style>") := by decide +kernel
  have hon : (preprocess ScriptReader.callsOnly ⟨.custom fun _ => "h", .use, true⟩ "f"
      markedStyle).toOption.map (·.code) =
      some ("<p class=\x7b\"a-h b-h __css_rune\"\x7d>\x7b\"__css_rune\"\x7d</p>" ++
        "<i class=\"a\"/><style>:global(.b-h.b-h.__css_rune) p," ++
        ":global(.a-h.__css_rune) p, .a p\x7b\x7d</style>") := by decide +kernel
  obtain ⟨off, hoff, hoffcode⟩ := Option.map_eq_some_iff.1 hoff
  obtain ⟨on, hon, honcode⟩ := Option.map_eq_some_iff.1 hon
  rw [toOption_eq_some_iff] at hoff hon
  obtain ⟨hiff, hmarks⟩ := preprocess_specific ScriptReader.callsOnly (.custom fun _ => "h") .use
    "f" markedStyle
  obtain ⟨component, usage, hread, husage, hmarks⟩ := hmarks off on hoff hon
  exact ⟨off, on, component, usage, hoff, hon, hread, husage,
    (hiff.1 ⟨on, hon⟩).2 component usage hread husage, hoffcode, honcode, hmarks⟩

end Preprocessing

end CssRune
