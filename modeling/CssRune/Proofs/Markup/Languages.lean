/-
**The language of markup and the languages of scripts.**

The expressions in markup are read in a language that is looked for in the text of the source: a
place where `<script` stands and, before the next angle bracket, one of four spellings of a `lang`
attribute.  The language of a script is that of the `lang` attribute that was read in its tag.  The
two do not see the same: an attribute can be spelled in more ways than four, and the text can stand
where there is no tag of a script.  This module says what decides either language, and from that
when they agree.

Main results:

* `detectLang_eq_typeScript_iff` — markup has types if and only if the text announces them;
* `ScriptBlock.Opened.lang_eq_typeScript_iff` — a script has types if and only if its tag names
  them;
* `ScriptBlock.Opened.announces_iff` — the `lang` attribute of a script is an announcement if and
  only if it is plain;
* `Component.markup_agrees_iff` — **when the language of the markup is that of the scripts**.
-/

import CssRune.Proofs.Markup.Spellings
import CssRune.Proofs.Tiling

set_option autoImplicit false

namespace CssRune

open Text

/-! ### Pieces of text -/

namespace Text

variable {xs ys : List Char}

theorem append_inj_of_byteLength {xs' ys' : List Char} (h : xs ++ ys = xs' ++ ys')
    (hlength : byteLength xs = byteLength xs') : xs = xs' ∧ ys = ys' := by
  have hys : ys = ys' := by
    rw [← dropBytes_byteLength_append xs ys, h, hlength, dropBytes_byteLength_append]
  rw [hys] at h
  exact ⟨List.append_cancel_right h, hys⟩

/-- Two pieces of text, one after the other. -/
theorem IsAt.append {source : List Char} {pos : Nat} (h : IsAt source pos xs)
    (h' : IsAt source (pos + byteLength xs) ys) : IsAt source pos (xs ++ ys) := by
  obtain ⟨front, back, rfl, rfl⟩ := h
  obtain ⟨front', back', hsource, hpos⟩ := h'
  rw [← List.append_assoc] at hsource
  obtain ⟨rfl, rfl⟩ := append_inj_of_byteLength hsource (by rw [hpos, byteLength_append])
  exact ⟨front, back', by simp only [List.append_assoc], rfl⟩

theorem occurs_iff {piece cs : List Char} : occurs piece cs = true ↔ piece <:+: cs := by
  rw [occurs, Option.isSome_iff_exists]
  constructor
  · rintro ⟨r, hr⟩
    exact (find_isPrefix hr).isInfix.trans (find_suffix hr).isInfix
  · intro h
    induction cs with
    | nil =>
      rw [List.infix_nil.1 h]
      exact ⟨[], rfl⟩
    | cons c cs ih =>
      rw [find]
      split
      · exact ⟨_, rfl⟩
      · rename_i hpiece
        rcases List.infix_cons_iff.1 h with h | h
        · exact absurd (List.isPrefixOf_iff_prefix.2 h) hpiece
        · exact ih h

end Text

/-! ### Announcements -/

/-- The source announces types: `<script` stands at `tag` and one of the marks at `mark`, with no
angle bracket between the two, but with one that comes later. -/
def Announces (source : List Char) (tag mark : Nat) : Prop :=
  ∃ between spelled more, spelled ∈ typeScriptMarks.map String.toList ∧ '>' ∉ between ∧
    Text.IsAt source tag ("<script".toList ++ between ++ spelled ++ more ++ ['>']) ∧
    mark = tag + Text.byteLength ("<script".toList ++ between)

variable {spelled : List Char}

/-- The marks: the name `lang`, an equals sign, and one of two words in quotes of either kind. -/
theorem mem_typeScriptMarks_iff :
    spelled ∈ typeScriptMarks.map String.toList ↔
      ∃ q word, (q = '"' ∨ q = '\'') ∧ (word = "ts".toList ∨ word = "typescript".toList) ∧
        spelled = "lang".toList ++ '=' :: q :: (word ++ [q]) := by
  constructor
  · intro h
    obtain ⟨mark, hmark, rfl⟩ := List.mem_map.1 h
    simp only [typeScriptMarks, List.mem_cons, List.not_mem_nil, or_false] at hmark
    rcases hmark with rfl | rfl | rfl | rfl
    · exact ⟨'"', _, .inl rfl, .inl rfl, rfl⟩
    · exact ⟨'\'', _, .inr rfl, .inl rfl, rfl⟩
    · exact ⟨'"', _, .inl rfl, .inr rfl, rfl⟩
    · exact ⟨'\'', _, .inr rfl, .inr rfl, rfl⟩
  · rintro ⟨q, word, rfl | rfl, rfl | rfl, rfl⟩
    all_goals decide

theorem not_mem_of_mem_typeScriptMarks (h : spelled ∈ typeScriptMarks.map String.toList) :
    '>' ∉ spelled := by
  obtain ⟨q, word, rfl | rfl, rfl | rfl, rfl⟩ := mem_typeScriptMarks_iff.1 h
  all_goals decide

/-- A prefix that lacks a character ends before that character. -/
theorem prefix_of_not_mem {α : Type} {xs ys zs : List α} {a : α} (h : xs <+: ys ++ a :: zs)
    (ha : a ∉ xs) : xs <+: ys := by
  rcases List.prefix_or_prefix_of_prefix h (List.prefix_append ys (a :: zs)) with h' | ⟨rest, rfl⟩
  · exact h'
  · cases rest with
    | nil => exact ⟨[], by simp⟩
    | cons b rest =>
      rw [List.prefix_append_right_inj] at h
      obtain ⟨_, h⟩ := h
      obtain rfl : b = a := (List.cons.inj h).1
      exact absurd (List.mem_append_right _ List.mem_cons_self) ha

theorem opensTypeScript_iff (cs : List Char) :
    opensTypeScript cs = true ↔ ∃ between spelled more,
      spelled ∈ typeScriptMarks.map String.toList ∧ '>' ∉ between ∧
        "<script".toList ++ between ++ spelled ++ more ++ ['>'] <+: cs := by
  rw [opensTypeScript, Bool.and_eq_true, Bool.and_eq_true, List.isPrefixOf_iff_prefix,
    List.contains_iff_mem, List.any_eq_true]
  constructor
  · rintro ⟨⟨hopens, hangle⟩, mark, hmark, hoccurs⟩
    obtain ⟨front, back, htag⟩ := occurs_iff.1 hoccurs
    have hspelled := List.mem_map_of_mem (f := String.toList) hmark
    have hno : ∀ c ∈ front ++ mark.toList ++ back, c ≠ '>' := by
      rw [htag]
      exact fun c hc => by simpa using List.mem_takeWhile_imp hc
    have hcs : cs = front ++ (mark.toList ++ (back ++ cs.dropWhile (· ≠ '>'))) := by
      rw [← List.append_assoc, ← List.append_assoc, htag, List.takeWhile_append_dropWhile]
    -- the mark starts with a letter that the name of the tag does not have
    obtain ⟨q, word, _, _, hword⟩ := mem_typeScriptMarks_iff.1 hspelled
    obtain ⟨between, rfl⟩ : "<script".toList <+: front := by
      rw [hcs, hword] at hopens
      exact prefix_of_not_mem hopens (by decide)
    obtain ⟨more, after, hafter⟩ : ∃ more after, back ++ cs.dropWhile (· ≠ '>') =
        more ++ '>' :: after := by
      refine List.append_of_mem ?_
      rw [hcs] at hangle
      rcases List.mem_append.1 hangle with hmem | hmem
      · exact absurd rfl (hno _ (List.mem_append_left _ (List.mem_append_left _ hmem)))
      · rcases List.mem_append.1 hmem with hmem | hmem
        · exact absurd hmem (not_mem_of_mem_typeScriptMarks hspelled)
        · exact hmem
    refine ⟨between, mark.toList, more, hspelled, ?_, after, ?_⟩
    · intro hmem
      exact hno '>' (by simp [hmem]) rfl
    · rw [hafter] at hcs
      rw [hcs]
      simp only [List.append_assoc, List.cons_append, List.nil_append]
  · rintro ⟨between, spelled, more, hspelled, hbetween, after, rfl⟩
    obtain ⟨mark, hmark, rfl⟩ := List.mem_map.1 hspelled
    refine ⟨⟨by simp only [List.append_assoc]; exact List.prefix_append _ _, by simp⟩, mark, hmark,
      occurs_iff.2 ?_⟩
    have hall : ∀ c ∈ "<script".toList ++ between ++ mark.toList, decide (c ≠ '>') = true := by
      intro c hc
      rw [decide_eq_true_iff]
      rintro rfl
      rcases List.mem_append.1 hc with hc | hc
      · rcases List.mem_append.1 hc with hc | hc
        · revert hc
          decide
        · exact hbetween hc
      · exact not_mem_of_mem_typeScriptMarks hspelled hc
    refine ⟨"<script".toList ++ between, (more ++ ['>'] ++ after).takeWhile (· ≠ '>'), ?_⟩
    rw [List.append_assoc _ more, List.append_assoc _ (more ++ ['>']),
      List.takeWhile_append_of_pos hall]

theorem announcesTypeScript_iff (cs : List Char) :
    announcesTypeScript cs = true ↔
      ∃ front tail, cs = front ++ tail ∧ opensTypeScript tail = true := by
  induction cs with
  | nil =>
    constructor
    · intro h
      cases h
    · rintro ⟨front, tail, h, hopens⟩
      rw [(List.append_eq_nil_iff.1 h.symm).2] at hopens
      exact absurd hopens (by decide)
  | cons c cs ih =>
    rw [announcesTypeScript, Bool.or_eq_true, ih]
    constructor
    · rintro (h | ⟨front, tail, rfl, h⟩)
      · exact ⟨[], _, rfl, h⟩
      · exact ⟨c :: front, tail, rfl, h⟩
    · rintro ⟨front, tail, h, hopens⟩
      cases front with
      | nil => exact .inl (by rwa [h])
      | cons d front => exact .inr ⟨front, tail, (List.cons.inj h).2, hopens⟩

/-- **Markup has types if and only if the text announces them.** -/
theorem detectLang_eq_typeScript_iff (cs : List Char) :
    detectLang cs = .typeScript ↔ ∃ tag mark, Announces cs tag mark := by
  have hannounces : detectLang cs = .typeScript ↔ announcesTypeScript cs = true := by
    rw [detectLang]
    split
    · rename_i h
      exact iff_of_true rfl h
    · rename_i h
      exact iff_of_false (by decide) h
  rw [hannounces, announcesTypeScript_iff]
  constructor
  · rintro ⟨front, tail, rfl, hopens⟩
    obtain ⟨between, spelled, more, hspelled, hbetween, after, rfl⟩ :=
      (opensTypeScript_iff tail).1 hopens
    exact ⟨_, _, between, spelled, more, hspelled, hbetween, ⟨front, after, rfl, rfl⟩, rfl⟩
  · rintro ⟨_, _, between, spelled, more, hspelled, hbetween, ⟨front, after, rfl, _⟩, _⟩
    exact ⟨front, _, rfl, (opensTypeScript_iff _).2
      ⟨between, spelled, more, hspelled, hbetween, after, rfl⟩⟩

/-! ### Tags of scripts -/

/-- The tag of a script is the one that is read where its element starts. -/
def ScriptBlock.HasTag (setting : ScriptSetting) (source : List Char) (s : ScriptBlock)
    (tag : OpeningTag) : Prop :=
  ∃ front cs, source = front ++ '<' :: cs ∧ Text.byteLength front = s.span.start ∧
    ∃ step, readOpeningTag setting ⟨s.span.start, '<' :: cs⟩ cs rfl = .ok step ∧ step.value = tag

/-- A script was opened by a tag: it has the name `script` and does not close itself, and the
language it names is that of the script. -/
structure ScriptBlock.Opened (setting : ScriptSetting) (source : List Char) (s : ScriptBlock)
    (tag : OpeningTag) : Prop where
  hasTag : s.HasTag setting source tag
  name : tag.name = "script"
  notClosed : tag.selfClosing = false
  lang : langOf tag.attributes = s.lang

section Tags

variable {setting : ScriptSetting} {source : List Char} {s : ScriptBlock} {tag tag' : OpeningTag}

/-- A script has one tag. -/
theorem ScriptBlock.HasTag.unique (h : s.HasTag setting source tag)
    (h' : s.HasTag setting source tag') : tag = tag' := by
  obtain ⟨front, cs, hsource, hfront, step, hstep, rfl⟩ := h
  obtain ⟨front', cs', hsource', hfront', step', hstep', rfl⟩ := h'
  obtain ⟨_, hcs⟩ := append_inj_of_byteLength (hsource.symm.trans hsource')
    (hfront.trans hfront'.symm)
  obtain rfl : cs = cs' := (List.cons.inj hcs).2
  rw [Except.ok.inj (hstep.symm.trans hstep')]

variable {regions regions' : Regions} {a : Attribute} {spelling : Spelling} {word : String}

/-- What a region adds to the scripts is the script of its tag. -/
theorem scripts_addRegion {reader : ScriptReader} {raw : RawContent} {span : Span}
    (h : addRegion reader source regions tag raw span = .ok regions') :
    ∀ s ∈ regions'.scripts, s ∈ regions.scripts ∨
      tag.name ≠ "style" ∧ s.span = span ∧ s.lang = langOf tag.attributes := by
  unfold addRegion at h
  split at h
  · split at h
    · cases h
    · obtain ⟨sheet, _, h⟩ := bind_eq_ok_iff.1 h
      cases h
      exact fun s hs => .inl hs
  · rename_i hname
    obtain ⟨block, hblock, h⟩ := bind_eq_ok_iff.1 h
    intro s hs
    rcases List.mem_cons.1 ((Regions.scripts_addScript h).1.mem_iff.2 hs) with rfl | hs
    · unfold readScriptBlock at hblock
      split at hblock
      · cases hblock
        exact .inr ⟨hname, rfl, rfl⟩
      · cases hblock
    · exact .inl hs

/-- The loop at the top level finds scripts that were opened by tags. -/
theorem opened_of_readTop {c : Cursor} {nodes : List MarkupNode} (hc : Cursor.Leads ⟨0, source⟩ c)
    (hregions : ∀ s ∈ regions.scripts, ∃ tag, s.Opened setting source tag)
    (h : readTop setting source regions c = .ok (nodes, regions')) :
    ∀ s ∈ regions'.scripts, ∃ tag, s.Opened setting source tag := by
  replace h := topRun_of_readTop h
  induction h with
  | done => exact hregions
  | leaf hleaf _ ih =>
    exact ih (hc.trans (laid_readLeaf (hc.within (Cursor.within_start source)) hleaf).1) hregions
  | @region _ _ c cs hcs tag _ _ _ htag hspecial hraw hadd _ ih =>
    have hopening := laid_readOpeningTag (hc.within (Cursor.within_start source)) htag
    obtain ⟨close, hcontent, hclose, _⟩ := readRaw_leads hraw
    refine ih (((hc.trans hopening.1).trans hcontent).trans hclose) fun s hs => ?_
    rcases scripts_addRegion hadd s hs with hs | ⟨hname, hspan, hlang⟩
    · exact hregions s hs
    · simp only [OpeningTag.isSpecial, Bool.and_eq_true, Bool.or_eq_true, beq_iff_eq, hname,
        or_false, Bool.not_eq_true'] at hspecial
      obtain ⟨piece, hpiece, hpos⟩ := hc
      have hstart : s.span.start = c.pos := by rw [hspan, hopening.2.1]
      refine ⟨tag.value, ⟨piece, cs, hcs ▸ hpiece, ?_, ?_⟩, hspecial.2, hspecial.1, hlang.symm⟩
      · rw [hstart, hpos, Nat.zero_add]
      · obtain ⟨pos, rest⟩ := c
        obtain rfl : rest = '<' :: cs := hcs
        rw [hstart]
        exact ⟨tag, htag, rfl⟩
  | element _ htag _ hbody _ ih =>
    exact ih (hc.trans (leads_readElement (hc.within (Cursor.within_start source)) htag hbody).1)
      hregions

/-! ### Language attributes -/

theorem mem_of_attribute? {attributes : List AttributeNode} {name : String}
    (h : attribute? attributes name = some a) : .plain a ∈ attributes ∧ a.name = name := by
  obtain ⟨node, hnode, h⟩ := List.exists_of_findSome?_eq_some h
  cases node with
  | plain b =>
    simp only [Option.ite_none_right_eq_some, Option.some.injEq] at h
    obtain ⟨hname, rfl⟩ := h
    exact ⟨hnode, hname⟩
  | spread b => cases h
  | directive b => cases h

/-- A tag names types if and only if the text of its `lang` attribute does. -/
theorem langOf_eq_typeScript_iff (attributes : List AttributeNode) :
    langOf attributes = .typeScript ↔ ∃ a t, attribute? attributes "lang" = some a ∧
      a.value.staticText? = some t ∧ (t.data = "ts" ∨ t.data = "typescript") := by
  unfold langOf staticValue?
  cases ha : attribute? attributes "lang" with
  | none => simp
  | some a =>
    cases ht : a.value.staticText? with
    | none => simp [ht]
    | some t =>
      simp only [Option.bind_some, ht, Option.map_some]
      split
      · rename_i hword
        exact iff_of_true rfl ⟨a, t, rfl, ht, hword⟩
      · rename_i hword
        refine iff_of_false (by decide) ?_
        rintro ⟨_, _, ⟨⟩, ht', hword'⟩
        obtain rfl := Option.some.inj (ht.symm.trans ht')
        exact hword hword'

/-- A script names types by the `lang` attribute of its tag, which starts at `offset` and is spelled
in this way. -/
def ScriptBlock.NamesTypes (setting : ScriptSetting) (source : List Char) (s : ScriptBlock)
    (offset : Nat) (spelling : Spelling) : Prop :=
  ∃ tag a t, s.HasTag setting source tag ∧ attribute? tag.attributes "lang" = some a ∧
    a.value.staticText? = some t ∧ (t.data = "ts" ∨ t.data = "typescript") ∧
    Text.IsAt source offset (spelling.text "lang".toList t.data.toList) ∧
    a.span = ⟨offset, offset + Text.byteLength (spelling.text "lang".toList t.data.toList)⟩

/-- **A script has types if and only if its tag names them.** -/
theorem ScriptBlock.Opened.lang_eq_typeScript_iff (h : s.Opened setting source tag) :
    s.lang = .typeScript ↔ ∃ offset spelling, s.NamesTypes setting source offset spelling := by
  rw [← h.lang, langOf_eq_typeScript_iff]
  constructor
  · rintro ⟨a, t, ha, ht, hword⟩
    obtain ⟨front, cs, hsource, hfront, step, hstep, rfl⟩ := h.hasTag
    have hwithin : Cursor.Within source ⟨s.span.start, '<' :: cs⟩ := ⟨front, [], by simpa, hfront⟩
    obtain ⟨hmem, hname⟩ := mem_of_attribute? ha
    obtain ⟨spelling, hat, hstop⟩ := spelled_readOpeningTag hwithin hstep a hmem t ht
    rw [hname] at hat hstop
    exact ⟨_, spelling, _, a, t, h.hasTag, ha, ht, hword, hat, by rw [← hstop]⟩
  · rintro ⟨offset, spelling, tag', a, t, htag, ha, ht, hword, _⟩
    rw [h.hasTag.unique htag]
    exact ⟨a, t, ha, ht, hword⟩

/-- The spelling is one of the four marks: nothing stands around the equals sign, and the value is
in quotes. -/
structure Spelling.Plain (spelling : Spelling) : Prop where
  before : spelling.before = []
  after : spelling.after = []
  quote : spelling.quote.isSome = true

theorem Spelling.Plain.mem_typeScriptMarks (h : spelling.Plain)
    (hword : word = "ts" ∨ word = "typescript") :
    spelling.text "lang".toList word.toList ∈ typeScriptMarks.map String.toList := by
  obtain ⟨q, hq⟩ := Option.isSome_iff_exists.1 h.quote
  refine mem_typeScriptMarks_iff.2 ⟨q, word.toList, spelling.isQuote q hq, ?_, ?_⟩
  · rcases hword with rfl | rfl
    · exact .inl rfl
    · exact .inr rfl
  · simp only [Spelling.text, Spelling.quoted, h.before, h.after, hq, Option.toList_some,
      List.append_nil, List.nil_append, List.cons_append]

/-- An attribute that starts with a mark is plain. -/
theorem Spelling.plain_of_prefix {spelled back : List Char}
    (hword : word = "ts" ∨ word = "typescript")
    (hspelled : spelled ∈ typeScriptMarks.map String.toList)
    (h : spelled <+: spelling.text "lang".toList word.toList ++ back) : spelling.Plain := by
  obtain ⟨q, word', hq, _, rfl⟩ := mem_typeScriptMarks_iff.1 hspelled
  have hspace : isSpace q = false := by rcases hq with rfl | rfl <;> decide
  rw [Spelling.text, List.append_assoc, List.append_assoc, List.prefix_append_right_inj] at h
  have hbefore : spelling.before = [] := by
    cases hb : spelling.before with
    | nil => rfl
    | cons b bs =>
      rw [hb] at h
      obtain ⟨_, h⟩ := h
      have hsign : isSpace '=' = true :=
        (List.cons.inj h).1 ▸ spelling.isSpace_before b (hb ▸ List.mem_cons_self)
      exact absurd hsign (by decide)
  rw [hbefore, List.nil_append, List.cons_append, List.cons_prefix_cons] at h
  have hafter : spelling.after = [] := by
    cases ha : spelling.after with
    | nil => rfl
    | cons a as =>
      rw [ha] at h
      obtain ⟨_, _, h⟩ := h
      have hsign : isSpace q = true :=
        (List.cons.inj h).1 ▸ spelling.isSpace_after a (ha ▸ List.mem_cons_self)
      rw [hspace] at hsign
      cases hsign
  refine ⟨hbefore, hafter, ?_⟩
  cases hquote : spelling.quote with
  | some q' => rfl
  | none =>
    -- a bare word starts with a letter
    obtain ⟨_, _, h⟩ := h
    rw [hafter, Spelling.quoted, hquote] at h
    rcases hword with rfl | rfl
    all_goals
      have hletter : q = 't' := (List.cons.inj h).1
      rw [hletter] at hq
      revert hq
      decide

/-- The attributes of a tag come before its end. -/
theorem TagFilled.exists_end {selfClosing : Bool} {lo hi : Nat} {ss : List Span}
    (h : TagFilled source selfClosing hi lo ss) :
    ∃ last, IsAt source last (tagEnd selfClosing) ∧ lo ≤ last ∧
      ∀ s ∈ ss, lo ≤ s.start ∧ s.stop ≤ last := by
  induction ss generalizing lo with
  | nil =>
    obtain ⟨last, ⟨blanks, _, _, hlast⟩, hend, _⟩ := h
    exact ⟨last, hend, by omega, by simp⟩
  | cons s ss ih =>
    obtain ⟨⟨blanks, _, _, hstart⟩, hlt, hrest⟩ := h
    obtain ⟨last, hend, hle, hall⟩ := ih hrest
    refine ⟨last, hend, by omega, List.forall_mem_cons.2 ⟨by omega, fun t ht => ?_⟩⟩
    have := hall t ht
    omega

/-- The `lang` attribute of a script stands in its tag: after the name and before the end. -/
theorem ScriptBlock.Opened.isAt_lang (h : s.Opened setting source tag)
    (ha : attribute? tag.attributes "lang" = some a) :
    ∃ last, IsAt source s.span.start "<script".toList ∧ IsAt source last ['>'] ∧
      s.span.start + byteLength "<script".toList ≤ a.span.start ∧ a.span.stop ≤ last := by
  obtain ⟨front, cs, hsource, hfront, step, hstep, rfl⟩ := h.hasTag
  have hwithin : Cursor.Within source ⟨s.span.start, '<' :: cs⟩ := ⟨front, [], by simpa, hfront⟩
  obtain ⟨_, hname, hfilled⟩ := tagFilled_readOpeningTag hwithin hstep
  rw [h.name] at hname hfilled
  rw [h.notClosed] at hfilled
  obtain ⟨last, hend, _, hall⟩ := hfilled.exists_end
  have hmem := hall _ (List.mem_map_of_mem (mem_of_attribute? ha).1)
  exact ⟨last, hname, hend, hmem.1, hmem.2⟩

/-- **The `lang` attribute of a script is an announcement if and only if it is plain** and no angle
bracket comes before it in the tag. -/
theorem ScriptBlock.Opened.announces_iff {offset : Nat} (h : s.Opened setting source tag)
    (hnames : s.NamesTypes setting source offset spelling) :
    Announces source s.span.start offset ↔
      spelling.Plain ∧ '>' ∉ slice source ⟨s.span.start, offset⟩ := by
  obtain ⟨tag', a, t, htag, ha, _, hword, hat, hspan⟩ := hnames
  obtain rfl := h.hasTag.unique htag
  constructor
  · rintro ⟨between, spelled, more, hspelled, hbetween, hmark, rfl⟩
    rw [List.append_assoc, List.append_assoc] at hmark
    refine ⟨?_, ?_⟩
    · obtain ⟨front, back, rfl, hfront⟩ := hat
      obtain ⟨front', back', hsource, hfront'⟩ := hmark.right
      obtain ⟨_, hrest⟩ := append_inj_of_byteLength hsource (hfront.trans hfront'.symm)
      have hstarts : spelled <+: spelling.text "lang".toList t.data.toList ++ back :=
        ⟨more ++ ['>'] ++ back', by rw [hrest, List.append_assoc spelled]⟩
      exact Spelling.plain_of_prefix hword hspelled hstarts
    · rw [hmark.left.slice]
      intro hmem
      rcases List.mem_append.1 hmem with hmem | hmem
      · revert hmem
        decide
      · exact hbetween hmem
  · rintro ⟨hplain, hangle⟩
    obtain ⟨last, hopen, hend, hstart, hstop⟩ := h.isAt_lang ha
    rw [hspan] at hstart hstop
    obtain ⟨between, hbetween, hoffset⟩ := Span.cuts_of_isAt hopen.nil_right hat hstart
    obtain ⟨more, hmore, hlast⟩ := Span.cuts_of_isAt hat.nil_right hend hstop
    have hopened := hopen.append hbetween
    have hoffset' : offset = s.span.start + byteLength ("<script".toList ++ between) := by
      rw [byteLength_append, ← Nat.add_assoc]
      exact hoffset
    rw [hoffset', hopened.slice] at hangle
    refine ⟨between, _, more, hplain.mem_typeScriptMarks hword,
      fun hmem => hangle (List.mem_append_right _ hmem), ?_, hoffset'⟩
    simp only at hlast
    rw [hlast] at hend
    have hrest := hat.append (hmore.append hend)
    rw [hoffset'] at hrest
    have hall := hopened.append hrest
    simpa only [List.append_assoc] using hall

end Tags

/-! ### Components -/

/-- A script names types in one of the four ways that are looked for, and no angle bracket comes
before the attribute in the tag. -/
def ScriptBlock.NamesTypesPlainly (setting : ScriptSetting) (source : List Char) (s : ScriptBlock) :
    Prop :=
  ∃ offset spelling, s.NamesTypes setting source offset spelling ∧ spelling.Plain ∧
    '>' ∉ Text.slice source ⟨s.span.start, offset⟩

/-- Types are announced in a place that is not the `lang` attribute of a script in its tag. -/
def Component.StrayMark (setting : ScriptSetting) (source : List Char) (component : Component) :
    Prop :=
  ∃ tag mark, Announces source tag mark ∧ ¬∃ s ∈ component.scripts, s.span.start = tag ∧
    ∃ spelling, s.NamesTypes setting source mark spelling

/-- The expressions in the markup of a component are read in a language: each is what the reader
gives in that language for a text that stands where the expression starts. -/
def Component.ReadsMarkupAs (scripts : ScriptReader) (lang : ScriptLang) (component : Component) :
    Prop :=
  ∀ inClass e, .expression inClass e ∈ partsOfNodes component.fragment →
    ∃ text, Text.IsAt component.source.toList e.offset text ∧
      scripts.expression lang text = some e.node

section Expressions

variable {setting : ScriptSetting} {source : List Char}

variable {inClass : Bool} {e : Expression}

/-- The expressions of an attribute are read from text in it. -/
theorem AttributeNode.Laid.readWithin {a : AttributeNode} (h : a.Laid setting source)
    (he : .expression inClass e ∈ a.parts) : ∃ lo hi, e.ReadWithin setting source lo hi := by
  have hholds := h.holds
  cases a with
  | plain a =>
    obtain ⟨name, value, span⟩ := a
    cases value with
    | absent => cases he
    | expression tag =>
      cases List.mem_singleton.1 he
      exact ⟨_, _, hholds.1.expression⟩
    | chunks cs =>
      obtain ⟨chunk, hchunk, he⟩ := List.mem_flatMap.1 he
      have hlaid := hholds.2 chunk hchunk
      cases chunk with
      | text t =>
        rw [ValueChunk.parts] at he
        split at he
        · cases List.mem_singleton.1 he
        · cases he
      | expression tag =>
        cases List.mem_singleton.1 he
        exact ⟨_, _, ExpressionTag.Laid.expression hlaid⟩
  | spread s =>
    cases List.mem_singleton.1 he
    exact ⟨_, _, hholds⟩
  | directive d =>
    rcases List.mem_append.1 he with he | he
    · split at he
      · cases List.mem_singleton.1 he
      · cases he
    · obtain ⟨tag, htag, he⟩ := List.mem_map.1 he
      cases he
      exact ⟨_, _, (hholds tag (Option.mem_toList.1 htag)).1.expression⟩

/-- The expressions of a node are read from text in it. -/
theorem MarkupNode.Laid.readWithin {n : MarkupNode} (h : n.Laid setting source)
    (he : .expression inClass e ∈ n.parts) : ∃ lo hi, e.ReadWithin setting source lo hi := by
  induction h with
  | element _ hattributes _ ih =>
    rw [MarkupNode.parts, partsOfNodes_eq] at he
    rcases List.mem_append.1 he with he | he
    · obtain ⟨a, ha, he⟩ := List.mem_flatMap.1 he
      exact (hattributes a ha).readWithin he
    · obtain ⟨child, hchild, he⟩ := List.mem_flatMap.1 he
      exact ih child hchild he
  | text => cases he
  | comment => cases he
  | expression here =>
    cases List.mem_singleton.1 he
    exact ⟨_, _, here.expression⟩
  | block _ _ here =>
    obtain ⟨_, hexpression, he⟩ := List.mem_map.1 he
    cases he
    exact ⟨_, _, here e (Option.mem_toList.1 hexpression)⟩

end Expressions

section Components

variable {scripts : ScriptReader} {source : String} {component : Component}

/-- The markup of a component is read in the language that its text announces. -/
theorem Component.readsMarkupAs_of_read (h : Component.read scripts source = .ok component) :
    component.ReadsMarkupAs scripts (detectLang source.toList) := by
  obtain ⟨hsource, items, _, hlaid, hfragment, _, _⟩ := laid_read h
  intro inClass e he
  rw [partsOfNodes_eq, hfragment] at he
  obtain ⟨n, hn, he⟩ := List.mem_flatMap.1 he
  obtain ⟨i, hi, hin⟩ := List.mem_filterMap.1 hn
  have hnode : n.Laid (settingOf scripts source) source.toList := by
    have hitem := hlaid i hi
    rwa [TopItem.eq_node hin] at hitem
  obtain ⟨_, _, text, hat, _, _, hread⟩ := hnode.readWithin he
  exact ⟨text, hsource ▸ hat, hread⟩

theorem Component.opened_of_read (h : Component.read scripts source = .ok component) :
    ∀ s ∈ component.scripts, ∃ tag, s.Opened (settingOf scripts source) source.toList tag := by
  obtain ⟨⟨nodes, regions⟩, hread, h⟩ := bind_eq_ok_iff.1 h
  cases h
  exact opened_of_readTop (Cursor.Leads.refl _) (by simp [Regions.scripts, Regions.empty]) hread

/-- Markup has types if and only if a script names them plainly or there is a stray mark. -/
theorem Component.detectLang_iff (h : Component.read scripts source = .ok component) :
    detectLang source.toList = .typeScript ↔
      (∃ s ∈ component.scripts,
        s.NamesTypesPlainly (settingOf scripts source) source.toList) ∨
      component.StrayMark (settingOf scripts source) source.toList := by
  rw [detectLang_eq_typeScript_iff]
  constructor
  · rintro ⟨tag, mark, hmark⟩
    by_cases howner : ∃ s ∈ component.scripts, s.span.start = tag ∧
        ∃ spelling, s.NamesTypes (settingOf scripts source) source.toList mark spelling
    · obtain ⟨s, hs, rfl, spelling, hnames⟩ := howner
      obtain ⟨_, hopened⟩ := Component.opened_of_read h s hs
      have hplain := (hopened.announces_iff hnames).1 hmark
      exact .inl ⟨s, hs, mark, spelling, hnames, hplain⟩
    · exact .inr ⟨tag, mark, hmark, howner⟩
  · rintro (⟨s, hs, offset, spelling, hnames, hplain⟩ | ⟨tag, mark, hmark, _⟩)
    · obtain ⟨_, hopened⟩ := Component.opened_of_read h s hs
      exact ⟨_, offset, (hopened.announces_iff hnames).2 hplain⟩
    · exact ⟨tag, mark, hmark⟩

/-- **When the language of the markup is that of the scripts.**  The expressions in the markup are
read in the language that the text announces, and a script has types exactly if its tag names them.
The two agree if and only if a script names types plainly, or else there is a stray mark exactly if
a script has types. -/
theorem Component.markup_agrees_iff (h : Component.read scripts source = .ok component) :
    component.ReadsMarkupAs scripts (detectLang source.toList) ∧
      (∀ s ∈ component.scripts, s.lang = .typeScript ↔ ∃ offset spelling,
        s.NamesTypes (settingOf scripts source) source.toList offset spelling) ∧
      ((detectLang source.toList = .typeScript ↔ ∃ s ∈ component.scripts, s.lang = .typeScript) ↔
        (∃ s ∈ component.scripts,
          s.NamesTypesPlainly (settingOf scripts source) source.toList) ∨
        ((∃ s ∈ component.scripts, s.lang = .typeScript) ↔
          component.StrayMark (settingOf scripts source) source.toList)) := by
  have hlang : ∀ s ∈ component.scripts, s.lang = .typeScript ↔ ∃ offset spelling,
      s.NamesTypes (settingOf scripts source) source.toList offset spelling := by
    intro s hs
    obtain ⟨_, hopened⟩ := Component.opened_of_read h s hs
    exact hopened.lang_eq_typeScript_iff
  refine ⟨Component.readsMarkupAs_of_read h, hlang, ?_⟩
  have hplain : (∃ s ∈ component.scripts,
      s.NamesTypesPlainly (settingOf scripts source) source.toList) →
      ∃ s ∈ component.scripts, s.lang = .typeScript := by
    rintro ⟨s, hs, offset, spelling, hnames, _⟩
    exact ⟨s, hs, (hlang s hs).2 ⟨offset, spelling, hnames⟩⟩
  rw [Component.detectLang_iff h]
  by_cases hnames : ∃ s ∈ component.scripts,
      s.NamesTypesPlainly (settingOf scripts source) source.toList
  · exact iff_of_true (iff_of_true (.inl hnames) (hplain hnames)) (.inl hnames)
  · simp only [hnames, false_or]
    exact Iff.comm

/-- A component with two scripts that have types, one of which names them without quotes. -/
def twoScripts : String :=
  "<script module lang=ts></script><script lang='typescript'>let b: a</script>\x7ba!\x7d"

/-- Its scripts and its markup agree, as the second script names types plainly or there is a stray
mark. -/
theorem Component.markup_agrees_iff_twoScripts :
    ∃ component, Component.read ScriptReader.grammar twoScripts = .ok component ∧
      component.scripts.map ScriptBlock.lang = [.typeScript, .typeScript] ∧
      component.ReadsMarkupAs ScriptReader.grammar .typeScript ∧
      ((∃ s ∈ component.scripts, s.NamesTypesPlainly (settingOf ScriptReader.grammar twoScripts)
          twoScripts.toList) ∨
        component.StrayMark (settingOf ScriptReader.grammar twoScripts) twoScripts.toList) := by
  have heval : ((Component.read ScriptReader.grammar twoScripts).toOption.map fun component =>
      (component.scripts.map ScriptBlock.lang, detectLang twoScripts.toList)) =
      some ([.typeScript, .typeScript], .typeScript) := by decide +kernel
  obtain ⟨component, hread, heval⟩ := Option.map_eq_some_iff.1 heval
  rw [toOption_eq_some_iff] at hread
  obtain ⟨hlangs, hmarkup⟩ := Prod.mk.inj heval
  have hscript : ∃ s ∈ component.scripts, s.lang = .typeScript :=
    List.mem_map.1 (hlangs ▸ List.mem_cons_self)
  obtain ⟨hreads, _, hagrees⟩ := Component.markup_agrees_iff hread
  rw [hmarkup] at hreads hagrees
  refine ⟨component, hread, hlangs, hreads, ?_⟩
  exact (hagrees.1 (iff_of_true rfl hscript)).imp_right fun hstray => hstray.1 hscript

end Components

/-- The expression of a part, if it is one. -/
def MarkupPart.expression? : MarkupPart → Option Expression
  | expression _ e => some e
  | _ => none

/-- Where the expressions in the markup of a component are written. -/
def Component.expressionSpans (component : Component) : List Span :=
  ((partsOfNodes component.fragment).filterMap MarkupPart.expression?).map Expression.span

/-- A script that names types without quotes, and an expression with a type assertion. -/
def bareLanguage : String := "<script lang=ts></script>\x7ba!\x7d"

/-- A script tag in a comment, and an expression with a type assertion. -/
def commentedTag : String := "<!-- <script lang=\"ts\"> -->\x7ba!\x7d"

/-- **The language of the markup need not be that of the scripts.**  In the first component a script
has types and the expression is read without, so that it ends before the exclamation mark; in the
second there is no script and the expression is read with types. -/
theorem Component.exists_markup_disagrees :
    (∃ component, Component.read ScriptReader.grammar bareLanguage = .ok component ∧
      (component.scripts.map ScriptBlock.lang, detectLang bareLanguage.toList,
        component.expressionSpans) = ([.typeScript], .javaScript, [⟨26, 27⟩]) ∧
      component.ReadsMarkupAs ScriptReader.grammar .javaScript ∧
      ¬(detectLang bareLanguage.toList = .typeScript ↔
        ∃ s ∈ component.scripts, s.lang = .typeScript)) ∧
    ∃ component, Component.read ScriptReader.grammar commentedTag = .ok component ∧
      (component.scripts.map ScriptBlock.lang, detectLang commentedTag.toList,
        component.expressionSpans) = ([], .typeScript, [⟨28, 30⟩]) ∧
      component.ReadsMarkupAs ScriptReader.grammar .typeScript ∧
      ¬(detectLang commentedTag.toList = .typeScript ↔
        ∃ s ∈ component.scripts, s.lang = .typeScript) := by
  refine ⟨?_, ?_⟩
  · have heval : (Component.read ScriptReader.grammar bareLanguage).toOption.map (fun component =>
        (component.scripts.map ScriptBlock.lang, detectLang bareLanguage.toList,
          component.expressionSpans)) = some ([.typeScript], .javaScript, [⟨26, 27⟩]) := by
      decide +kernel
    obtain ⟨component, hread, heval⟩ := Option.map_eq_some_iff.1 heval
    rw [toOption_eq_some_iff] at hread
    have hreads := Component.readsMarkupAs_of_read hread
    obtain ⟨hlangs, hspans⟩ := Prod.mk.inj heval
    rw [(Prod.mk.inj hspans).1] at hreads
    refine ⟨component, hread, heval, hreads, fun hiff => ?_⟩
    have hscript : ∃ s ∈ component.scripts, s.lang = .typeScript :=
      List.mem_map.1 (hlangs ▸ List.mem_cons_self)
    have htypes := hiff.2 hscript
    rw [(Prod.mk.inj hspans).1] at htypes
    cases htypes
  · have heval : (Component.read ScriptReader.grammar commentedTag).toOption.map (fun component =>
        (component.scripts.map ScriptBlock.lang, detectLang commentedTag.toList,
          component.expressionSpans)) = some ([], .typeScript, [⟨28, 30⟩]) := by
      decide +kernel
    obtain ⟨component, hread, heval⟩ := Option.map_eq_some_iff.1 heval
    rw [toOption_eq_some_iff] at hread
    have hreads := Component.readsMarkupAs_of_read hread
    obtain ⟨hlangs, hspans⟩ := Prod.mk.inj heval
    rw [(Prod.mk.inj hspans).1] at hreads
    refine ⟨component, hread, heval, hreads, fun hiff => ?_⟩
    obtain ⟨s, hs, _⟩ := hiff.1 (Prod.mk.inj hspans).1
    rw [List.map_eq_nil_iff.1 hlangs] at hs
    cases hs

end CssRune
