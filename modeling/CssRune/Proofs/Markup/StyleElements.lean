/-
**The stylesheet of a component in its place.**

While the top level of a component is read, the first style element hands the range of its content
to the reader of stylesheets.  The content ends where the closing tag starts, so that what follows
it is never a `*`, and nothing around the content has a say in what is read from it.

Main results:

* `readTop_of_tag` — what the loop does with an opening tag;
* `ReadsStyle.closed` — the content that is read stands before a closing tag;
* `ReadsStyle.readTop_eq_error` — a refusal of the content is one of the component;
* `Component.readsStyle_of_read` — the stylesheet of a component was read in this way;
* `Component.readStyleSheet_eq_placeSheet` — **the stylesheet of a component is read as its text on
  its own, moved to where it stands**.
-/

import CssRune.Proofs.Markup.Refusals
import CssRune.Proofs.Style.Translation

set_option autoImplicit false

namespace CssRune

/-- Reading the nodes at the top level, from `c` on and with `regions` found before, comes to a
first style element that takes the range `span`, and reads its content, the range `content`. -/
inductive ReadsStyle (setting : ScriptSetting) (source : List Char) (content span : Span) :
    Regions → Cursor → Prop where
  /-- A node without children comes first. -/
  | leaf {regions : Regions} {c : Cursor} {leaf : Step MarkupNode c}
      (hleaf : readLeaf setting c = .ok (some leaf))
      (more : ReadsStyle setting source content span regions leaf.next) :
      ReadsStyle setting source content span regions c
  /-- Another element comes first. -/
  | element {regions : Regions} {c : Cursor} {cs : List Char} {hc : c.rest = '<' :: cs}
      {tag : Step OpeningTag c} {body : Pace (List MarkupNode) tag.next}
      (hleaf : readLeaf setting c = .ok none) (htag : readOpeningTag setting c cs hc = .ok tag)
      (hspecial : tag.value.isSpecial = false)
      (hbody : readBodyWith setting tag.value tag.next
        (fun _ => readChildren setting tag.value.name tag.next) = .ok body)
      (more : ReadsStyle setting source content span regions body.next) :
      ReadsStyle setting source content span regions c
  /-- A script comes first. -/
  | script {regions regions' : Regions} {c : Cursor} {cs : List Char} {hc : c.rest = '<' :: cs}
      {tag : Step OpeningTag c} {raw : Step RawContent tag.next}
      (hleaf : readLeaf setting c = .ok none) (htag : readOpeningTag setting c cs hc = .ok tag)
      (hspecial : tag.value.isSpecial = true) (hraw : readRaw tag.value.name tag.next = .ok raw)
      (hname : tag.value.name ≠ "style")
      (hadd : addRegion setting.reader source regions tag.value raw.value
        ⟨tag.value.start, raw.next.pos⟩ = .ok regions')
      (more : ReadsStyle setting source content span regions' raw.next) :
      ReadsStyle setting source content span regions c
  /-- The style element is here. -/
  | style {regions : Regions} {c : Cursor} {cs : List Char} {hc : c.rest = '<' :: cs}
      {tag : Step OpeningTag c} {raw : Step RawContent tag.next}
      (hleaf : readLeaf setting c = .ok none) (htag : readOpeningTag setting c cs hc = .ok tag)
      (hspecial : tag.value.isSpecial = true) (hraw : readRaw tag.value.name tag.next = .ok raw)
      (hname : tag.value.name = "style") (hfirst : regions.style = none)
      (hcontent : raw.value.span = content)
      (hspan : (⟨tag.value.start, raw.next.pos⟩ : Span) = span) :
      ReadsStyle setting source content span regions c

section Top

variable {setting : ScriptSetting} {source : List Char} {regions regions' : Regions} {c : Cursor}
  {cs : List Char} {content span : Span}

/-! ### Steps of the loop -/

theorem readTop_of_leaf {leaf : Step MarkupNode c} (hleaf : readLeaf setting c = .ok (some leaf)) :
    readTop setting source regions c =
      (readTop setting source regions leaf.next).map fun r => (leaf.value :: r.1, r.2) := by
  rw [readTop, hleaf]
  rfl

/-- What the loop does with an opening tag. -/
theorem readTop_of_tag {hc : c.rest = '<' :: cs} {tag : Step OpeningTag c}
    (hleaf : readLeaf setting c = .ok none) (htag : readOpeningTag setting c cs hc = .ok tag) :
    readTop setting source regions c =
      if tag.value.isSpecial then do
        let raw ← readRaw tag.value.name tag.next
        let regions ← addRegion setting.reader source regions tag.value raw.value
          ⟨tag.value.start, raw.next.pos⟩
        readTop setting source regions raw.next
      else do
        let body ← readBodyWith setting tag.value tag.next
          (fun _ => readChildren setting tag.value.name tag.next)
        let r ← readTop setting source regions body.next
        return (elementOf tag.value body.value body.next.pos :: r.1, r.2) := by
  -- a name starts with a letter, so the tag is no closing tag
  have hslash : ∀ more, cs ≠ '/' :: more := by
    rintro more rfl
    cases htag
  rw [readTop, hleaf]
  simp only [bind, Except.bind]
  split
  · rename_i hnil
    rw [hc] at hnil
    cases hnil
  · rename_i more hrest
    rw [hc] at hrest
    exact absurd (List.cons.inj hrest).2 (hslash more)
  · rename_i more _ hrest
    obtain rfl : cs = more := (List.cons.inj (hc.symm.trans hrest)).2
    rw [htag]
  · rename_i htags
    exact absurd hc (htags cs)

/-! ### The content -/

/-- **The content that is read stands before a closing tag.** -/
theorem ReadsStyle.closed (h : ReadsStyle setting source content span regions c)
    (hc : c.Within source) :
    content.Cuts source ∧ ClosingTag source "style" content.stop span.stop := by
  induction h with
  | leaf hleaf _ ih => exact ih ((laid_readLeaf hc hleaf).1.within hc)
  | element _ htag _ hbody _ ih =>
    have hwithin := (laid_readOpeningTag hc htag).1.within hc
    exact ih ((laid_readBodyWith hwithin (fun _ => laid_readChildren hwithin) hbody).1.within
      hwithin)
  | script _ htag _ hraw _ _ _ ih =>
    obtain ⟨close, hcontent, hclose, _⟩ := readRaw_leads hraw
    have hall := ((laid_readOpeningTag hc htag).1.trans hcontent).trans hclose
    exact ih (hall.within hc)
  | style _ htag _ hraw hname _ hcontent hspan =>
    have hwithin := (laid_readOpeningTag hc htag).1.within hc
    have hclosing := closingTag_readRaw hwithin (tagFilled_readOpeningTag hc htag).1 hraw
    obtain ⟨close, hleads, _, hvalue⟩ := readRaw_leads hraw
    rw [hname] at hclosing
    subst hcontent hspan
    rw [hvalue] at hclosing ⊢
    exact ⟨Span.cuts_of_leads hleads hwithin, hclosing⟩

/-- **A refusal of the content is one of the component.** -/
theorem ReadsStyle.readTop_eq_error {e : ParseError}
    (h : ReadsStyle setting source content span regions c)
    (he : readStyleSheet source content span = .error e) :
    readTop setting source regions c = .error e := by
  induction h with
  | leaf hleaf _ ih =>
    rw [readTop_of_leaf hleaf, ih]
    rfl
  | element hleaf htag hspecial hbody _ ih =>
    rw [readTop_of_tag hleaf htag, hspecial, hbody]
    show (readTop setting source _ _ >>= _) = _
    rw [ih]
    rfl
  | script hleaf htag hspecial hraw _ hadd _ ih =>
    rw [readTop_of_tag hleaf htag, hspecial, hraw]
    show (addRegion setting.reader source _ _ _ _ >>= _) = _
    rw [hadd]
    exact ih
  | style hleaf htag hspecial hraw hname hfirst hcontent hspan =>
    rw [readTop_of_tag hleaf htag, hspecial, hraw]
    show (addRegion setting.reader source _ _ _ _ >>= _) = _
    rw [addRegion, if_pos hname, hfirst, hspan, hcontent, he]
    rfl

/-- A stylesheet that a region adds was read from it. -/
theorem style_addRegion {reader : ScriptReader} {tag : OpeningTag} {raw : RawContent}
    (h : addRegion reader source regions tag raw span = .ok regions') :
    if tag.name = "style" then regions.style = none ∧
      ∃ sheet, readStyleSheet source raw.span span = .ok sheet ∧ regions'.style = some sheet
    else regions'.style = regions.style := by
  unfold addRegion at h
  split at h
  · rename_i hname
    rw [if_pos hname]
    split at h
    · cases h
    · rename_i hfirst
      obtain ⟨sheet, hsheet, h⟩ := bind_eq_ok_iff.1 h
      cases h
      exact ⟨by simpa using hfirst, sheet, hsheet, rfl⟩
  · rename_i hname
    rw [if_neg hname]
    obtain ⟨s, _, h⟩ := bind_eq_ok_iff.1 h
    exact (Regions.scripts_addScript h).2

theorem ReadsStyle.style_eq_none (h : ReadsStyle setting source content span regions c) :
    regions.style = none := by
  induction h with
  | leaf _ _ ih => exact ih
  | element _ _ _ _ _ ih => exact ih
  | script _ _ _ _ hname hadd _ ih =>
    have hstyle := style_addRegion hadd
    rw [if_neg hname] at hstyle
    rw [← hstyle, ih]
  | style _ _ _ _ _ hfirst => exact hfirst

/-- A stylesheet that the loop finds was read from a style element that it came to. -/
theorem readsStyle_of_readTop {nodes : List MarkupNode}
    (h : readTop setting source regions c = .ok (nodes, regions')) :
    regions'.style = regions.style ∨ ∃ content span sheet,
      ReadsStyle setting source content span regions c ∧
        readStyleSheet source content span = .ok sheet ∧ regions'.style = some sheet := by
  replace h := topRun_of_readTop h
  induction h with
  | done => exact .inl rfl
  | leaf hleaf _ ih =>
    refine ih.imp_right ?_
    rintro ⟨content, span, sheet, hreads, hsheet⟩
    exact ⟨content, span, sheet, .leaf hleaf hreads, hsheet⟩
  | region hleaf htag hspecial hraw hadd _ ih =>
    have hstyle := style_addRegion hadd
    split at hstyle
    · rename_i hname
      obtain ⟨hfirst, sheet, hsheet, hbetween⟩ := hstyle
      refine .inr ⟨_, _, sheet, .style hleaf htag hspecial hraw hname hfirst rfl rfl, hsheet, ?_⟩
      -- no second stylesheet is read after this one
      rcases ih with hsame | ⟨_, _, _, hreads, _⟩
      · rw [hsame, hbetween]
      · rw [hreads.style_eq_none] at hbetween
        cases hbetween
    · rename_i hname
      rw [hstyle] at ih
      refine ih.imp_right ?_
      rintro ⟨content, span, sheet, hreads, hsheet⟩
      exact ⟨content, span, sheet, .script hleaf htag hspecial hraw hname hadd hreads, hsheet⟩
  | element hleaf htag hspecial hbody _ ih =>
    refine ih.imp_right ?_
    rintro ⟨content, span, sheet, hreads, hsheet⟩
    exact ⟨content, span, sheet, .element hleaf htag hspecial hbody hreads, hsheet⟩

end Top

/-! ### Components -/

/-- Reading a component comes to a first style element at the top level, which takes the range
`span`, and reads its content, the range `content`. -/
def Component.ReadsStyle (scripts : ScriptReader) (source : String) (content span : Span) : Prop :=
  CssRune.ReadsStyle (settingOf scripts source) source.toList content span Regions.empty
    ⟨0, source.toList⟩

section Components

variable {scripts : ScriptReader} {source : String} {content span : Span}

/-- The stylesheet of a component was read from its first style element. -/
theorem Component.readsStyle_of_read {component : Component} {sheet : StyleSheet}
    (h : Component.read scripts source = .ok component) (hsheet : component.style = some sheet) :
    Component.ReadsStyle scripts source sheet.content sheet.span ∧
      readStyleSheet source.toList sheet.content sheet.span = .ok sheet := by
  obtain ⟨⟨nodes, regions⟩, hread, h⟩ := bind_eq_ok_iff.1 h
  rw [← pure_eq_ok_iff.1 h] at hsheet
  rcases readsStyle_of_readTop hread with hsame | ⟨content, span, sheet', hreads, hok, hstyle⟩
  · rw [hsame] at hsheet
    cases hsheet
  · obtain rfl : sheet' = sheet := Option.some.inj (hstyle.symm.trans hsheet)
    obtain ⟨_, _, hmk⟩ := bind_eq_ok_iff.1 hok
    cases hmk
    exact ⟨hreads, hok⟩

/-- **The stylesheet of a component is read as its text on its own, moved to where it stands.**  The
content of a style element is a piece of the source with its closing tag right after it.  Reading it
succeeds if and only if reading its text alone does, with the same nodes but for the offset of the
content, which is added to all ranges, and is refused for the same fault, with the same offset
added; this refusal is then that of the component.  What the text is read from has no other say. -/
theorem Component.readStyleSheet_eq_placeSheet
    (h : Component.ReadsStyle scripts source content span) :
    content.Cuts source.toList ∧ Text.IsAt source.toList content.stop "</style".toList ∧
      content = (wholeOf (Text.slice source.toList content)).shift content.start ∧
      (∀ own, readStyleSheet source.toList content span =
        placeSheet content span (readStyleSheet (Text.slice source.toList content)
          (wholeOf (Text.slice source.toList content)) own)) ∧
      ∀ e, readStyleSheet source.toList content span = .error e →
        Component.read scripts source = .error e := by
  obtain ⟨hcuts, rest, _, hat, _⟩ := h.closed (Cursor.within_start source.toList)
  refine ⟨hcuts, ?_, ?_, fun own => readStyleSheet_of_slice span own ?_, fun e he => ?_⟩
  · exact Text.IsAt.left (show Text.IsAt source.toList content.stop
      ("</style".toList ++ (rest ++ ['>'])) from hat)
  · have hlength := hcuts.byteLength_slice
    have hle := hcuts.le
    rw [wholeOf, Span.shift, hlength, Nat.zero_add, Nat.sub_add_cancel hle]
  · rw [hat.head?_dropBytes]
    simp
  · have htop := h.readTop_eq_error he
    rw [settingOf] at htop
    rw [Component.read]
    simp only [htop]
    rfl

/-- A component with a stylesheet of two rules between an element and a script.  Its closing tag is
written with a blank. -/
def styledComponent : String :=
  "<p/><style>\n.a \x7b b: c \x7d @d;</style ><script>1</script>"

/-- Its stylesheet is read, and each node is eleven bytes further on than in its text alone. -/
theorem Component.readStyleSheet_eq_placeSheet_styledComponent :
    Component.ReadsStyle ScriptReader.grammar styledComponent ⟨11, 27⟩ ⟨4, 36⟩ ∧
      Text.IsAt styledComponent.toList 27 "</style".toList ∧
      ∃ sheet, readStyleSheet "\n.a \x7b b: c \x7d @d;".toList ⟨0, 16⟩ ⟨0, 16⟩ = .ok sheet ∧
        sheet.children.map StyleNode.span = [⟨1, 12⟩, ⟨13, 16⟩] ∧
        readStyleSheet styledComponent.toList ⟨11, 27⟩ ⟨4, 36⟩ =
          .ok ⟨shiftNodes 11 sheet.children, ⟨11, 27⟩, ⟨4, 36⟩⟩ := by
  have hcomponent : ((Component.read ScriptReader.grammar styledComponent).toOption.bind fun c =>
      c.style.map fun sheet => (sheet.content, sheet.span)) = some (⟨11, 27⟩, ⟨4, 36⟩) := by
    decide +kernel
  have halone : (readStyleSheet "\n.a \x7b b: c \x7d @d;".toList ⟨0, 16⟩ ⟨0, 16⟩).toOption.map
      (fun sheet => sheet.children.map StyleNode.span) = some [⟨1, 12⟩, ⟨13, 16⟩] := by
    decide +kernel
  have hslice : Text.slice styledComponent.toList ⟨11, 27⟩ = "\n.a \x7b b: c \x7d @d;".toList := by
    decide +kernel
  obtain ⟨component, hread, hstyle⟩ := Option.bind_eq_some_iff.1 hcomponent
  obtain ⟨sheet, hsheet, hspans⟩ := Option.map_eq_some_iff.1 hstyle
  obtain ⟨hcontent, hspan⟩ := Prod.mk.inj hspans
  have hreads := (Component.readsStyle_of_read (toOption_eq_some_iff.1 hread) hsheet).1
  rw [hcontent, hspan] at hreads
  obtain ⟨_, hclosing, _, hplaced, _⟩ := Component.readStyleSheet_eq_placeSheet hreads
  obtain ⟨alone, hok, hchildren⟩ := Option.map_eq_some_iff.1 halone
  rw [toOption_eq_some_iff] at hok
  refine ⟨hreads, hclosing, alone, hok, hchildren, ?_⟩
  rw [hplaced ⟨0, 16⟩, hslice]
  exact congrArg (placeSheet ⟨11, 27⟩ ⟨4, 36⟩) hok

end Components

end CssRune
