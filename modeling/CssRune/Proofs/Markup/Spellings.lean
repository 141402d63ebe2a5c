/-
**How attributes are written.**

An attribute whose value is a single piece of text is its name, an equals sign with blanks on either
side of it or none, and the text, in quotes of either kind or bare.  What is kept of it is the name
and the text, so the same attribute can be spelled in many ways.  This module says that there are no
others.

Main results:

* `spelled_readAttribute` — an attribute that is read is spelled in what was read;
* `spelled_readOpeningTag` — **the attributes of a tag are spelled in the source**.
-/

import CssRune.Proofs.Markup.Nodes

set_option autoImplicit false

namespace CssRune

/-- The blanks on either side of the equals sign of an attribute, and the quotes around its
value. -/
structure Spelling where
  before : List Char
  after : List Char
  quote : Option Char
  isSpace_before : ∀ ch ∈ before, Text.isSpace ch = true
  isSpace_after : ∀ ch ∈ after, Text.isSpace ch = true
  isQuote : ∀ q ∈ quote, q = '"' ∨ q = '\''

namespace Spelling

/-- A value in its quotes. -/
def quoted (s : Spelling) (value : List Char) : List Char :=
  s.quote.toList ++ value ++ s.quote.toList

/-- The text of an attribute. -/
def text (s : Spelling) (name value : List Char) : List Char :=
  name ++ s.before ++ '=' :: (s.after ++ s.quoted value)

end Spelling

/-- If the value of the attribute is a single piece of text, the attribute is spelled in its
range. -/
def Attribute.Spelled (source : List Char) (a : Attribute) : Prop :=
  ∀ t, a.value.staticText? = some t → ∃ s : Spelling,
    Text.IsAt source a.span.start (s.text a.name.toList t.data.toList) ∧
      a.span.stop = a.span.start + Text.byteLength (s.text a.name.toList t.data.toList)

section Readers

variable {setting : ScriptSetting} {source : List Char} {c : Cursor} {cs : List Char}

/-! ### Values -/

variable {t : TextNode} {s : Step AttributeNode c} {a : Attribute}

theorem AttributeValue.eq_of_staticText? {v : AttributeValue} (h : v.staticText? = some t) :
    v = .chunks [.text t] := by
  unfold staticText? at h
  split at h
  · cases h
    rfl
  · cases h

/-- A single piece of text is all that was read. -/
theorem upTo_readChunks {stop : Char → Bool} {r : Pace (List ValueChunk) c} (hc : c.Within source)
    (h : readChunks setting stop c = .ok r) (ht : r.value = [.text t]) :
    c.Leads r.next ∧ c.upTo r.next = t.data.toList := by
  obtain ⟨hleads, hchain, hlaid⟩ := laid_readChunks hc h
  rw [ht] at hchain hlaid
  obtain ⟨hstart, _, hstop⟩ := hchain
  have hspan : t.span = ⟨c.pos, r.next.pos⟩ := by
    rw [← hstart, ← hstop]
    rfl
  have hdata : t.Laid source := hlaid _ (List.mem_singleton.2 rfl)
  exact ⟨hleads, by rw [hdata.data, hspan, hleads.slice hc]⟩

/-- A value that is a piece of text is that text, in quotes or bare. -/
theorem upTo_readValue {s : Step AttributeValue c} (hc : c.Within source)
    (h : readValue setting c = .ok s) (ht : s.value.staticText? = some t) :
    ∃ quote : Option Char, (∀ q ∈ quote, q = '"' ∨ q = '\'') ∧
      c.upTo s.next = quote.toList ++ t.data.toList ++ quote.toList := by
  unfold readValue at h
  split at h
  · cases h
  · rename_i ch cs hcs
    split at h
    · rename_i hquote
      obtain ⟨r, hr, h⟩ := bind_eq_ok_iff.1 h
      have hopen := Cursor.leads_moveTo_cons hcs
      split at h
      · rename_i close after hafter
        split at h
        · rename_i hclose
          rw [← pure_eq_ok_iff.1 h] at ht ⊢
          obtain ⟨hleads, hdata⟩ := upTo_readChunks (hopen.within hc) hr
            (AttributeValue.chunks.inj (AttributeValue.eq_of_staticText? ht))
          have hend := Cursor.leads_moveTo_cons hafter
          refine ⟨some ch, by simpa using hquote, ?_⟩
          rw [(hopen.trans hleads).upTo_trans hend, hopen.upTo_trans hleads, hdata,
            Cursor.upTo_moveTo_cons hcs, Cursor.upTo_moveTo_cons hafter, hclose]
          rfl
        · cases h
      · cases h
    · split at h
      · obtain ⟨tag, _, h⟩ := bind_eq_ok_iff.1 h
        rw [← pure_eq_ok_iff.1 h] at ht
        cases AttributeValue.eq_of_staticText? ht
      · obtain ⟨r, hr, h⟩ := bind_eq_ok_iff.1 h
        split at h
        · rw [← pure_eq_ok_iff.1 h] at ht ⊢
          obtain ⟨_, hdata⟩ := upTo_readChunks hc hr
            (AttributeValue.chunks.inj (AttributeValue.eq_of_staticText? ht))
          refine ⟨none, by simp, ?_⟩
          rw [hdata]
          exact (List.append_nil _).symm
        · cases h

theorem isSpace_of_mem_upTo_skipSpace (c : Cursor) :
    ∀ ch ∈ c.upTo c.skipSpace, Text.isSpace ch = true := by
  have hsplit : c.rest = c.rest.takeWhile Text.isSpace ++ c.skipSpace.rest :=
    List.takeWhile_append_dropWhile.symm
  rw [Cursor.upTo_of_append hsplit]
  exact fun ch hch => List.all_eq_true.1 List.all_takeWhile ch hch

/-! ### Attributes -/

/-- What follows a name is an equals sign between blanks, and the value. -/
theorem upTo_readOptionalValue {p : Pace AttributeValue c} (hc : c.Within source)
    (h : readOptionalValue setting c = .ok p) (ht : p.value.staticText? = some t) :
    ∃ s : Spelling, c.upTo p.next = s.text [] t.data.toList := by
  unfold readOptionalValue at h
  split at h
  · rename_i cs hcs
    obtain ⟨v, hv, h⟩ := bind_eq_ok_iff.1 h
    rw [← pure_eq_ok_iff.1 h] at ht ⊢
    have hblank := c.leads_skipSpace
    have hsign := Cursor.leads_moveTo_cons hcs
    have hblank' := Cursor.leads_skipSpace (c.skipSpace.moveTo cs)
    have hwithin := ((hblank.trans hsign).trans hblank').within hc
    obtain ⟨quote, hquote, hvalue⟩ := upTo_readValue hwithin hv ht
    refine ⟨⟨_, _, quote, isSpace_of_mem_upTo_skipSpace c,
      isSpace_of_mem_upTo_skipSpace (c.skipSpace.moveTo cs), hquote⟩, ?_⟩
    rw [((hblank.trans hsign).trans hblank').upTo_trans (laid_readValue hwithin hv).1, hvalue,
      (hblank.trans hsign).upTo_trans hblank', hblank.upTo_trans hsign,
      Cursor.upTo_moveTo_cons hcs]
    simp only [Spelling.text, Spelling.quoted, List.append_assoc, List.nil_append, List.cons_append]
  · cases h
    cases ht

theorem plain_of_attributeOf {name : List Char} {value : AttributeValue} {span : Span}
    (h : attributeOf name value span = .ok (.plain a)) : a = ⟨String.ofList name, value, span⟩ := by
  simp only [attributeOf] at h
  split at h
  · cases h
    rfl
  · split at h
    · unfold directiveOf at h
      split at h
      · cases h
      · split at h
        · cases h
        · obtain ⟨_, _, h⟩ := bind_eq_ok_iff.1 h
          cases h
    · cases h
      rfl

/-- An attribute that is read is spelled in what was read. -/
theorem spelled_readAttribute (hc : c.Within source) (h : readAttribute setting c = .ok s)
    (ha : s.value = .plain a) : a.Spelled source := by
  have hlaid := laid_readAttribute hc h
  intro t ht
  simp only [readAttribute] at h
  split at h
  · obtain ⟨v, hv, h⟩ := bind_eq_ok_iff.1 h
    obtain ⟨node, hnode, h⟩ := bind_eq_ok_iff.1 h
    rw [← pure_eq_ok_iff.1 h] at ha hlaid
    simp only at ha
    subst ha
    rw [plain_of_attributeOf hnode] at ht hlaid ⊢
    have hname := Cursor.leads_moveTo (afterAttributeName_suffix c.rest)
    obtain ⟨spelling, hspelling⟩ := upTo_readOptionalValue (hname.within hc) hv ht
    have hall := hlaid.1
    have htext : c.upTo v.next =
        spelling.text (c.upTo (c.moveTo (afterAttributeName c.rest))) t.data.toList := by
      rw [hname.upTo_trans (laid_readOptionalValue (hname.within hc) hv).1, hspelling]
      simp only [Spelling.text, List.append_assoc, List.nil_append]
    refine ⟨spelling, ?_, ?_⟩
    · rw [String.toList_ofList, ← htext]
      exact hall.isAt hc
    · rw [String.toList_ofList, ← htext]
      exact hall.pos_eq
  · cases h

/-- An attribute in braces has no text for a value. -/
theorem spelled_readBraceAttribute {hopen : c.rest = '\x7b' :: cs}
    (h : readBraceAttribute setting c cs hopen = .ok s) (ha : s.value = .plain a) :
    a.Spelled source := by
  intro t ht
  unfold readBraceAttribute at h
  split at h
  · cases h
  · simp only at h
    split at h
    · obtain ⟨e, _, h⟩ := bind_eq_ok_iff.1 h
      rw [← pure_eq_ok_iff.1 h] at ha
      cases ha
    · split at h
      · cases h
      · obtain ⟨e, _, h⟩ := bind_eq_ok_iff.1 h
        rw [← pure_eq_ok_iff.1 h] at ha
        cases ha
        cases ht

theorem spelled_readAttributes {name : String} {s : Step (List AttributeNode × Bool) c}
    (hc : c.Within source) (h : readAttributes setting name c = .ok s) :
    ∀ a, AttributeNode.plain a ∈ s.value.1 → a.Spelled source := by
  fun_induction readAttributes setting name c with
  | case1 => cases h
  | case2 c d cs =>
    cases h
    simp
  | case3 c d ch cs hd _ =>
    cases h
    simp
  | case4 c d ch cs hd _ _ =>
    rename_i ih
    obtain ⟨first, hfirst, h⟩ := bind_eq_ok_iff.1 h
    obtain ⟨more, hmore, h⟩ := bind_eq_ok_iff.1 h
    cases h
    have hwithin := c.leads_skipSpace.within hc
    have hleads := (laid_readOneAttribute hwithin hfirst).1
    intro a ha
    rcases List.mem_cons.1 ha with heq | ha
    · unfold readOneAttribute at hfirst
      split at hfirst
      · exact spelled_readBraceAttribute hfirst heq.symm
      · exact spelled_readAttribute hwithin hfirst heq.symm
    · exact ih first (hleads.within hwithin) hmore a ha

/-- **The attributes of a tag are spelled in the source.** -/
theorem spelled_readOpeningTag {hopen : c.rest = '<' :: cs} {s : Step OpeningTag c}
    (hc : c.Within source) (h : readOpeningTag setting c cs hopen = .ok s) :
    ∀ a, AttributeNode.plain a ∈ s.value.attributes → a.Spelled source := by
  unfold readOpeningTag at h
  split at h
  · obtain ⟨r, hr, h⟩ := bind_eq_ok_iff.1 h
    cases h
    have hname : c.Leads (c.moveTo (cs.dropWhile isTagChar)) := Cursor.leads_moveTo
      (hopen ▸ (List.dropWhile_suffix isTagChar).trans (List.suffix_cons _ cs))
    exact spelled_readAttributes (hname.within hc) hr
  · cases h

end Readers

end CssRune
