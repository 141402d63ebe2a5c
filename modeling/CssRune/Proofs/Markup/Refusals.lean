/-
**Reading a component ends with a component or at a place of the source.**

Whatever the source is, reading it gives a component or refuses it, and a refusal names a place
between two characters of the source.  No loop runs on without reading text: those that recurse on
what is left to read get shorter text in every round, and those with a bound on their steps never
reach it.  The one way in which the search for a delimiter can fail to move on, a comment opener cut
in two by the end of a stylesheet, does not arise, since the stylesheet of a component is followed
by its closing tag.

* `settles_readExpressionTag`, `settles_readAttributes`, `settles_readChildren` — one lemma for each
  reader of markup;
* `settles_readTop` — the loop at the top level;
* `Component.Laid` — every range in a component is a piece of its source;
* `Component.read_settles` — **reading ends with a component, or at a place of the source**.
-/

import CssRune.Proofs.Style.Nesting
import CssRune.Proofs.Style.Refusals
import CssRune.Proofs.Tiling

set_option autoImplicit false

namespace CssRune

open Text

section Readers

variable {setting : ScriptSetting} {source : List Char} {c : Cursor} {cs : List Char}

/-! ### Expressions and block tags -/

variable {text : List Char} {offset start : Nat} {hopen : c.rest = '\x7b' :: cs} {kind : BlockKind}
  {keyword name : String} {span : Span} {v : AttributeValue} {ch : Char} {tag : OpeningTag}
  {regions : Regions}

theorem Text.IsAt.place (h : IsAt source offset text) : IsAt source offset [] :=
  IsAt.left (show IsAt source offset ([] ++ text) from h)

theorem settles_readExpressionAt (h : IsAt source offset text) :
    Settles source (readExpressionAt setting offset text) := by
  unfold readExpressionAt
  split
  · exact settles_error h.place rfl
  · split
    · exact settles_ok _
    · exact settles_error h.place rfl

theorem settles_readExpressionTag (hc : c.Within source) :
    Settles source (readExpressionTag setting c cs hopen) := by
  unfold readExpressionTag
  split
  · exact settles_error hc.place rfl
  · rename_i inside after hb
    obtain ⟨_, _, hinside, _⟩ := leads_of_braced hc hopen hb
    exact (settles_readExpressionAt hinside).bind_ok

theorem settles_blockExpressionText (h : IsAt source offset text) :
    Settles source (blockExpressionText kind keyword offset text) := by
  cases kind with
  | closing => exact settles_ok _
  | opening =>
    simp only [blockExpressionText]
    split
    · exact settles_ok _
    · split
      · exact settles_ok _
      · split
        · exact settles_ok _
        · exact settles_ok _
  | continuing =>
    simp only [blockExpressionText]
    split
    · split
      · split
        · exact settles_ok _
        · exact settles_ok _
      · exact settles_ok _
    · exact settles_ok _
  | special =>
    simp only [blockExpressionText]
    split
    · split
      · exact settles_error h.place rfl
      · exact settles_ok _
    · exact settles_ok _

theorem settles_readBlockExpression (h : IsAt source offset text) :
    Settles source (readBlockExpression setting kind keyword offset text) := by
  refine (settles_blockExpressionText h).bind fun part hpart => ?_
  cases part with
  | none => exact settles_ok _
  | some part =>
    obtain ⟨start, inner⟩ := part
    obtain ⟨k, rfl, hinner⟩ := blockExpressionText_isAt hpart
    simp only []
    split
    · split
      · exact settles_error h.place rfl
      · exact settles_ok _
    · exact (settles_readExpressionAt (h.trans hinner)).bind_ok

theorem settles_readBlockTag (h : IsAt source offset text) :
    Settles source (readBlockTag setting kind offset text span) := by
  simp only [readBlockTag]
  split
  · exact settles_error h.place rfl
  · -- the expression is read from what follows the keyword
    have hsplit : text = text.takeWhile Char.isAlpha ++
        text.drop (text.takeWhile Char.isAlpha).length :=
      .symm <| List.prefix_iff_eq_append.1 <| List.takeWhile_prefix Char.isAlpha
    have hat := h
    rw [hsplit] at hat
    exact (settles_readBlockExpression hat.right).bind_ok

theorem settles_readBraceNode (hc : c.Within source) :
    Settles source (readBraceNode setting c cs hopen) := by
  unfold readBraceNode
  split
  · exact settles_error hc.place rfl
  · rename_i inside after hb
    simp only []
    split
    · exact (settles_readExpressionTag hc).map
    · rename_i sign text hsign
      split
      · exact (settles_readExpressionTag hc).map
      · rename_i kind hkind
        obtain ⟨_, _, hinside, _⟩ := leads_of_braced hc hopen hb
        have hsplit : inside = inside.takeWhile isSpace ++ sign :: text := by
          rw [← hsign, List.takeWhile_append_dropWhile]
        rw [hsplit] at hinside
        have htext := hinside.right.tail
        rw [BlockKind.utf8Size_of_ofSign? hkind] at htext
        exact (settles_readBlockTag htext).bind_ok

/-! ### Attributes -/

theorem settles_directiveValue (h : IsAt source start []) :
    Settles source (directiveValue v start) := by
  unfold directiveValue
  split
  · exact settles_ok _
  · exact settles_ok _
  · exact settles_ok _
  · exact settles_error h rfl

theorem settles_attributeOf {name : List Char} (h : IsAt source span.start []) :
    Settles source (attributeOf name v span) := by
  simp only [attributeOf]
  split
  · exact settles_ok _
  · split
    · unfold directiveOf
      split
      · exact settles_error h rfl
      · split
        · exact settles_error h rfl
        · exact (settles_directiveValue h).bind_ok
    · exact settles_ok _

section Within

variable (hc : c.Within source)

include hc

theorem settles_readBraceAttribute : Settles source (readBraceAttribute setting c cs hopen) := by
  unfold readBraceAttribute
  split
  · exact settles_error hc.place rfl
  · rename_i inside after hb
    obtain ⟨_, _, hinside, _⟩ := leads_of_braced hc hopen hb
    simp only []
    split
    · rename_i text hdots
      have hsplit : inside = (inside.takeWhile isBlank ++ ['.', '.', '.']) ++ text := by
        rw [List.append_assoc]
        show inside = inside.takeWhile isBlank ++ '.' :: '.' :: '.' :: text
        rw [← hdots, trimLeft, List.takeWhile_append_dropWhile]
      rw [hsplit] at hinside
      have htext := hinside.right
      rw [byteLength_append] at htext
      exact (settles_readExpressionAt htext).bind_ok
    · split
      · exact settles_error hc.place rfl
      · exact (settles_readExpressionAt hinside).bind_ok

theorem settles_readChunks {stop : Char → Bool} : Settles source (readChunks setting stop c) := by
  fun_induction readChunks setting stop c with
  | case1 => exact settles_ok _
  | case2 c d cs hopen hstop =>
    rename_i ih
    have hleads := leads_afterChunkText stop c
    refine (settles_readExpressionTag (hleads.within hc)).bind fun tag htag => ?_
    have hstep := (laid_readExpressionTag (hleads.within hc) htag).1
    exact (ih tag ((hleads.trans hstep).within hc)).bind_ok
  | case3 => exact settles_ok _

theorem settles_readValue : Settles source (readValue setting c) := by
  unfold readValue
  split
  · exact settles_error hc.place rfl
  · rename_i ch cs hcs
    split
    · refine (settles_readChunks ((Cursor.leads_moveTo_cons hcs).within hc)).bind fun r _ => ?_
      split
      · split
        · exact settles_ok _
        · exact settles_error hc.place rfl
      · exact settles_error hc.place rfl
    · split
      · exact (settles_readExpressionTag hc).bind_ok
      · refine (settles_readChunks hc).bind fun r hr => ?_
        split
        · exact settles_ok _
        · exact settles_error ((laid_readChunks hc hr).1.within hc).place rfl

theorem settles_readOptionalValue : Settles source (readOptionalValue setting c) := by
  unfold readOptionalValue
  split
  · rename_i cs hcs
    have hsign := (c.leads_skipSpace.trans (Cursor.leads_moveTo_cons hcs)).trans
      (Cursor.leads_skipSpace _)
    exact (settles_readValue (hsign.within hc)).bind_ok
  · exact settles_ok _

theorem settles_readAttribute : Settles source (readAttribute setting c) := by
  simp only [readAttribute]
  split
  · have hname := Cursor.leads_moveTo (afterAttributeName_suffix c.rest)
    refine (settles_readOptionalValue (hname.within hc)).bind fun _ _ => ?_
    exact (settles_attributeOf hc.place).bind_ok
  · exact settles_error hc.place rfl

theorem settles_readOneAttribute {hcs : c.rest = ch :: cs} :
    Settles source (readOneAttribute setting c ch cs hcs) := by
  unfold readOneAttribute
  split
  · exact settles_readBraceAttribute hc
  · exact settles_readAttribute hc

theorem settles_readAttributes : Settles source (readAttributes setting name c) := by
  fun_induction readAttributes setting name c with
  | case1 c => exact settles_error (c.leads_skipSpace.within hc).place rfl
  | case2 => exact settles_ok _
  | case3 => exact settles_ok _
  | case4 c d ch cs hd =>
    rename_i ih
    have hspace := c.leads_skipSpace
    refine (settles_readOneAttribute (hspace.within hc)).bind fun a ha => ?_
    have hleads := (laid_readOneAttribute (hspace.within hc) ha).1
    exact (ih a ((hspace.trans hleads).within hc)).bind_ok

/-! ### Tags and contents -/

theorem settles_readOpeningTag {hopen : c.rest = '<' :: cs} :
    Settles source (readOpeningTag setting c cs hopen) := by
  unfold readOpeningTag
  split
  · have hsuffix : cs.dropWhile isTagChar <:+ c.rest :=
      hopen ▸ (List.dropWhile_suffix isTagChar).trans (List.suffix_cons _ cs)
    have hname := (Cursor.leads_moveTo hsuffix).within hc
    exact (settles_readAttributes hname).bind_ok
  · rw [Cursor.Within, hopen] at hc
    exact settles_error hc.tail.place rfl

theorem settles_readClosingTag {hopen : c.rest = '<' :: '/' :: cs} :
    Settles source (readClosingTag c cs hopen) := by
  unfold readClosingTag
  split
  · exact settles_ok _
  · exact settles_error hc.place rfl

theorem settles_readRaw : Settles source (readRaw name c) := by
  unfold readRaw
  split
  · exact settles_error hc.place rfl
  · rename_i closing hclosing
    have hleads := Cursor.leads_moveTo (find_suffix hclosing)
    split
    · exact settles_error (hleads.within hc).place rfl
    · exact settles_ok _

theorem settles_readTextarea (hstart : IsAt source start []) :
    Settles source (readTextarea setting start c) := by
  fun_induction readTextarea setting start c with
  | case1 => exact settles_error hstart rfl
  | case2 c closing _ d cs hopen =>
    rename_i ih
    have htext : c.Leads d := c.leads_skip _
    refine (settles_readExpressionTag (htext.within hc)).bind fun tag htag => ?_
    have hstep := (laid_readExpressionTag (htext.within hc) htag).1
    exact (ih tag ((htext.trans hstep).within hc)).bind_ok
  | case3 c closing _ d cs =>
    have htext : c.Leads d := c.leads_skip _
    exact (settles_readClosingTag (htext.within hc)).bind_ok
  | case4 => exact settles_error hstart rfl

/-! ### Nodes -/

theorem settles_readLeaf : Settles source (readLeaf setting c) := by
  unfold readLeaf
  split
  · exact settles_ok _
  · refine Settles.map ?_
    unfold readComment
    split
    · exact settles_error hc.place rfl
    · exact settles_ok _
  · refine Settles.map ?_
    unfold readDeclarationTag
    split
    · exact settles_error hc.place rfl
    · exact settles_ok _
  · exact settles_ok _
  · exact (settles_readBraceNode hc).map
  · exact settles_ok _

theorem settles_readBodyWith {children : Unit → Except ParseError (Step (List MarkupNode) c)}
    (hchildren : Settles source (children ())) :
    Settles source (readBodyWith setting tag c children) := by
  unfold readBodyWith
  split
  · exact settles_ok _
  · split
    · exact (settles_readTextarea hc hc.place).bind_ok
    · split
      · exact (settles_readRaw hc).bind_ok
      · exact hchildren.bind_ok

theorem settles_readChildren {parent : String} :
    Settles source (readChildren setting parent c) := by
  induction hn : c.length using Nat.strongRecOn generalizing parent c with
  | ind n ih =>
    subst hn
    rw [readChildren]
    refine (settles_readLeaf hc).bind fun leaf hleaf => ?_
    cases leaf with
    | some leaf =>
      have hleads := (laid_readLeaf hc hleaf).1
      exact (ih _ leaf.shorter (hleads.within hc) rfl).bind_ok
    | none =>
      simp only []
      split
      · refine (settles_readClosingTag hc).bind fun _ _ => ?_
        split
        · exact settles_ok _
        · exact settles_error hc.place rfl
      · refine (settles_readOpeningTag hc).bind fun tag htag => ?_
        have hwithin := (laid_readOpeningTag hc htag).1.within hc
        refine (settles_readBodyWith hwithin (ih _ tag.shorter hwithin rfl)).bind
          fun body hbody => ?_
        have hleads := (laid_readBodyWith hwithin (fun _ => laid_readChildren hwithin) hbody).1
        have hlt := Nat.lt_of_le_of_lt body.noLonger tag.shorter
        exact (ih _ hlt (hleads.within hwithin) rfl).bind_ok
      · exact settles_error hc.place rfl

end Within

/-! ### The top level -/

theorem settles_addScript {s : ScriptBlock} (h : IsAt source s.span.start []) :
    Settles source (regions.addScript s) := by
  unfold Regions.addScript
  split
  · split
    · exact settles_error h rfl
    · exact settles_ok _
  · split
    · exact settles_error h rfl
    · exact settles_ok _

theorem Text.IsAt.head?_dropBytes {pos : Nat} (h : IsAt source pos (ch :: cs)) :
    (dropBytes pos source).head? = some ch := by
  obtain ⟨front, back, rfl, rfl⟩ := h
  rw [dropBytes_byteLength_append]
  rfl

/-- A script or a stylesheet that is added settles: what follows a stylesheet is its closing tag. -/
theorem settles_addRegion {reader : ScriptReader} {d close after : Cursor} {text : String}
    (hc : c.Within source) (hstart : tag.start = c.pos) (hopen : c.Leads d) (hraw : d.Leads close)
    (hclosing : ClosingTag source name close.pos after.pos) :
    Settles source
      (addRegion reader source regions tag ⟨text, ⟨d.pos, close.pos⟩⟩ ⟨tag.start, after.pos⟩) := by
  have hd := hopen.within hc
  unfold addRegion
  split
  · split
    · rw [hstart]
      exact settles_error hc.place rfl
    · obtain ⟨rest, _, hat, _⟩ := hclosing
      refine (settles_readStyleSheet (Span.cuts_of_leads hraw hd) ?_).bind_ok
      rw [hat.head?_dropBytes]
      simp
  · unfold readScriptBlock
    split
    · exact (settles_ok _).bind fun s hs => by
        cases hs
        exact settles_addScript (hstart ▸ hc.place)
    · exact settles_error hd.place rfl

theorem settles_readTop (hc : c.Within source) :
    Settles source (readTop setting source regions c) := by
  induction hn : c.length using Nat.strongRecOn generalizing regions c with
  | ind n ih =>
    subst hn
    rw [readTop]
    refine (settles_readLeaf hc).bind fun leaf hleaf => ?_
    cases leaf with
    | some leaf =>
      have hleads := (laid_readLeaf hc hleaf).1
      exact (ih _ leaf.shorter (hleads.within hc) rfl).bind_ok
    | none =>
      simp only []
      split
      · exact settles_ok _
      · exact (settles_readClosingTag hc).bind fun _ _ => settles_error hc.place rfl
      · refine (settles_readOpeningTag hc).bind fun tag htag => ?_
        obtain ⟨hopening, hstart, _⟩ := laid_readOpeningTag hc htag
        have hwithin := hopening.within hc
        split
        · refine (settles_readRaw hwithin).bind fun raw hraw => ?_
          have hname := (tagFilled_readOpeningTag hc htag).1
          have hclosing := closingTag_readRaw hwithin hname hraw
          obtain ⟨close, hcontent, hclose, hvalue⟩ := readRaw_leads hraw
          rw [hvalue] at hclosing ⊢
          refine (settles_addRegion hc hstart hopening hcontent hclosing).bind fun _ _ => ?_
          have hall := (hopening.trans hcontent).trans hclose
          exact ih _ (Nat.lt_trans raw.shorter tag.shorter) (hall.within hc) rfl
        · refine (settles_readBodyWith hwithin (settles_readChildren hwithin)).bind
            fun body hbody => ?_
          have hleads :=
            (laid_readBodyWith hwithin (fun _ => laid_readChildren hwithin) hbody).1
          have hlt := Nat.lt_of_le_of_lt body.noLonger tag.shorter
          exact (ih _ hlt (hleads.within hwithin) rfl).bind_ok
      · exact settles_ok _

end Readers

/-- Every range in a component is a piece of its source, of whole characters, and every script and
expression was read from such a piece. -/
structure Component.Laid (scripts : ScriptReader) (component : Component) : Prop where
  nodes : ∀ n ∈ component.fragment,
    n.Laid (settingOf scripts component.source) component.source.toList
  blocks : ∀ s ∈ component.scripts, s.Laid scripts component.source.toList
  style : ∀ s, component.style = some s → s.Laid component.source.toList

theorem Component.laid_of_read {scripts : ScriptReader} {source : String} {component : Component}
    (h : Component.read scripts source = .ok component) :
    component.source = source ∧ component.Laid scripts := by
  obtain ⟨rfl, items, _, hlaid, hfragment, hscripts, _⟩ := laid_read h
  refine ⟨rfl, ?_, ?_, fun s hs => laid_style_of_read h hs⟩
  · intro n hn
    rw [hfragment] at hn
    obtain ⟨i, hi, hin⟩ := List.mem_filterMap.1 hn
    obtain rfl := TopItem.eq_node hin
    exact hlaid _ hi
  · intro s hs
    obtain ⟨i, hi, his⟩ := List.mem_filterMap.1 (hscripts.mem_iff.2 hs)
    obtain rfl := TopItem.eq_script his
    exact hlaid _ hi

/-- **Reading ends with a component, or at a place of the source.**  Every source is read or
refused: what is read has all its ranges in the source, and a refusal names an offset in the source,
between two characters, and never comes from a reader that cannot move on or from a bound on its
steps.  The one counter of open brackets that does not stop at zero by itself is never taken down
from there, so that it does not matter what taking it down would give. -/
theorem Component.read_settles (scripts : ScriptReader) (source : String) :
    ((∃ component, Component.read scripts source = .ok component ∧ component.source = source ∧
        component.Laid scripts) ∨
      ∃ e, Component.read scripts source = .error e ∧
        e.offset ≤ Text.byteLength source.toList ∧
        Text.isBoundary e.offset source.toList = true ∧ e.fault ≠ .stalled) ∧
    ∀ down : Nat → Nat, (∀ n, down (n + 1) = n) → ∀ open_ close depth c,
      closingBracketBy down open_ close depth c = closingBracket open_ close depth c := by
  refine ⟨?_, fun down hdown => closingBracketBy_eq hdown⟩
  have hsettles : Settles source.toList (Component.read scripts source) :=
    (settles_readTop (Cursor.within_start source.toList)).bind fun _ _ => settles_ok _
  cases hread : Component.read scripts source with
  | ok component =>
    obtain ⟨hsource, hlaid⟩ := Component.laid_of_read hread
    exact .inl ⟨component, rfl, hsource, hlaid⟩
  | error e =>
    have hplaced := hsettles e hread
    exact .inr ⟨e, rfl, hplaced.place.stop_le, hplaced.place.isBoundary, hplaced.moves⟩

end CssRune
