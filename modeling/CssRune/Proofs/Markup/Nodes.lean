/-
**Where the parts of markup are written.**

Nodes of markup fill the text they are read from: every node starts where the one before it ends,
and the children of an element fill the space between its tags.  Attributes are a row inside the
opening tag, and the pieces of a value a row inside its attribute.  Expressions are read from text
inside the node they belong to.

* `TextNode.Laid`, `ExpressionTag.Laid`, `AttributeNode.Laid`, `MarkupNode.Laid` — the layout of a
  node and all nodes below it;
* `laid_readExpressionTag`, `laid_readBraceNode` — tags in braces;
* `laid_readChunks`, `laid_readValue`, `laid_readAttributes` — what stands in an opening tag;
* `ChildrenStep`, `readChildren_eq_ok` — what the next step of reading children is;
* `laid_readLeaf`, `laid_readBodyWith`, `laid_readChildren` — **the nodes that are read fill the
  text up to where their reader stops**.
-/

import CssRune.Proofs.Markup.Braces
import CssRune.Proofs.Spans

set_option autoImplicit false

namespace CssRune

open Text

/-! ### Layouts -/

/-- The layout of a piece of text: its data is the text of its range. -/
structure TextNode.Laid (source : List Char) (t : TextNode) : Prop where
  cuts : t.span.Cuts source
  nonempty : t.span.start < t.span.stop
  data : t.data.toList = Text.slice source t.span

/-- The layout of an expression in braces: it is read from the text between them. -/
structure ExpressionTag.Laid (setting : ScriptSetting) (source : List Char) (tag : ExpressionTag) :
    Prop where
  cuts : tag.span.Cuts source
  nonempty : tag.span.start < tag.span.stop
  expression : tag.expression.ReadWithin setting source tag.span.start tag.span.stop

/-- Where a piece of a value is written. -/
def ValueChunk.span : ValueChunk → Span
  | text t => t.span
  | expression tag => tag.span

/-- The layout of a piece of a value. -/
def ValueChunk.Laid (setting : ScriptSetting) (source : List Char) : ValueChunk → Prop
  | text t => t.Laid source
  | expression tag => tag.Laid setting source

/-- The layout of a value that is written between two offsets. -/
def AttributeValue.LaidWithin (setting : ScriptSetting) (source : List Char) (lo hi : Nat) :
    AttributeValue → Prop
  | absent => True
  | expression tag => tag.Laid setting source ∧ lo ≤ tag.span.start ∧ tag.span.stop ≤ hi
  | chunks cs => Span.Row 0 lo hi (cs.map ValueChunk.span) ∧ ∀ c ∈ cs, c.Laid setting source

/-- The layout of what an attribute holds. -/
def AttributeNode.Holds (setting : ScriptSetting) (source : List Char) : AttributeNode → Prop
  | plain a => a.value.LaidWithin setting source a.span.start a.span.stop
  | spread s => s.expression.ReadWithin setting source s.span.start s.span.stop
  | directive d => ∀ tag, d.value = some tag →
      tag.Laid setting source ∧ d.span.start ≤ tag.span.start ∧ tag.span.stop ≤ d.span.stop

/-- The layout of an attribute. -/
structure AttributeNode.Laid (setting : ScriptSetting) (source : List Char) (a : AttributeNode) :
    Prop where
  cuts : a.span.Cuts source
  nonempty : a.span.start < a.span.stop
  holds : a.Holds setting source

/-- The layout of an element whose opening tag ends at `inner` and whose closing tag, if it has one,
starts at `close`: the attributes are a row in the opening tag and the children fill the space
between the tags. -/
structure ElementLaid (source : List Char) (attributes : List AttributeNode)
    (children : List MarkupNode) (span : Span) (inner close : Nat) : Prop where
  cuts : span.Cuts source
  row : Span.Row 0 (span.start + 1) inner (attributes.map AttributeNode.span)
  chain : Span.Chain inner close (children.map MarkupNode.span)
  inner_gt : span.start < inner
  close_le : close ≤ span.stop

/-- A node of markup and all nodes below it are laid out. -/
inductive MarkupNode.Laid (setting : ScriptSetting) (source : List Char) : MarkupNode → Prop where
  | element {name : String} {attributes : List AttributeNode} {children : List MarkupNode}
      {selfClosing : Bool} {span : Span} {inner close : Nat}
      (here : ElementLaid source attributes children span inner close)
      (attributes_laid : ∀ a ∈ attributes, AttributeNode.Laid setting source a)
      (below : ∀ n ∈ children, MarkupNode.Laid setting source n) :
      MarkupNode.Laid setting source (.element name attributes children selfClosing span)
  | text {t : TextNode} (here : t.Laid source) : MarkupNode.Laid setting source (.text t)
  | comment {t : TextNode} (cuts : t.span.Cuts source) (nonempty : t.span.start < t.span.stop) :
      MarkupNode.Laid setting source (.comment t)
  | expression {tag : ExpressionTag} (here : tag.Laid setting source) :
      MarkupNode.Laid setting source (.expression tag)
  | block {tag : BlockTag} (cuts : tag.span.Cuts source)
      (nonempty : tag.span.start < tag.span.stop)
      (here : ∀ e, tag.expression = some e →
        e.ReadWithin setting source tag.span.start tag.span.stop) :
      MarkupNode.Laid setting source (.block tag)

section Readers

variable {setting : ScriptSetting} {source : List Char} {c : Cursor} {cs : List Char}

/-! ### Tags in braces -/

/-- What is known where braces are read: the cursor after them, and the text between them. -/
theorem leads_of_braced {inside after : List Char} (hc : c.Within source)
    (hopen : c.rest = '\x7b' :: cs) (hb : braced cs = some (inside, after)) :
    c.Leads (c.moveTo after) ∧ c.pos < (c.moveTo after).pos ∧
      IsAt source (c.pos + 1) inside ∧
      c.pos + 1 + byteLength inside ≤ (c.moveTo after).pos := by
  obtain ⟨close, hcs⟩ := braced_eq hb
  have hrest : c.rest = ('\x7b' :: inside ++ [close]) ++ after := by
    rw [hopen, hcs]
    simp
  have hleads : c.Leads (c.moveTo after) := Cursor.leads_moveTo ⟨_, hrest.symm⟩
  have hpos := Cursor.pos_moveTo hrest
  have hbrace : '\x7b'.utf8Size = 1 := rfl
  rw [byteLength_append, byteLength_cons, hbrace] at hpos
  have hinside : IsAt source c.pos ('\x7b' :: (inside ++ close :: after)) := by
    rw [← hcs, ← hopen]
    exact hc
  exact ⟨hleads, by omega, hinside.tail.left, by omega⟩

variable {hopen : c.rest = '\x7b' :: cs} {s : Step MarkupNode c} {kind : BlockKind}
  {offset lo hi start : Nat} {text : List Char} {span : Span} {d : Cursor} {v : AttributeValue}
  {name parent : String} {ch : Char}

theorem laid_readExpressionTag {s : Step ExpressionTag c} (hc : c.Within source)
    (h : readExpressionTag setting c cs hopen = .ok s) :
    c.Leads s.next ∧ s.value.span = ⟨c.pos, s.next.pos⟩ ∧ s.value.Laid setting source := by
  unfold readExpressionTag at h
  split at h
  · cases h
  · rename_i inside after hb
    obtain ⟨e, he, h⟩ := bind_eq_ok_iff.1 h
    cases h
    obtain ⟨hleads, hlt, hinside, hle⟩ := leads_of_braced hc hopen hb
    have hread := readWithin_of_isAt hinside (isAt_self inside) he
    exact ⟨hleads, rfl, Span.cuts_of_leads hleads hc, hlt, hread.mono (Nat.le_succ _) hle⟩

/-- The expression of a block tag is read from what follows the keyword. -/
theorem readWithin_readBlockExpression {keyword : String} {e : Expression}
    (htext : IsAt source offset text)
    (h : readBlockExpression setting kind keyword offset text = .ok (some e)) :
    e.ReadWithin setting source offset (offset + byteLength text) := by
  obtain ⟨part, hpart, h⟩ := bind_eq_ok_iff.1 h
  cases part with
  | none => cases h
  | some part =>
    obtain ⟨start, inner⟩ := part
    obtain ⟨k, rfl, hinner⟩ := blockExpressionText_isAt hpart
    simp only [] at h
    split at h
    · split at h
      · cases h
      · cases h
    · obtain ⟨e', he, h⟩ := bind_eq_ok_iff.1 h
      cases h
      exact readWithin_of_isAt htext hinner he

theorem laid_readBlockTag {tag : BlockTag} (htext : IsAt source offset text)
    (h : readBlockTag setting kind offset text span = .ok tag) :
    tag.span = span ∧ ∀ e, tag.expression = some e →
      e.ReadWithin setting source offset (offset + byteLength text) := by
  simp only [readBlockTag] at h
  split at h
  · cases h
  · obtain ⟨e, he, h⟩ := bind_eq_ok_iff.1 h
    cases h
    refine ⟨rfl, ?_⟩
    rintro _ ⟨⟩
    have hsplit : text = text.takeWhile Char.isAlpha ++
        text.drop (text.takeWhile Char.isAlpha).length :=
      .symm <| List.prefix_iff_eq_append.1 <| List.takeWhile_prefix Char.isAlpha
    rw [hsplit] at htext
    have hlength := congrArg byteLength hsplit
    rw [byteLength_append] at hlength
    exact (readWithin_readBlockExpression htext.right he).mono (by omega) (by omega)

theorem BlockKind.utf8Size_of_ofSign? {sign : Char} (h : BlockKind.ofSign? sign = some kind) :
    sign.utf8Size = 1 := by
  unfold BlockKind.ofSign? at h
  split at h
  all_goals first | rfl | cases h

theorem laid_readBraceNode (hc : c.Within source) (h : readBraceNode setting c cs hopen = .ok s) :
    c.Leads s.next ∧ s.value.span = ⟨c.pos, s.next.pos⟩ ∧ s.value.Laid setting source := by
  have htag : ∀ s : Step MarkupNode c,
      (readExpressionTag setting c cs hopen).map (Step.map MarkupNode.expression) = .ok s →
      c.Leads s.next ∧ s.value.span = ⟨c.pos, s.next.pos⟩ ∧ s.value.Laid setting source := by
    intro s hs
    obtain ⟨t, ht, rfl⟩ := map_eq_ok_iff.1 hs
    obtain ⟨hleads, hspan, hlaid⟩ := laid_readExpressionTag hc ht
    exact ⟨hleads, hspan, .expression hlaid⟩
  unfold readBraceNode at h
  split at h
  · cases h
  · rename_i inside after hb
    simp only [] at h
    split at h
    · exact htag s h
    · rename_i sign text hsign
      split at h
      · exact htag s h
      · rename_i kind hkind
        obtain ⟨tag, ht, h⟩ := bind_eq_ok_iff.1 h
        cases h
        -- the tag is read from what follows the blanks and the sign
        obtain ⟨hleads, hlt, hinside, hle⟩ := leads_of_braced hc hopen hb
        have hsplit : inside = inside.takeWhile isSpace ++ sign :: text := by
          rw [← hsign, List.takeWhile_append_dropWhile]
        have hlength := congrArg byteLength hsplit
        rw [byteLength_append, byteLength_cons,
          BlockKind.utf8Size_of_ofSign? hkind] at hlength
        rw [hsplit] at hinside
        have htext := hinside.right.tail
        rw [BlockKind.utf8Size_of_ofSign? hkind] at htext
        obtain ⟨hspan, hread⟩ := laid_readBlockTag htext ht
        refine ⟨hleads, hspan, .block ?_ ?_ fun e he => ?_⟩
        · rw [hspan]
          exact Span.cuts_of_leads hleads hc
        · rw [hspan]
          exact hlt
        · rw [hspan]
          refine (hread e he).mono ?_ ?_
          · show c.pos ≤ _
            omega
          · show _ ≤ (c.moveTo after).pos
            omega

/-! ### Attributes -/

theorem laid_readBraceAttribute {s : Step AttributeNode c} (hc : c.Within source)
    (h : readBraceAttribute setting c cs hopen = .ok s) :
    c.Leads s.next ∧ s.value.span = ⟨c.pos, s.next.pos⟩ ∧ s.value.Laid setting source := by
  unfold readBraceAttribute at h
  split at h
  · cases h
  · rename_i inside after hb
    obtain ⟨hleads, hlt, hinside, hle⟩ := leads_of_braced hc hopen hb
    have hcuts := Span.cuts_of_leads hleads hc
    simp only [] at h
    split at h
    · rename_i text hdots
      obtain ⟨e, he, h⟩ := bind_eq_ok_iff.1 h
      cases h
      have hsplit : inside = (inside.takeWhile isBlank ++ ['.', '.', '.']) ++ text := by
        rw [List.append_assoc]
        show inside = inside.takeWhile isBlank ++ '.' :: '.' :: '.' :: text
        rw [← hdots, trimLeft, List.takeWhile_append_dropWhile]
      have htext : IsAt inside (byteLength (inside.takeWhile isBlank) + 3) text := by
        refine ⟨inside.takeWhile isBlank ++ ['.', '.', '.'], [], ?_, ?_⟩
        · rw [List.append_nil, ← hsplit]
        · rw [byteLength_append]
          rfl
      have hread := readWithin_of_isAt hinside htext he
      exact ⟨hleads, rfl, hcuts, hlt, hread.mono (Nat.le_succ _) hle⟩
    · split at h
      · cases h
      · obtain ⟨e, he, h⟩ := bind_eq_ok_iff.1 h
        cases h
        have hread := readWithin_of_isAt hinside (isAt_self inside) he
        have htag : ExpressionTag.Laid setting source ⟨e, ⟨c.pos, (c.moveTo after).pos⟩⟩ :=
          ⟨hcuts, hlt, hread.mono (Nat.le_succ _) hle⟩
        exact ⟨hleads, rfl, hcuts, hlt, htag, Nat.le_refl _, Nat.le_refl _⟩

theorem laid_textNode (hc : c.Within source) (h : c.Leads d) (hlt : d.length < c.length) :
    TextNode.Laid source ⟨String.ofList (c.upTo d), ⟨c.pos, d.pos⟩⟩ := by
  refine ⟨Span.cuts_of_leads h hc, h.pos_lt hlt, ?_⟩
  rw [String.toList_ofList]
  exact (h.slice hc).symm

theorem laid_textChunk (setting : ScriptSetting) (hc : c.Within source) (h : c.Leads d) :
    Span.Chain c.pos d.pos ((textChunk c d).map ValueChunk.span) ∧
      ∀ x ∈ textChunk c d, x.Laid setting source := by
  unfold textChunk
  split
  · rename_i hlt
    exact ⟨⟨rfl, h.pos_lt hlt, rfl⟩, List.forall_mem_singleton.2 (laid_textNode hc h hlt)⟩
  · rename_i hlt
    rw [h.eq_of_length hlt]
    exact ⟨rfl, by simp⟩

theorem leads_afterChunkText (stop : Char → Bool) (c : Cursor) : c.Leads (afterChunkText stop c) :=
  c.leads_skip _

/-- Text and expressions fill the text up to where their reader stops. -/
theorem laid_readChunks {stop : Char → Bool} {r : Pace (List ValueChunk) c} (hc : c.Within source)
    (h : readChunks setting stop c = .ok r) :
    c.Leads r.next ∧ Span.Chain c.pos r.next.pos (r.value.map ValueChunk.span) ∧
      ∀ x ∈ r.value, x.Laid setting source := by
  fun_induction readChunks setting stop c with
  | case1 c =>
    cases h
    have hleads := leads_afterChunkText stop c
    exact ⟨hleads, laid_textChunk setting hc hleads⟩
  | case2 c d cs hopen hstop =>
    rename_i ih
    obtain ⟨tag, htag, h⟩ := bind_eq_ok_iff.1 h
    obtain ⟨more, hmore, h⟩ := bind_eq_ok_iff.1 h
    cases h
    have hleads := leads_afterChunkText stop c
    obtain ⟨hchain, hlaid⟩ := laid_textChunk setting hc hleads
    obtain ⟨hstep, hspan, htagLaid⟩ := laid_readExpressionTag (hleads.within hc) htag
    obtain ⟨hrest, hchain', hlaid'⟩ := ih tag ((hleads.trans hstep).within hc) hmore
    have htagChain : Span.Chain (afterChunkText stop c).pos tag.next.pos [tag.value.span] := by
      rw [hspan]
      exact ⟨rfl, (hstep.pos_lt tag.shorter), rfl⟩
    refine ⟨(hleads.trans hstep).trans hrest, ?_, ?_⟩
    · rw [List.map_append]
      exact hchain.append (htagChain.append hchain')
    · rw [List.forall_mem_append, List.forall_mem_cons]
      exact ⟨hlaid, htagLaid, hlaid'⟩
  | case3 c =>
    cases h
    have hleads := leads_afterChunkText stop c
    exact ⟨hleads, laid_textChunk setting hc hleads⟩

theorem AttributeValue.LaidWithin.mono {lo' hi' : Nat} (h : v.LaidWithin setting source lo hi)
    (hlo : lo' ≤ lo) (hhi : hi ≤ hi') : v.LaidWithin setting source lo' hi' := by
  cases v with
  | absent => trivial
  | expression tag =>
    obtain ⟨hlaid, hstart, hstop⟩ := h
    exact ⟨hlaid, by omega, by omega⟩
  | chunks cs => exact ⟨h.1.mono hlo hhi, h.2⟩

theorem laid_readValue {s : Step AttributeValue c} (hc : c.Within source)
    (h : readValue setting c = .ok s) :
    c.Leads s.next ∧ s.value.LaidWithin setting source c.pos s.next.pos := by
  unfold readValue at h
  split at h
  · cases h
  · rename_i ch cs hcs
    split at h
    · obtain ⟨r, hr, h⟩ := bind_eq_ok_iff.1 h
      have hquote := Cursor.leads_moveTo_cons hcs
      obtain ⟨hleads, hchain, hlaid⟩ := laid_readChunks (hquote.within hc) hr
      split at h
      · rename_i after hafter
        split at h
        · cases h
          have hclose := Cursor.leads_moveTo_cons hafter
          have hrow := hchain.row.mono hquote.pos_le hclose.pos_le
          exact ⟨(hquote.trans hleads).trans hclose, hrow, hlaid⟩
        · cases h
      · cases h
    · split at h
      · obtain ⟨tag, htag, h⟩ := bind_eq_ok_iff.1 h
        cases h
        obtain ⟨hleads, hspan, hlaid⟩ := laid_readExpressionTag hc htag
        exact ⟨hleads, hlaid, Nat.le_of_eq (congrArg Span.start hspan).symm,
          Nat.le_of_eq (congrArg Span.stop hspan)⟩
      · obtain ⟨r, hr, h⟩ := bind_eq_ok_iff.1 h
        obtain ⟨hleads, hchain, hlaid⟩ := laid_readChunks hc hr
        split at h
        · cases h
          exact ⟨hleads, hchain.row, hlaid⟩
        · cases h

theorem laid_readOptionalValue {p : Pace AttributeValue c} (hc : c.Within source)
    (h : readOptionalValue setting c = .ok p) :
    c.Leads p.next ∧ p.value.LaidWithin setting source c.pos p.next.pos := by
  unfold readOptionalValue at h
  split at h
  · rename_i cs hcs
    obtain ⟨v, hv, h⟩ := bind_eq_ok_iff.1 h
    cases h
    have hsign := (c.leads_skipSpace.trans (Cursor.leads_moveTo_cons hcs)).trans
      (Cursor.leads_skipSpace _)
    obtain ⟨hleads, hlaid⟩ := laid_readValue (hsign.within hc) hv
    exact ⟨hsign.trans hleads, hlaid.mono hsign.pos_le (Nat.le_refl _)⟩
  · cases h
    exact ⟨Cursor.Leads.refl c, trivial⟩

theorem laid_directiveValue {t : Option ExpressionTag} (hv : v.LaidWithin setting source lo hi)
    (h : directiveValue v start = .ok t) :
    ∀ tag, t = some tag → tag.Laid setting source ∧ lo ≤ tag.span.start ∧ tag.span.stop ≤ hi := by
  unfold directiveValue at h
  split at h
  · cases h
    simp
  · cases h
    rintro _ ⟨⟩
    exact hv
  · cases h
    rintro _ ⟨⟩
    obtain ⟨hstart, _, hstop⟩ := hv.1.inside _ (List.mem_singleton.2 rfl)
    exact ⟨hv.2 _ (List.mem_singleton.2 rfl), hstart, hstop⟩
  · cases h

/-- An attribute holds the value that was read for it, whatever its name says. -/
theorem laid_attributeOf {name : List Char} {a : AttributeNode} (hcuts : span.Cuts source)
    (hne : span.start < span.stop) (hv : v.LaidWithin setting source span.start span.stop)
    (h : attributeOf name v span = .ok a) : a.span = span ∧ a.Laid setting source := by
  simp only [attributeOf] at h
  split at h
  · cases h
    exact ⟨rfl, hcuts, hne, hv⟩
  · split at h
    · unfold directiveOf at h
      split at h
      · cases h
      · split at h
        · cases h
        · obtain ⟨t, ht, h⟩ := bind_eq_ok_iff.1 h
          cases h
          exact ⟨rfl, hcuts, hne, laid_directiveValue hv ht⟩
    · cases h
      exact ⟨rfl, hcuts, hne, hv⟩

theorem afterAttributeName_suffix (cs : List Char) : afterAttributeName cs <:+ cs := by
  fun_induction afterAttributeName cs with
  | case1 => exact List.suffix_refl _
  | case2 => exact List.suffix_refl _
  | case3 => exact List.suffix_refl _
  | case4 c cs _ _ ih => exact ih.trans (List.suffix_cons c cs)

theorem laid_readAttribute {s : Step AttributeNode c} (hc : c.Within source)
    (h : readAttribute setting c = .ok s) :
    c.Leads s.next ∧ s.value.span = ⟨c.pos, s.next.pos⟩ ∧ s.value.Laid setting source := by
  simp only [readAttribute] at h
  split at h
  · rename_i hlt
    obtain ⟨v, hv, h⟩ := bind_eq_ok_iff.1 h
    obtain ⟨a, ha, h⟩ := bind_eq_ok_iff.1 h
    cases h
    have hname := Cursor.leads_moveTo (afterAttributeName_suffix c.rest)
    obtain ⟨hleads, hlaid⟩ := laid_readOptionalValue (hname.within hc) hv
    have hall := hname.trans hleads
    have hpos : c.pos < v.next.pos :=
      Nat.lt_of_lt_of_le (hname.pos_lt hlt) hleads.pos_le
    obtain ⟨hspan, ha'⟩ := laid_attributeOf (Span.cuts_of_leads hall hc) hpos
      (hlaid.mono hname.pos_le (Nat.le_refl _)) ha
    exact ⟨hall, hspan, ha'⟩
  · cases h

theorem laid_readOneAttribute {hcs : c.rest = ch :: cs} {s : Step AttributeNode c}
    (hc : c.Within source) (h : readOneAttribute setting c ch cs hcs = .ok s) :
    c.Leads s.next ∧ s.value.span = ⟨c.pos, s.next.pos⟩ ∧ s.value.Laid setting source := by
  unfold readOneAttribute at h
  split at h
  · exact laid_readBraceAttribute hc h
  · exact laid_readAttribute hc h

/-- The attributes of a tag are a row in it. -/
theorem laid_readAttributes {s : Step (List AttributeNode × Bool) c} (hc : c.Within source)
    (h : readAttributes setting name c = .ok s) :
    c.Leads s.next ∧ Span.Row 0 c.pos s.next.pos (s.value.1.map AttributeNode.span) ∧
      ∀ a ∈ s.value.1, a.Laid setting source := by
  fun_induction readAttributes setting name c with
  | case1 => cases h
  | case2 c d cs =>
    rename_i hd
    cases h
    exact ⟨c.leads_skipSpace.trans (Cursor.leads_moveTo_cons hd), Span.Row.nil _ _ _, by simp⟩
  | case3 c d ch cs hd _ =>
    cases h
    have hend : cs.drop 1 <:+ d.rest := hd ▸ (List.drop_suffix 1 cs).trans (List.suffix_cons ch cs)
    exact ⟨c.leads_skipSpace.trans (Cursor.leads_moveTo hend), Span.Row.nil _ _ _, by simp⟩
  | case4 c d ch cs hd _ _ =>
    rename_i ih
    obtain ⟨a, ha, h⟩ := bind_eq_ok_iff.1 h
    obtain ⟨more, hmore, h⟩ := bind_eq_ok_iff.1 h
    cases h
    have hspace := c.leads_skipSpace
    obtain ⟨hleads, hspan, hlaid⟩ := laid_readOneAttribute (hspace.within hc) ha
    obtain ⟨hrest, hrow, hall⟩ := ih a ((hspace.trans hleads).within hc) hmore
    refine ⟨(hspace.trans hleads).trans hrest, ?_, List.forall_mem_cons.2 ⟨hlaid, hall⟩⟩
    show Span.Row 0 c.pos more.next.pos (a.value.span :: more.value.1.map AttributeNode.span)
    rw [hspan]
    exact Span.Row.cons hspace.pos_le (hleads.pos_lt a.shorter) hrest.pos_le hrow

/-! ### Tags -/

theorem laid_readOpeningTag {hopen : c.rest = '<' :: cs} {s : Step OpeningTag c}
    (hc : c.Within source) (h : readOpeningTag setting c cs hopen = .ok s) :
    c.Leads s.next ∧ s.value.start = c.pos ∧
      Span.Row 0 (c.pos + 1) s.next.pos (s.value.attributes.map AttributeNode.span) ∧
      ∀ a ∈ s.value.attributes, a.Laid setting source := by
  unfold readOpeningTag at h
  split at h
  · obtain ⟨r, hr, h⟩ := bind_eq_ok_iff.1 h
    cases h
    have hsuffix : cs.dropWhile isTagChar <:+ cs := List.dropWhile_suffix isTagChar
    have hname : c.Leads (c.moveTo (cs.dropWhile isTagChar)) :=
      Cursor.leads_moveTo (hopen ▸ hsuffix.trans (List.suffix_cons _ cs))
    have hpos := hname.pos_lt (Cursor.length_moveTo_lt_of_le hopen hsuffix.length_le)
    obtain ⟨hleads, hrow, hlaid⟩ := laid_readAttributes (hname.within hc) hr
    exact ⟨hname.trans hleads, rfl, hrow.mono hpos (Nat.le_refl _), hlaid⟩
  · cases h

theorem readClosingTag_leads {hopen : c.rest = '<' :: '/' :: cs} {s : Step String c}
    (h : readClosingTag c cs hopen = .ok s) : c.Leads s.next := by
  unfold readClosingTag at h
  split at h
  · rename_i after hafter
    cases h
    refine Cursor.leads_moveTo ?_
    have hrest : after <:+ cs :=
      ((hafter ▸ List.suffix_cons '>' after).trans (List.dropWhile_suffix _)).trans
        (List.dropWhile_suffix _)
    rw [hopen]
    exact hrest.trans ⟨['<', '/'], rfl⟩
  · cases h

/-! ### Contents that are not markup -/

/-- Raw content is the text up to the closing tag. -/
theorem readRaw_leads {s : Step RawContent c} (h : readRaw name c = .ok s) :
    ∃ d, c.Leads d ∧ d.Leads s.next ∧
      s.value = ⟨String.ofList (c.upTo d), ⟨c.pos, d.pos⟩⟩ := by
  unfold readRaw at h
  split at h
  · cases h
  · rename_i closing hclosing
    split at h
    · cases h
    · rename_i ch after hafter
      cases h
      have hfound := find_suffix hclosing
      have hafter' : after <:+ closing :=
        (hafter ▸ List.suffix_cons ch after).trans (List.dropWhile_suffix _)
      refine ⟨c.moveTo closing, Cursor.leads_moveTo hfound, ?_, rfl⟩
      obtain ⟨piece, rfl⟩ := hafter'
      obtain ⟨front, hfront⟩ := hfound
      refine ⟨piece, rfl, ?_⟩
      rw [Cursor.pos_moveTo hfront.symm, Cursor.pos_moveTo (hfront.symm.trans
        (List.append_assoc front piece after).symm), byteLength_append, Nat.add_assoc]

/-- The nodes fill the text from one offset up to a closing tag that ends at another. -/
def NodesLaid (setting : ScriptSetting) (source : List Char) (lo hi : Nat)
    (nodes : List MarkupNode) : Prop :=
  (∃ close, Span.Chain lo close (nodes.map MarkupNode.span) ∧ close ≤ hi) ∧
    ∀ n ∈ nodes, n.Laid setting source

theorem laid_textNodes (setting : ScriptSetting) (hc : c.Within source) (h : c.Leads d) :
    Span.Chain c.pos d.pos ((textNode c d).map MarkupNode.span) ∧
      ∀ n ∈ textNode c d, n.Laid setting source := by
  unfold textNode
  split
  · rename_i hlt
    exact ⟨⟨rfl, h.pos_lt hlt, rfl⟩,
      List.forall_mem_singleton.2 (.text (laid_textNode hc h hlt))⟩
  · rename_i hlt
    rw [h.eq_of_length hlt]
    exact ⟨rfl, by simp⟩

theorem laid_readTextarea {s : Step (List MarkupNode) c} (hc : c.Within source)
    (h : readTextarea setting start c = .ok s) :
    c.Leads s.next ∧ NodesLaid setting source c.pos s.next.pos s.value := by
  fun_induction readTextarea setting start c with
  | case1 => cases h
  | case2 c closing _ d cs hopen =>
    rename_i ih
    obtain ⟨tag, htag, h⟩ := bind_eq_ok_iff.1 h
    obtain ⟨more, hmore, h⟩ := bind_eq_ok_iff.1 h
    cases h
    have htext : c.Leads d := c.leads_skip _
    obtain ⟨hchain, hlaid⟩ := laid_textNodes setting hc htext
    obtain ⟨hstep, hspan, htagLaid⟩ := laid_readExpressionTag (htext.within hc) htag
    obtain ⟨hrest, ⟨close, hchain', hclose⟩, hlaid'⟩ :=
      ih tag ((htext.trans hstep).within hc) hmore
    have htagChain : Span.Chain d.pos tag.next.pos [tag.value.span] := by
      rw [hspan]
      exact ⟨rfl, hstep.pos_lt tag.shorter, rfl⟩
    refine ⟨(htext.trans hstep).trans hrest, ⟨close, ?_, hclose⟩, ?_⟩
    · rw [Step.value_map, List.map_append]
      exact hchain.append (htagChain.append hchain')
    · rw [Step.value_map, List.forall_mem_append, List.forall_mem_cons]
      exact ⟨hlaid, .expression htagLaid, hlaid'⟩
  | case3 c closing _ d cs =>
    obtain ⟨tag, htag, h⟩ := bind_eq_ok_iff.1 h
    cases h
    have htext : c.Leads d := c.leads_skip _
    have hstep := readClosingTag_leads htag
    obtain ⟨hchain, hlaid⟩ := laid_textNodes setting hc htext
    exact ⟨htext.trans hstep, ⟨d.pos, hchain, hstep.pos_le⟩, hlaid⟩
  | case4 => cases h

/-! ### Nodes -/

theorem laid_readComment {hopen : c.rest = '<' :: '!' :: '-' :: '-' :: cs} (hc : c.Within source)
    (h : readComment c cs hopen = .ok s) :
    c.Leads s.next ∧ s.value.span = ⟨c.pos, s.next.pos⟩ ∧ s.value.Laid setting source := by
  unfold readComment at h
  split at h
  · cases h
  · rename_i closing hclosing
    have hsuffix : closing.drop 3 <:+ c.rest := by
      rw [hopen]
      exact ((List.drop_suffix 3 closing).trans (find_suffix hclosing)).trans
        ⟨['<', '!', '-', '-'], rfl⟩
    have hleads := Cursor.leads_moveTo hsuffix
    have hshort := s.shorter
    cases h
    exact ⟨hleads, rfl, .comment (Span.cuts_of_leads hleads hc) (hleads.pos_lt hshort)⟩

theorem laid_readDeclarationTag {hopen : c.rest = '<' :: '!' :: cs} (hc : c.Within source)
    (h : readDeclarationTag c cs hopen = .ok s) :
    c.Leads s.next ∧ s.value.span = ⟨c.pos, s.next.pos⟩ ∧ s.value.Laid setting source := by
  unfold readDeclarationTag at h
  split at h
  · cases h
  · rename_i ch rest hrest
    have hsuffix : rest <:+ c.rest := by
      rw [hopen]
      exact ((hrest ▸ List.suffix_cons ch rest).trans (List.dropWhile_suffix _)).trans
        ⟨['<', '!'], rfl⟩
    have hleads := Cursor.leads_moveTo hsuffix
    have hshort := s.shorter
    cases h
    exact ⟨hleads, rfl, .comment (Span.cuts_of_leads hleads hc) (hleads.pos_lt hshort)⟩

theorem laid_readText {hcs : c.rest = ch :: cs} (hc : c.Within source) :
    c.Leads (readText c ch cs hcs).next ∧
      (readText c ch cs hcs).value.span = ⟨c.pos, (readText c ch cs hcs).next.pos⟩ ∧
      (readText c ch cs hcs).value.Laid setting source := by
  have hleads : c.Leads (readText c ch cs hcs).next := by
    refine Cursor.leads_moveTo ?_
    rw [hcs]
    exact (List.dropWhile_suffix _).trans (List.suffix_cons ch cs)
  exact ⟨hleads, rfl, .text (laid_textNode hc hleads (readText c ch cs hcs).shorter)⟩

/-- A node without children takes the text up to where its reader stops. -/
theorem laid_readLeaf (hc : c.Within source) (h : readLeaf setting c = .ok (some s)) :
    c.Leads s.next ∧ s.value.span = ⟨c.pos, s.next.pos⟩ ∧ s.value.Laid setting source := by
  unfold readLeaf at h
  split at h
  · cases h
  · obtain ⟨t, ht, h⟩ := map_eq_ok_iff.1 h
    exact laid_readComment hc (Option.some.inj h ▸ ht)
  · obtain ⟨t, ht, h⟩ := map_eq_ok_iff.1 h
    exact laid_readDeclarationTag hc (Option.some.inj h ▸ ht)
  · cases h
  · obtain ⟨t, ht, h⟩ := map_eq_ok_iff.1 h
    exact laid_readBraceNode hc (Option.some.inj h ▸ ht)
  · cases h
    exact laid_readText hc

theorem rest_of_readLeaf_none (h : readLeaf setting c = .ok none) :
    c.rest = [] ∨ ∃ cs, c.rest = '<' :: cs := by
  unfold readLeaf at h
  split at h
  · exact .inl ‹_›
  · obtain ⟨_, _, h⟩ := map_eq_ok_iff.1 h
    cases h
  · obtain ⟨_, _, h⟩ := map_eq_ok_iff.1 h
    cases h
  · exact .inr ⟨_, ‹_›⟩
  · obtain ⟨_, _, h⟩ := map_eq_ok_iff.1 h
    cases h
  · cases h

theorem laid_readBodyWith {tag : OpeningTag}
    {children : Unit → Except ParseError (Step (List MarkupNode) c)}
    {p : Pace (List MarkupNode) c} (hc : c.Within source)
    (hchildren : ∀ s, children () = .ok s →
      c.Leads s.next ∧ NodesLaid setting source c.pos s.next.pos s.value)
    (h : readBodyWith setting tag c children = .ok p) :
    c.Leads p.next ∧ NodesLaid setting source c.pos p.next.pos p.value := by
  unfold readBodyWith at h
  split at h
  · cases h
    exact ⟨Cursor.Leads.refl c, ⟨c.pos, rfl, Nat.le_refl _⟩, by simp⟩
  · split at h
    · obtain ⟨r, hr, h⟩ := bind_eq_ok_iff.1 h
      cases h
      exact laid_readTextarea hc hr
    · split at h
      · obtain ⟨r, hr, h⟩ := bind_eq_ok_iff.1 h
        cases h
        obtain ⟨d, hleads, hclose, hvalue⟩ := readRaw_leads hr
        refine ⟨hleads.trans hclose, ?_⟩
        show NodesLaid setting source c.pos r.next.pos
          (if r.value.span.isEmpty then [] else [.text ⟨r.value.text, r.value.span⟩])
        rw [hvalue]
        split
        · exact ⟨⟨c.pos, rfl, (hleads.trans hclose).pos_le⟩, by simp⟩
        · rename_i hempty
          have hlt : c.pos < d.pos := Nat.lt_of_not_le fun hle => hempty (decide_eq_true hle)
          have hshort : d.length < c.length := by
            refine Classical.byContradiction fun hlong => ?_
            rw [hleads.eq_of_length hlong] at hlt
            exact Nat.lt_irrefl _ hlt
          exact ⟨⟨d.pos, ⟨rfl, hlt, rfl⟩, hclose.pos_le⟩,
            List.forall_mem_singleton.2 (.text (laid_textNode hc hleads hshort))⟩
      · obtain ⟨r, hr, h⟩ := bind_eq_ok_iff.1 h
        cases h
        exact hchildren r hr

/-- An element is laid out if its opening tag and what it holds are. -/
theorem laid_elementOf {hopen : c.rest = '<' :: cs} {tag : Step OpeningTag c}
    {body : Pace (List MarkupNode) tag.next} (hc : c.Within source)
    (htag : readOpeningTag setting c cs hopen = .ok tag) (hleads : tag.next.Leads body.next)
    (hbody : NodesLaid setting source tag.next.pos body.next.pos body.value) :
    c.Leads body.next ∧ c.pos < body.next.pos ∧
      (elementOf tag.value body.value body.next.pos).span = ⟨c.pos, body.next.pos⟩ ∧
      (elementOf tag.value body.value body.next.pos).Laid setting source := by
  obtain ⟨hopening, hstart, hrow, hattributes⟩ := laid_readOpeningTag hc htag
  obtain ⟨⟨close, hchain, hclose⟩, hnodes⟩ := hbody
  have hpos := hopening.pos_lt tag.shorter
  have hall := hopening.trans hleads
  have hspan : (elementOf tag.value body.value body.next.pos).span = ⟨c.pos, body.next.pos⟩ :=
    congrArg (Span.mk · body.next.pos) hstart
  refine ⟨hall, Nat.lt_of_lt_of_le hpos hleads.pos_le, hspan, ?_⟩
  rw [elementOf, hstart]
  exact .element ⟨Span.cuts_of_leads hall hc, hrow, hchain, hpos, hclose⟩ hattributes hnodes

/-- What the next step of reading children is: a node without children, an element, or the closing
tag of the parent. -/
inductive ChildrenStep (setting : ScriptSetting) (parent : String) (c : Cursor) :
    List MarkupNode → Cursor → Prop where
  | closing {cs : List Char} {hopen : c.rest = '<' :: '/' :: cs} {tag : Step String c}
      (htag : readClosingTag c cs hopen = .ok tag) (hname : tag.value = parent) :
      ChildrenStep setting parent c [] tag.next
  | leaf {leaf : Step MarkupNode c} {more : Step (List MarkupNode) leaf.next}
      (hleaf : readLeaf setting c = .ok (some leaf))
      (hmore : readChildren setting parent leaf.next = .ok more) :
      ChildrenStep setting parent c (leaf.value :: more.value) more.next
  | element {cs : List Char} {hopen : c.rest = '<' :: cs} {tag : Step OpeningTag c}
      {body : Pace (List MarkupNode) tag.next} {more : Step (List MarkupNode) body.next}
      (htag : readOpeningTag setting c cs hopen = .ok tag)
      (hbody : readBodyWith setting tag.value tag.next
        (fun _ => readChildren setting tag.value.name tag.next) = .ok body)
      (hmore : readChildren setting parent body.next = .ok more) :
      ChildrenStep setting parent c (elementOf tag.value body.value body.next.pos :: more.value)
        more.next

theorem readChildren_eq_ok {s : Step (List MarkupNode) c}
    (h : readChildren setting parent c = .ok s) : ChildrenStep setting parent c s.value s.next := by
  rw [readChildren] at h
  obtain ⟨leaf, hleaf, h⟩ := bind_eq_ok_iff.1 h
  cases leaf with
  | some leaf =>
    obtain ⟨more, hmore, h⟩ := bind_eq_ok_iff.1 h
    cases h
    exact .leaf hleaf hmore
  | none =>
    simp only [] at h
    split at h
    · obtain ⟨tag, htag, h⟩ := bind_eq_ok_iff.1 h
      split at h
      · rename_i hname
        cases h
        exact .closing htag hname
      · cases h
    · obtain ⟨tag, htag, h⟩ := bind_eq_ok_iff.1 h
      obtain ⟨body, hbody, h⟩ := bind_eq_ok_iff.1 h
      obtain ⟨more, hmore, h⟩ := bind_eq_ok_iff.1 h
      cases h
      exact .element htag hbody hmore
    · cases h

/-- A first node and the children after it. -/
theorem NodesLaid.cons {e : Cursor} {node : MarkupNode} {nodes : List MarkupNode}
    (hleads : c.Leads d) (hlt : d.length < c.length) (hspan : node.span = ⟨c.pos, d.pos⟩)
    (hlaid : node.Laid setting source)
    (h : d.Leads e ∧ NodesLaid setting source d.pos e.pos nodes) :
    c.Leads e ∧ NodesLaid setting source c.pos e.pos (node :: nodes) := by
  obtain ⟨hrest, ⟨close, hchain, hclose⟩, hall⟩ := h
  refine ⟨hleads.trans hrest, ⟨close, ?_, hclose⟩, List.forall_mem_cons.2 ⟨hlaid, hall⟩⟩
  rw [List.map_cons, hspan]
  exact ⟨rfl, hleads.pos_lt hlt, hchain⟩

/-- The children of an element fill the text up to its closing tag. -/
theorem laid_readChildren {s : Step (List MarkupNode) c} (hc : c.Within source)
    (h : readChildren setting parent c = .ok s) :
    c.Leads s.next ∧ NodesLaid setting source c.pos s.next.pos s.value := by
  induction hn : c.length using Nat.strongRecOn generalizing parent c with
  | ind n ih =>
    subst hn
    have hstep := readChildren_eq_ok h
    generalize s.value = nodes at hstep ⊢
    generalize s.next = next at hstep ⊢
    cases hstep with
    | closing htag =>
      have hleads := readClosingTag_leads htag
      exact ⟨hleads, ⟨c.pos, rfl, hleads.pos_le⟩, by simp⟩
    | @leaf leaf more hleaf hmore =>
      obtain ⟨hleads, hspan, hlaid⟩ := laid_readLeaf hc hleaf
      exact NodesLaid.cons hleads leaf.shorter hspan hlaid
        (ih _ leaf.shorter (hleads.within hc) hmore rfl)
    | @element cs hopen tag body more htag hbody hmore =>
      -- the induction covers both the children of the element and its siblings
      have hwithin := (laid_readOpeningTag hc htag).1.within hc
      obtain ⟨hleads, hnodes⟩ := laid_readBodyWith hwithin
        (fun t ht => ih _ tag.shorter hwithin ht rfl) hbody
      obtain ⟨hall, _, hspan, hlaid⟩ := laid_elementOf hc htag hleads hnodes
      have hlt := Nat.lt_of_le_of_lt body.noLonger tag.shorter
      exact NodesLaid.cons hall hlt hspan hlaid (ih _ hlt (hall.within hc) hmore rfl)

end Readers

end CssRune
