/-
**Reading a component loses no text and takes none twice.**

The nodes, scripts and stylesheet at the top level tile the source.  Below that every element is its
opening tag, its children and its closing tag, without a gap between the three: in the opening tag
nothing but blanks stands between the name, the attributes and the end of the tag, and the children
tile what is left between the two tags.

* `BlankBetween`, `TagFilled`, `ClosingTag` — the text of tags;
* `ElementTiled`, `MarkupNode.Tiled`, `Component.Tiled` — tiled elements, nodes and components;
* `tiled_readChildren`, `tiled_readTop` — **every node that is read is tiled**;
* `Component.tiled_of_read` — **a component that is read is tiled**.
-/

import CssRune.Proofs.Components
import CssRune.Script.Grammar

set_option autoImplicit false

namespace CssRune

open Text

/-! ### The text of tags -/

/-- Blanks fill the text between two offsets. -/
def BlankBetween (source : List Char) (lo hi : Nat) : Prop :=
  ∃ blanks, (∀ ch ∈ blanks, Text.isSpace ch = true) ∧ Text.IsAt source lo blanks ∧
    hi = lo + Text.byteLength blanks

/-- What ends an opening tag. -/
def tagEnd (selfClosing : Bool) : List Char := if selfClosing then ['/', '>'] else ['>']

/-- What follows the name in an opening tag that ends at `hi`: ranges with blanks around them, and
then the end of the tag. -/
def TagFilled (source : List Char) (selfClosing : Bool) (hi : Nat) : Nat → List Span → Prop
  | lo, [] => ∃ last, BlankBetween source lo last ∧ Text.IsAt source last (tagEnd selfClosing) ∧
      hi = last + Text.byteLength (tagEnd selfClosing)
  | lo, s :: ss => BlankBetween source lo s.start ∧ s.start < s.stop ∧
      TagFilled source selfClosing hi s.stop ss

/-- The closing tag of an element takes the text between two offsets. -/
def ClosingTag (source : List Char) (name : String) (lo hi : Nat) : Prop :=
  ∃ rest, '>' ∉ rest ∧ Text.IsAt source lo ('<' :: '/' :: (name.toList ++ rest ++ ['>'])) ∧
    hi = lo + Text.byteLength ('<' :: '/' :: (name.toList ++ rest ++ ['>']))

/-! ### Tiled trees -/

/-- The pieces of text in the value of an attribute. -/
def AttributeNode.texts : AttributeNode → List TextNode
  | plain ⟨_, .chunks cs, _⟩ => cs.filterMap fun
      | .text t => some t
      | .expression _ => none
  | _ => []

/-- An element whose opening tag ends at `inner` and whose closing tag starts at `close`.  The
attributes are a row in the opening tag with blanks around them, and the children tile the text
between the tags.  An element that closes itself, or never has content, ends with its opening
tag. -/
structure ElementTiled (source : List Char) (name : String) (attributes : List AttributeNode)
    (children : List MarkupNode) (selfClosing : Bool) (span : Span) (inner close : Nat) : Prop where
  opening : Text.IsAt source span.start ('<' :: name.toList)
  filled : TagFilled source selfClosing inner (span.start + Text.byteLength ('<' :: name.toList))
    (attributes.map AttributeNode.span)
  row : Span.Row 0 (span.start + Text.byteLength ('<' :: name.toList)) inner
    (attributes.map AttributeNode.span)
  chain : Span.Chain inner close (children.map MarkupNode.span)
  bare : (selfClosing || voidElements.contains name) = true → children = [] ∧ close = span.stop
  closed : (selfClosing || voidElements.contains name) = false →
    ClosingTag source name close span.stop

/-- A node of markup and all nodes below it are tiled, and every piece of text in them holds the
text of its range. -/
inductive MarkupNode.Tiled (source : List Char) : MarkupNode → Prop where
  | element {name : String} {attributes : List AttributeNode} {children : List MarkupNode}
      {selfClosing : Bool} {span : Span} {inner close : Nat}
      (here : ElementTiled source name attributes children selfClosing span inner close)
      (values : ∀ a ∈ attributes, ∀ t ∈ a.texts, t.Laid source)
      (below : ∀ n ∈ children, MarkupNode.Tiled source n) :
      MarkupNode.Tiled source (.element name attributes children selfClosing span)
  | text {t : TextNode} (here : t.Laid source) : MarkupNode.Tiled source (.text t)
  | comment (t : TextNode) : MarkupNode.Tiled source (.comment t)
  | expression (tag : ExpressionTag) : MarkupNode.Tiled source (.expression tag)
  | block (tag : BlockTag) : MarkupNode.Tiled source (.block tag)

/-- The nodes, scripts and stylesheet at the top level tile the source, in the order of their
places, and every node is tiled. -/
structure Component.Tiled (component : Component) : Prop where
  top : ∃ ranges : List Span, Span.Chain 0 (Text.byteLength component.source.toList) ranges ∧
    ranges.Perm (component.fragment.map MarkupNode.span ++ component.scripts.map ScriptBlock.span ++
      component.style.toList.map StyleSheet.span)
  below : ∀ n ∈ component.fragment, n.Tiled component.source.toList

/-- Whether a node is an element. -/
def MarkupNode.isElement : MarkupNode → Bool
  | element .. => true
  | _ => false

variable {setting : ScriptSetting} {source : List Char}

theorem AttributeNode.Laid.laid_of_mem_texts {a : AttributeNode} (h : a.Laid setting source) :
    ∀ t ∈ a.texts, t.Laid source := by
  intro t ht
  unfold texts at ht
  split at ht
  · obtain ⟨chunk, hchunk, hsome⟩ := List.mem_filterMap.1 ht
    have hlaid := h.holds.2 chunk hchunk
    cases chunk with
    | text t' =>
      cases hsome
      exact hlaid
    | expression tag => cases hsome
  · simp at ht

theorem MarkupNode.Laid.tiled {n : MarkupNode} (h : n.Laid setting source)
    (hn : n.isElement = false) : n.Tiled source := by
  cases h with
  | element => cases hn
  | text here => exact .text here
  | comment => exact .comment _
  | expression => exact .expression _
  | block => exact .block _

section Readers

variable {setting : ScriptSetting} {source : List Char} {c : Cursor} {cs : List Char}

/-! ### Opening tags -/

theorem blankBetween_skipSpace (hc : c.Within source) :
    BlankBetween source c.pos c.skipSpace.pos := by
  have hsplit : c.rest = c.rest.takeWhile isSpace ++ c.rest.dropWhile isSpace :=
    List.takeWhile_append_dropWhile.symm
  refine ⟨c.rest.takeWhile isSpace, fun ch hch => List.mem_takeWhile_imp hch, ?_,
    Cursor.pos_moveTo hsplit⟩
  rw [Cursor.Within, hsplit] at hc
  exact hc.left

variable {selfClosing : Bool} {after : List Char} {lo hi : Nat} {name : String} {s : Step String c}
  {hopen : c.rest = '<' :: cs} {nodes more : List MarkupNode} {d : Cursor}

theorem tagFilled_nil (hc : c.Within source)
    (hend : c.skipSpace.rest = tagEnd selfClosing ++ after) :
    TagFilled source selfClosing (c.skipSpace.moveTo after).pos c.pos [] := by
  refine ⟨c.skipSpace.pos, blankBetween_skipSpace hc, ?_, Cursor.pos_moveTo hend⟩
  have hwithin := c.leads_skipSpace.within hc
  rw [Cursor.Within, hend] at hwithin
  exact hwithin.left

theorem TagFilled.row {ss : List Span} (h : TagFilled source selfClosing hi lo ss) :
    lo ≤ hi ∧ Span.Row 0 lo hi ss := by
  induction ss generalizing lo with
  | nil =>
    obtain ⟨last, ⟨blanks, _, _, hlast⟩, _, hhi⟩ := h
    exact ⟨by omega, Span.Row.nil 0 lo hi⟩
  | cons s ss ih =>
    obtain ⟨⟨blanks, _, _, hstart⟩, hlt, hrest⟩ := h
    obtain ⟨hle, hrow⟩ := ih hrest
    exact ⟨by omega, Span.Row.cons (by omega) hlt hle hrow⟩

/-- Attributes fill the tag up to its end. -/
theorem tagFilled_readAttributes {s : Step (List AttributeNode × Bool) c} (hc : c.Within source)
    (h : readAttributes setting name c = .ok s) :
    TagFilled source s.value.2 s.next.pos c.pos (s.value.1.map AttributeNode.span) := by
  fun_induction readAttributes setting name c with
  | case1 => cases h
  | case2 c d cs =>
    rename_i hd
    cases h
    exact tagFilled_nil hc hd
  | case3 c d ch cs hd _ =>
    rename_i hslash
    cases h
    obtain ⟨rfl, hangle⟩ := hslash
    obtain ⟨after, rfl⟩ : ∃ after, cs = '>' :: after := List.head?_eq_some_iff.1 hangle
    exact tagFilled_nil hc hd
  | case4 c d ch cs hd _ _ =>
    rename_i ih
    obtain ⟨a, ha, h⟩ := bind_eq_ok_iff.1 h
    obtain ⟨more, hmore, h⟩ := bind_eq_ok_iff.1 h
    cases h
    have hspace := c.leads_skipSpace
    obtain ⟨hleads, hspan, _⟩ := laid_readOneAttribute (hspace.within hc) ha
    have hfilled := ih a ((hspace.trans hleads).within hc) hmore
    show TagFilled source more.value.2 more.next.pos c.pos
      (a.value.span :: more.value.1.map AttributeNode.span)
    rw [hspan]
    exact ⟨blankBetween_skipSpace hc, hleads.pos_lt a.shorter, hfilled⟩

/-- An opening tag is an angle bracket, a name, and what fills the tag. -/
theorem tagFilled_readOpeningTag {s : Step OpeningTag c} (hc : c.Within source)
    (h : readOpeningTag setting c cs hopen = .ok s) :
    (∀ ch ∈ s.value.name.toList, isTagChar ch = true) ∧
      IsAt source c.pos ('<' :: s.value.name.toList) ∧
      TagFilled source s.value.selfClosing s.next.pos
        (c.pos + byteLength ('<' :: s.value.name.toList))
        (s.value.attributes.map AttributeNode.span) := by
  unfold readOpeningTag at h
  split at h
  · obtain ⟨r, hr, h⟩ := bind_eq_ok_iff.1 h
    cases h
    have hsplit : c.rest = ('<' :: cs.takeWhile isTagChar) ++ cs.dropWhile isTagChar := by
      rw [hopen, List.cons_append, List.takeWhile_append_dropWhile]
    have hname : c.Leads (c.moveTo (cs.dropWhile isTagChar)) := Cursor.leads_moveTo ⟨_, hsplit.symm⟩
    have hfilled := tagFilled_readAttributes (hname.within hc) hr
    rw [Cursor.pos_moveTo hsplit] at hfilled
    rw [Cursor.Within, hsplit] at hc
    show (∀ ch ∈ (String.ofList (cs.takeWhile isTagChar)).toList, isTagChar ch = true) ∧ _
    rw [String.toList_ofList]
    exact ⟨fun ch hch => List.mem_takeWhile_imp hch, hc.left, hfilled⟩
  · cases h

/-! ### Closing tags -/

theorem closingTag_of_rest {rest : List Char} (hc : c.Within source) (hangle : '>' ∉ rest)
    (hrest : c.rest = ('<' :: '/' :: (name.toList ++ rest ++ ['>'])) ++ after) :
    ClosingTag source name c.pos (c.moveTo after).pos := by
  refine ⟨rest, hangle, ?_, Cursor.pos_moveTo hrest⟩
  rw [Cursor.Within, hrest] at hc
  exact hc.left

/-- A closing tag is one for every name that it starts with. -/
theorem closingTag_readClosingTag {hopen : c.rest = '<' :: '/' :: cs} (hc : c.Within source)
    (hname : name.toList <+: cs) (htag : ∀ ch ∈ name.toList, isTagChar ch = true)
    (h : readClosingTag c cs hopen = .ok s) : ClosingTag source name c.pos s.next.pos := by
  obtain ⟨more, rfl⟩ := hname
  unfold readClosingTag at h
  split at h
  · rename_i after hafter
    cases h
    rw [List.dropWhile_append_of_pos htag] at hafter
    -- after the name there may be more of a name, and then blanks
    obtain ⟨word, blanks, hword, hblanks, rfl⟩ : ∃ word blanks,
        (∀ ch ∈ word, isTagChar ch = true) ∧ (∀ ch ∈ blanks, isSpace ch = true) ∧
          more = word ++ (blanks ++ '>' :: after) := by
      refine ⟨more.takeWhile isTagChar, (more.dropWhile isTagChar).takeWhile isSpace,
        fun ch hch => List.mem_takeWhile_imp hch, fun ch hch => List.mem_takeWhile_imp hch, ?_⟩
      rw [← hafter, List.takeWhile_append_dropWhile, List.takeWhile_append_dropWhile]
    have hangle : '>' ∉ word ++ blanks := by
      intro hmem
      rcases List.mem_append.1 hmem with hmem | hmem
      · exact absurd (hword _ hmem) (by decide)
      · exact absurd (hblanks _ hmem) (by decide)
    exact closingTag_of_rest hc hangle (by rw [hopen]; simp)
  · cases h

/-- What is found starts with what was looked for. -/
theorem Text.find_isPrefix {piece r : List Char} (h : find piece cs = some r) :
    piece <+: r := by
  induction cs with
  | nil =>
    rw [find] at h
    split at h
    · rename_i hempty
      rw [List.isEmpty_iff.1 hempty]
      exact List.nil_prefix
    · cases h
  | cons ch cs ih =>
    rw [find] at h
    split at h
    · rename_i hpiece
      cases h
      exact List.isPrefixOf_iff_prefix.1 hpiece
    · exact ih h

/-- Moving on in two steps goes as far as moving on in one. -/
theorem Cursor.pos_moveTo_moveTo {xs ys : List Char} (hxs : xs <:+ c.rest) (hys : ys <:+ xs) :
    ((c.moveTo xs).moveTo ys).pos = (c.moveTo ys).pos := by
  obtain ⟨front, hfront⟩ := hxs
  obtain ⟨piece, rfl⟩ := hys
  have hall : c.rest = (front ++ piece) ++ ys := by rw [← hfront, List.append_assoc]
  have hpiece : (c.moveTo (piece ++ ys)).rest = piece ++ ys := rfl
  rw [Cursor.pos_moveTo hpiece, Cursor.pos_moveTo hfront.symm, Cursor.pos_moveTo hall,
    byteLength_append, Nat.add_assoc]

/-- Raw content ends where the closing tag starts. -/
theorem closingTag_readRaw {s : Step RawContent c} (hc : c.Within source)
    (htag : ∀ ch ∈ name.toList, isTagChar ch = true) (h : readRaw name c = .ok s) :
    ClosingTag source name s.value.span.stop s.next.pos := by
  unfold readRaw at h
  split at h
  · cases h
  · rename_i closing hclosing
    split at h
    · cases h
    · rename_i ch after hafter
      cases h
      have hfound := find_suffix hclosing
      have hd : c.Leads (c.moveTo closing) := Cursor.leads_moveTo hfound
      obtain ⟨more, hmore⟩ := find_isPrefix hclosing
      have hclose : closing = ('<' :: '/' :: name.toList) ++ more := by
        rw [← hmore, String.toList_append]
        rfl
      have hnone : ∀ x ∈ '<' :: '/' :: name.toList, decide (x ≠ '>') = true := by
        intro x hx
        rw [decide_eq_true_eq]
        rintro rfl
        have hmem : '>' ∈ name.toList := by simpa using hx
        exact absurd (htag _ hmem) (by decide)
      rw [hclose, List.dropWhile_append_of_pos hnone] at hafter
      have hend : ch = '>' := by
        have hhead := List.head?_dropWhile_not (fun x => decide (x ≠ '>')) more
        rw [hafter] at hhead
        simpa using hhead
      subst hend
      obtain ⟨rest, hrest, rfl⟩ : ∃ rest, '>' ∉ rest ∧ more = rest ++ '>' :: after := by
        refine ⟨more.takeWhile fun x => decide (x ≠ '>'), fun hmem => ?_, ?_⟩
        · exact absurd (List.mem_takeWhile_imp hmem) (by decide)
        · rw [← hafter, List.takeWhile_append_dropWhile]
      have hsplit : closing = ('<' :: '/' :: (name.toList ++ rest ++ ['>'])) ++ after := by
        rw [hclose]
        simp
      have htagged : ClosingTag source name (c.moveTo closing).pos
          ((c.moveTo closing).moveTo after).pos := closingTag_of_rest (hd.within hc) hrest hsplit
      rw [Cursor.pos_moveTo_moveTo hfound ⟨_, hsplit.symm⟩] at htagged
      exact htagged

/-! ### Contents -/

/-- The nodes tile the text from one offset up to the closing tag of an element, which ends at
another. -/
def NodesTiled (source : List Char) (name : String) (lo hi : Nat) (nodes : List MarkupNode) :
    Prop :=
  (∃ close, Span.Chain lo close (nodes.map MarkupNode.span) ∧ ClosingTag source name close hi) ∧
    ∀ n ∈ nodes, n.Tiled source

theorem NodesTiled.append {mid : Nat} (hchain : Span.Chain lo mid (nodes.map MarkupNode.span))
    (hnodes : ∀ n ∈ nodes, n.Tiled source) (h : NodesTiled source name mid hi more) :
    NodesTiled source name lo hi (nodes ++ more) := by
  obtain ⟨⟨close, hchain', hclose⟩, hmore⟩ := h
  refine ⟨⟨close, ?_, hclose⟩, List.forall_mem_append.2 ⟨hnodes, hmore⟩⟩
  rw [List.map_append]
  exact hchain.append hchain'

theorem tiled_textNode (hc : c.Within source) (h : c.Leads d) :
    ∀ n ∈ textNode c d, n.Tiled source := by
  unfold textNode
  split
  · rename_i hlt
    exact List.forall_mem_singleton.2 (.text (laid_textNode hc h hlt))
  · simp

/-- Text that no brace ends goes up to the closing tag. -/
theorem rest_afterAreaText {closing : List Char} (h : closing <:+ c.rest)
    (hcs : (afterAreaText closing c).rest = '<' :: cs) : closing = '<' :: cs := by
  obtain ⟨front, hfront⟩ := h
  have hrest : (afterAreaText closing c).rest = front.dropWhile (· ≠ '\x7b') ++ closing := by
    show c.rest.drop ((before c.rest closing).takeWhile (· ≠ '\x7b')).length = _
    rw [← hfront, before_append]
    have hsplit : front ++ closing = front.takeWhile (· ≠ '\x7b') ++
        (front.dropWhile (· ≠ '\x7b') ++ closing) := by
      rw [← List.append_assoc, List.takeWhile_append_dropWhile]
    rw [hsplit, List.drop_left]
  rw [hcs] at hrest
  cases hdrop : front.dropWhile (· ≠ '\x7b') with
  | nil =>
    rw [hdrop] at hrest
    exact hrest.symm
  | cons ch more =>
    have hhead := List.head?_dropWhile_not (fun x => decide (x ≠ '\x7b')) front
    rw [hdrop] at hhead hrest
    cases hrest
    simp at hhead

/-- A text area holds text and expressions up to its closing tag. -/
theorem tiled_readTextarea {start : Nat} {s : Step (List MarkupNode) c} (hc : c.Within source)
    (h : readTextarea setting start c = .ok s) :
    NodesTiled source "textarea" c.pos s.next.pos s.value := by
  fun_induction readTextarea setting start c with
  | case1 => cases h
  | case2 c closing _ d cs hopen =>
    rename_i ih
    obtain ⟨tag, htag, h⟩ := bind_eq_ok_iff.1 h
    obtain ⟨more, hmore, h⟩ := bind_eq_ok_iff.1 h
    cases h
    have htext : c.Leads d := c.leads_skip _
    obtain ⟨hstep, hspan, _⟩ := laid_readExpressionTag (htext.within hc) htag
    have htagged : NodesTiled source "textarea" d.pos more.next.pos
        (.expression tag.value :: more.value) := by
      refine (ih tag ((htext.trans hstep).within hc) hmore).append ?_
        (List.forall_mem_singleton.2 (.expression tag.value))
      show Span.Chain _ _ [tag.value.span]
      rw [hspan]
      exact ⟨rfl, hstep.pos_lt tag.shorter, rfl⟩
    exact htagged.append (laid_textNodes setting hc htext).1 (tiled_textNode hc htext)
  | case3 c closing hfind d cs =>
    rename_i hopen
    obtain ⟨tag, htag, h⟩ := bind_eq_ok_iff.1 h
    cases h
    have htext : c.Leads d := c.leads_skip _
    have hclosing := rest_afterAreaText (find_suffix hfind) hopen
    have hname : "textarea".toList <+: cs := by
      have hstarts := find_isPrefix hfind
      rw [hclosing] at hstarts
      exact (List.cons_prefix_cons.1 (List.cons_prefix_cons.1 hstarts).2).2
    have htagged := closingTag_readClosingTag (htext.within hc) hname
      (List.all_eq_true.1 (by decide)) htag
    exact ⟨⟨d.pos, (laid_textNodes setting hc htext).1, htagged⟩, tiled_textNode hc htext⟩
  | case4 => cases h

theorem textNode_eq (h : c.Leads d) :
    textNode c d = if (Span.mk c.pos d.pos).isEmpty then []
      else [.text ⟨String.ofList (c.upTo d), ⟨c.pos, d.pos⟩⟩] := by
  unfold textNode
  split
  · rename_i hlt
    have hpos := h.pos_lt hlt
    rw [if_neg]
    simpa [Span.isEmpty] using hpos
  · rename_i hlt
    rw [h.eq_of_length hlt]
    simp [Span.isEmpty]

/-- What an element holds: nothing, or nodes up to its closing tag. -/
theorem tiled_readBodyWith {tag : OpeningTag}
    {children : Unit → Except ParseError (Step (List MarkupNode) c)}
    {p : Pace (List MarkupNode) c} (hc : c.Within source)
    (htag : ∀ ch ∈ tag.name.toList, isTagChar ch = true)
    (hchildren : ∀ s, children () = .ok s → NodesTiled source tag.name c.pos s.next.pos s.value)
    (h : readBodyWith setting tag c children = .ok p) :
    ((tag.selfClosing || voidElements.contains tag.name) = true ∧ p.value = [] ∧ p.next = c) ∨
      ((tag.selfClosing || voidElements.contains tag.name) = false ∧
        NodesTiled source tag.name c.pos p.next.pos p.value) := by
  unfold readBodyWith at h
  split at h
  · rename_i hbare
    cases h
    exact .inl ⟨hbare, rfl, rfl⟩
  · rename_i hbare
    refine .inr ⟨Bool.eq_false_iff.2 hbare, ?_⟩
    split at h
    · rename_i hname
      obtain ⟨r, hr, h⟩ := bind_eq_ok_iff.1 h
      rw [← pure_eq_ok_iff.1 h, hname]
      exact tiled_readTextarea hc hr
    · split at h
      · obtain ⟨r, hr, h⟩ := bind_eq_ok_iff.1 h
        cases h
        have hclose := closingTag_readRaw hc htag hr
        obtain ⟨d, hleads, _, hvalue⟩ := readRaw_leads hr
        show NodesTiled source tag.name c.pos r.next.pos
          (if r.value.span.isEmpty then [] else [.text ⟨r.value.text, r.value.span⟩])
        rw [hvalue] at hclose ⊢
        rw [← textNode_eq hleads]
        exact ⟨⟨d.pos, (laid_textNodes setting hc hleads).1, hclose⟩, tiled_textNode hc hleads⟩
      · obtain ⟨r, hr, h⟩ := bind_eq_ok_iff.1 h
        cases h
        exact hchildren r hr

/-- An element is tiled if what it holds is. -/
theorem tiled_elementOf {tag : Step OpeningTag c} {body : Pace (List MarkupNode) tag.next}
    (hc : c.Within source) (htag : readOpeningTag setting c cs hopen = .ok tag)
    (hchildren : ∀ s, readChildren setting tag.value.name tag.next = .ok s →
      NodesTiled source tag.value.name tag.next.pos s.next.pos s.value)
    (hbody : readBodyWith setting tag.value tag.next
      (fun _ => readChildren setting tag.value.name tag.next) = .ok body) :
    (elementOf tag.value body.value body.next.pos).Tiled source := by
  obtain ⟨hopening, hstart, _, hattributes⟩ := laid_readOpeningTag hc htag
  obtain ⟨hname, hangle, hfilled⟩ := tagFilled_readOpeningTag hc htag
  have hvalues : ∀ a ∈ tag.value.attributes, ∀ t ∈ a.texts, t.Laid source :=
    fun a ha => (hattributes a ha).laid_of_mem_texts
  rw [elementOf, hstart]
  rcases tiled_readBodyWith (hopening.within hc) hname hchildren hbody with
    ⟨hbare, hnil, hnext⟩ | ⟨hbare, ⟨close, hchain, hclose⟩, hnodes⟩
  · rw [hnil, hnext]
    refine .element ⟨hangle, hfilled, hfilled.row.2, rfl, fun _ => ⟨rfl, rfl⟩, fun h => ?_⟩ hvalues
      (by simp)
    rw [hbare] at h
    cases h
  · refine .element ⟨hangle, hfilled, hfilled.row.2, hchain, fun h => ?_, fun _ => hclose⟩ hvalues
      hnodes
    rw [hbare] at h
    cases h

/-! ### Nodes -/

theorem isElement_readLeaf {s : Step MarkupNode c} (h : readLeaf setting c = .ok (some s)) :
    s.value.isElement = false := by
  unfold readLeaf at h
  split at h
  · cases h
  · obtain ⟨t, ht, h⟩ := map_eq_ok_iff.1 h
    cases h
    unfold readComment at ht
    split at ht
    · cases ht
    · cases ht
      rfl
  · obtain ⟨t, ht, h⟩ := map_eq_ok_iff.1 h
    cases h
    unfold readDeclarationTag at ht
    split at ht
    · cases ht
    · cases ht
      rfl
  · cases h
  · obtain ⟨t, ht, h⟩ := map_eq_ok_iff.1 h
    cases h
    unfold readBraceNode at ht
    split at ht
    · cases ht
    · simp only [] at ht
      split at ht
      · obtain ⟨tag, _, rfl⟩ := map_eq_ok_iff.1 ht
        rfl
      · split at ht
        · obtain ⟨tag, _, rfl⟩ := map_eq_ok_iff.1 ht
          rfl
        · obtain ⟨tag, _, ht⟩ := bind_eq_ok_iff.1 ht
          cases ht
          rfl
  · cases h
    rfl

/-- The closing tag that ends children is that of their parent. -/
theorem closingTag_of_value {hopen : c.rest = '<' :: '/' :: cs} (hc : c.Within source)
    (h : readClosingTag c cs hopen = .ok s) : ClosingTag source s.value c.pos s.next.pos := by
  have hvalue : s.value.toList = cs.takeWhile isTagChar := by
    unfold readClosingTag at h
    split at h
    · cases h
      exact String.toList_ofList
    · cases h
  refine closingTag_readClosingTag hc ?_ ?_ h
  · rw [hvalue]
    exact List.takeWhile_prefix isTagChar
  · rw [hvalue]
    exact fun ch hch => List.mem_takeWhile_imp hch

/-- A tiled node that reaches up to tiled nodes. -/
theorem NodesTiled.cons {node : MarkupNode} (hleads : c.Leads d) (hlt : d.length < c.length)
    (hspan : node.span = ⟨c.pos, d.pos⟩) (hnode : node.Tiled source)
    (h : NodesTiled source name d.pos hi more) :
    NodesTiled source name c.pos hi (node :: more) := by
  refine h.append ?_ (List.forall_mem_singleton.2 hnode)
  show Span.Chain _ _ [node.span]
  rw [hspan]
  exact ⟨rfl, hleads.pos_lt hlt, rfl⟩

/-- The children of an element tile the text up to its closing tag. -/
theorem tiled_readChildren {parent : String} {s : Step (List MarkupNode) c} (hc : c.Within source)
    (h : readChildren setting parent c = .ok s) :
    NodesTiled source parent c.pos s.next.pos s.value := by
  induction hn : c.length using Nat.strongRecOn generalizing parent c with
  | ind n ih =>
    subst hn
    have hstep := readChildren_eq_ok h
    generalize s.value = nodes at hstep ⊢
    generalize s.next = next at hstep ⊢
    cases hstep with
    | closing htag hname =>
      exact ⟨⟨c.pos, rfl, hname ▸ closingTag_of_value hc htag⟩, by simp⟩
    | @leaf leaf more hleaf hmore =>
      obtain ⟨hleads, hspan, hlaid⟩ := laid_readLeaf hc hleaf
      exact .cons hleads leaf.shorter hspan (hlaid.tiled (isElement_readLeaf hleaf))
        (ih _ leaf.shorter (hleads.within hc) hmore rfl)
    | @element cs hopen tag body more htag hbody hmore =>
      -- the induction covers both the children of the element and its siblings
      have hwithin := (laid_readOpeningTag hc htag).1.within hc
      obtain ⟨hall, hspan, _⟩ := leads_readElement hc htag hbody
      have htiled := tiled_elementOf hc htag
        (fun t ht => ih _ tag.shorter hwithin ht rfl) hbody
      have hlt := Nat.lt_of_le_of_lt body.noLonger tag.shorter
      exact .cons hall hlt hspan htiled (ih _ hlt (hall.within hc) hmore rfl)

/-! ### The top level -/

/-- Every node at the top level is tiled. -/
theorem tiled_readTop {regions regions' : Regions} (hc : c.Within source)
    (h : readTop setting source regions c = .ok (nodes, regions')) :
    ∀ n ∈ nodes, n.Tiled source := by
  replace h := topRun_of_readTop h
  induction h with
  | done => simp
  | leaf hleaf _ ih =>
    obtain ⟨hleads, _, hlaid⟩ := laid_readLeaf hc hleaf
    exact List.forall_mem_cons.2
      ⟨hlaid.tiled (isElement_readLeaf hleaf), ih (hleads.within hc)⟩
  | region _ htag _ hraw _ _ ih =>
    obtain ⟨close, hcontent, hclose, _⟩ := readRaw_leads hraw
    exact ih ((((laid_readOpeningTag hc htag).1.trans hcontent).trans hclose).within hc)
  | element _ htag _ hbody _ ih =>
    have hwithin := (laid_readOpeningTag hc htag).1.within hc
    exact List.forall_mem_cons.2
      ⟨tiled_elementOf hc htag (fun t ht => tiled_readChildren hwithin ht) hbody,
        ih ((leads_readElement hc htag hbody).1.within hc)⟩

end Readers

/-- **A component that is read is tiled**: no text of the source is lost and none is taken twice. -/
theorem Component.tiled_of_read {scripts : ScriptReader} {source : String} {component : Component}
    (h : Component.read scripts source = .ok component) :
    component.source = source ∧ component.Tiled := by
  obtain ⟨hsource, items, hchain, _, hfragment, hscripts, hstyle⟩ := laid_read h
  refine ⟨hsource, ⟨items.map TopItem.span, hsource ▸ hchain, ?_⟩, ?_⟩
  · have hspans := perm_flatMap_items (fun i => [i.span]) items
    simp only [← List.map_eq_flatMap] at hspans
    rw [hfragment, hstyle]
    exact hspans.trans (((hscripts.map _).append_left _).append_right _)
  · obtain ⟨⟨nodes, regions⟩, hread, h⟩ := bind_eq_ok_iff.1 h
    rw [← pure_eq_ok_iff.1 h]
    exact tiled_readTop (Cursor.within_start source.toList) hread

/-- A component with a script, text, a stylesheet, and an element that has attributes and holds
text, an element without content, an expression and a text area. -/
def nestedMarkup : String :=
  "<script>let a</script>b<p class=\"c \x7ba\x7d\" \x7ba\x7d >d<br/>\x7ba\x7d" ++
    "<textarea>\x7ba\x7de</textarea></p ><style>.c\x7b\x7d</style>"

/-- Its script, its two nodes and its stylesheet tile it. -/
theorem Component.tiled_of_read_nestedMarkup :
    ∃ component, Component.read ScriptReader.grammar nestedMarkup = .ok component ∧
      component.fragment.map MarkupNode.span = [⟨22, 23⟩, ⟨23, 84⟩] ∧
      component.scripts.map ScriptBlock.span = [⟨0, 22⟩] ∧
      component.style.toList.map StyleSheet.span = [⟨84, 103⟩] ∧
      component.source = nestedMarkup ∧ component.Tiled := by
  have heval : ((Component.read ScriptReader.grammar nestedMarkup).toOption.map fun component =>
      (component.fragment.map MarkupNode.span, component.scripts.map ScriptBlock.span,
        component.style.toList.map StyleSheet.span)) =
      some ([⟨22, 23⟩, ⟨23, 84⟩], [⟨0, 22⟩], [⟨84, 103⟩]) := by decide +kernel
  obtain ⟨component, hread, heval⟩ := Option.map_eq_some_iff.1 heval
  simp only [Prod.mk.injEq] at heval
  rw [toOption_eq_some_iff] at hread
  exact ⟨component, hread, heval.1, heval.2.1, heval.2.2, Component.tiled_of_read hread⟩

end CssRune
