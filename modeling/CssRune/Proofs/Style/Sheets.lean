/-
**Where the parts of a stylesheet are written.**

The selectors of a stylesheet stand in the preludes of rules, and rules may be nested in the blocks
of other rules and of at-rules.  The layout of a stylesheet says where: a prelude ends before the
block of its rule starts, and the nodes of a block are a row between its braces.

* `RuleLaid`, `AtRuleLaid`, `BlockOf.LaidHere` — the layout of one node;
* `StyleNode.Laid` — the layout of a node and all nodes below it;
* `laid_readRule`, `laid_readAtRule`, `laid_readItemsF` — one lemma for each reader, and
  `laid_readStyleSheet`: **every stylesheet that is read is laid out**;
* `StyleNode.Laid.row_selectors` — the complex selectors of a stylesheet are a row.
-/

import CssRune.Proofs.Style.Selectors
import CssRune.Rune.Selectors
import CssRune.Style.Sheet.Reader
import Mathlib.Data.List.TakeWhile

set_option autoImplicit false

namespace CssRune

open Text

/-! ### Blanks at the end of a text -/

namespace Text

theorem trimSpaceRight_append (cs : List Char) :
    ∃ blanks, cs = trimSpaceRight cs ++ blanks ∧ ∀ c ∈ blanks, isSpace c = true := by
  refine ⟨(cs.reverse.takeWhile isSpace).reverse, ?_, fun c hc => ?_⟩
  · rw [trimSpaceRight, ← List.reverse_append, List.takeWhile_append_dropWhile,
      List.reverse_reverse]
  · exact List.mem_takeWhile_imp (List.mem_reverse.1 hc)

variable {cs : List Char}

/-- A text of which something is left when its ends are trimmed is more than blanks. -/
theorem exists_not_isSpace_of_trim (h : trim cs ≠ []) : ∃ c ∈ cs, isSpace c = false := by
  refine Classical.byContradiction fun hnone => h ?_
  have hblank : ∀ c ∈ cs, isBlank c = true := by
    intro c hc
    refine isBlank_of_isSpace ?_
    cases hs : isSpace c with
    | true => rfl
    | false => exact absurd ⟨c, hc, hs⟩ hnone
  have hleft : trimLeft cs = [] := List.dropWhile_eq_nil_iff.2 hblank
  rw [trim, hleft]
  rfl

theorem trimSpaceRight_ne_nil (h : ∃ c ∈ cs, isSpace c = false) : trimSpaceRight cs ≠ [] := by
  obtain ⟨c, hc, hs⟩ := h
  obtain ⟨blanks, happend, hblanks⟩ := trimSpaceRight_append cs
  intro hnil
  rw [hnil, List.nil_append] at happend
  rw [happend] at hc
  rw [hblanks c hc] at hs
  cases hs

end Text

/-! ### Layouts -/

/-- The layout of a block: its nodes are a row between its braces. -/
structure BlockOf.LaidHere (source : List Char) (b : StyleBlock) : Prop where
  cuts : b.span.Cuts source
  braces : b.span.start + 2 ≤ b.span.stop
  row : Span.Row 0 (b.span.start + 1) (b.span.stop - 1) (b.children.map StyleNode.span)

/-- The layout of a rule: the prelude comes first, and the rule ends with its block. -/
structure RuleLaid (source : List Char) (prelude : SelectorList) (block : StyleBlock)
    (span : Span) : Prop where
  cuts : span.Cuts source
  selectors : prelude.Laid source
  start_le : span.start ≤ prelude.span.start
  le_block : prelude.span.stop ≤ block.span.start
  braces : block.LaidHere source
  stop_eq : block.span.stop = span.stop

/-- The layout of an at-rule: it ends with its block, if there is one. -/
structure AtRuleLaid (source : List Char) (block : Option StyleBlock) (span : Span) : Prop where
  cuts : span.Cuts source
  nonempty : span.start < span.stop
  block : ∀ b, block = some b →
    b.LaidHere source ∧ span.start < b.span.start ∧ b.span.stop = span.stop

/-- A node of a stylesheet and all nodes below it are laid out. -/
inductive StyleNode.Laid (source : List Char) : StyleNode → Prop where
  | rule {prelude : SelectorList} {block : StyleBlock} {span : Span}
      (here : RuleLaid source prelude block span)
      (below : ∀ n ∈ block.children, StyleNode.Laid source n) :
      StyleNode.Laid source (.rule prelude block span)
  | atRule {name : String} {prelude : Span} {block : Option StyleBlock} {span : Span}
      (here : AtRuleLaid source block span)
      (below : ∀ b, block = some b → ∀ n ∈ b.children, StyleNode.Laid source n) :
      StyleNode.Laid source (.atRule name prelude block span)
  | declaration {d : Declaration} (cuts : d.span.Cuts source)
      (nonempty : d.span.start < d.span.stop) : StyleNode.Laid source (.declaration d)

/-! ### Delimiters -/

variable {beyond : Option Char} {depth : Nat} {c after : Cursor} {d : Declaration}
  {source : List Char} {n : StyleNode}

/-- A delimiter is found where it stands, or the text ends. -/
theorem nextDelimiter_leads {r : Pace Delimiter c} (h : nextDelimiter beyond depth c = .ok r) :
    c.Leads r.next ∧ (r.value = .none ∨
      ∃ ch rest, r.next.rest = ch :: rest ∧ Delimiter.ofChar? ch = some r.value) := by
  fun_induction nextDelimiter beyond depth c with
  | case1 depth c hc =>
    cases h
    exact ⟨Cursor.Leads.refl c, .inl rfl⟩
  | case2 => cases h
  | case3 depth c ch rest hc _ after hr ih =>
    obtain ⟨p, hp, h⟩ := bind_eq_ok_iff.1 h
    cases h
    obtain ⟨hleads, hfound⟩ := ih hp
    exact ⟨(Cursor.leads_moveTo_quoted hc hr).trans hleads, hfound⟩
  | case4 => cases h
  | case5 depth c ch rest hc _ _ after hr ih =>
    obtain ⟨p, hp, h⟩ := bind_eq_ok_iff.1 h
    cases h
    obtain ⟨hleads, hfound⟩ := ih hp
    exact ⟨(Cursor.leads_moveTo_comment hc hr).trans hleads, hfound⟩
  | case6 => cases h
  | case7 c ch rest hc _ _ _ delimiter hd =>
    cases h
    exact ⟨Cursor.Leads.refl c, .inr ⟨ch, rest, hc, hd⟩⟩
  | case8 =>
    rename_i ih
    obtain ⟨p, hp, h⟩ := bind_eq_ok_iff.1 h
    cases h
    obtain ⟨hleads, hfound⟩ := ih hp
    exact ⟨(Cursor.leads_next _).trans hleads, hfound⟩

theorem exists_of_openBrace {d : Delimiter} (hd : d = .openBrace)
    (h : d = .none ∨ ∃ ch rest, c.rest = ch :: rest ∧ Delimiter.ofChar? ch = some d) :
    ∃ rest, c.rest = '\x7b' :: rest := by
  subst hd
  rcases h with hnone | ⟨ch, rest, hrest, hch⟩
  · cases hnone
  · unfold Delimiter.ofChar? at hch
    split at hch
    all_goals cases hch
    exact ⟨rest, hrest⟩

/-- Stepping over a block reads on, at least over its closing brace. -/
theorem passBlockFrom_leads (h : passBlockFrom beyond depth c = .ok after) :
    c.Leads after ∧ after.length < c.length := by
  induction hn : c.length using Nat.strong_induction_on generalizing depth c with
  | _ n ih =>
    rw [passBlockFrom] at h
    obtain ⟨d, hd, h⟩ := bind_eq_ok_iff.1 h
    have hleads := (nextDelimiter_leads hd).1
    split at h
    · cases h
    · rename_i ch rest hrest
      have hstep := hleads.trans (Cursor.leads_moveTo_cons hrest)
      have hshort : (d.next.moveTo rest).length < c.length :=
        Nat.lt_of_lt_of_le (Cursor.length_moveTo_lt hrest) d.noLonger
      have hmore : ∀ k, passBlockFrom beyond k (d.next.moveTo rest) = .ok after →
          c.Leads after ∧ after.length < c.length := by
        intro k hk
        obtain ⟨hl, hlt⟩ := ih _ (hn ▸ hshort) hk rfl
        exact ⟨hstep.trans hl, Nat.lt_trans hlt hshort⟩
      subst hn
      split at h
      · exact hmore _ h
      · cases h
        exact ⟨hstep, hshort⟩
      · exact hmore _ h
      · exact hmore _ h
      · cases h

/-! ### Declarations -/

/-- A declaration takes the text up to its end, without the blanks there. -/
theorem declarationAt_span {stop : Cursor} (h : declarationAt c stop = .ok d) :
    d.span = ⟨c.pos, c.pos + byteLength (trimSpaceRight (c.upTo stop))⟩ ∧
      trimSpaceRight (c.upTo stop) ≠ [] := by
  simp only [declarationAt] at h
  split at h
  · cases h
  · split at h
    · cases h
    · rename_i hproperty
      cases h
      refine ⟨rfl, trimSpaceRight_ne_nil ?_⟩
      have hname : trim ((c.upTo stop).takeWhile (· != ':')) ≠ [] :=
        fun hnil => hproperty (by rw [hnil]; rfl)
      obtain ⟨ch, hch, hs⟩ := exists_not_isSpace_of_trim hname
      exact ⟨ch, (List.takeWhile_sublist _).subset hch, hs⟩

theorem laid_readDeclaration (hc : c.Within source)
    (h : readDeclaration beyond c = .ok (d, after)) :
    c.Leads after ∧ d.span.start = c.pos ∧ d.span.stop ≤ after.pos ∧
      StyleNode.Laid source (.declaration d) := by
  obtain ⟨stop, hstop, h⟩ := bind_eq_ok_iff.1 h
  obtain ⟨declaration, hd, h⟩ := bind_eq_ok_iff.1 h
  cases h
  have hleads := (nextDelimiter_leads hstop).1
  have hafter :
      stop.next.Leads (if stop.value = .semicolon then stop.next.next else stop.next) := by
    split
    · exact Cursor.leads_next _
    · exact Cursor.Leads.refl _
  obtain ⟨hspan, hne⟩ := declarationAt_span hd
  obtain ⟨blanks, hblanks, _⟩ := trimSpaceRight_append (c.upTo stop.next)
  have hat := hleads.isAt hc
  have hpos := hleads.pos_eq
  rw [hblanks] at hat hpos
  rw [byteLength_append] at hpos
  have hlong := byteLength_pos hne
  refine ⟨hleads.trans hafter, by rw [hspan], ?_, StyleNode.Laid.declaration ?_ ?_⟩
  · have := hafter.pos_le
    rw [hspan]
    show _ + _ ≤ _
    omega
  · rw [hspan]
    exact ⟨_, hat.left, rfl⟩
  · rw [hspan]
    show c.pos < _ + _
    omega

/-! ### Blocks -/

/-- A reader of nodes reads a row of nodes that are laid out; in a block it stops at a closing
brace. -/
def ItemsLaid (source : List Char) (items : ItemReader) : Prop :=
  ∀ nested c nodes close, Cursor.Within source c → items nested c = .ok (nodes, close) →
    c.Leads close ∧ Span.Row 0 c.pos close.pos (nodes.map StyleNode.span) ∧
      (∀ n ∈ nodes, n.Laid source) ∧ (nested = true → ∃ rest, close.rest = '\x7d' :: rest)

section Readers

variable {source : List Char} {items : ItemReader} {beyond : Option Char} {c after : Cursor}
  {block : StyleBlock} {rest : List Char}

theorem laid_passBlock (hc : c.Within source) (hopen : c.rest = '\x7b' :: rest)
    (h : passBlock beyond c = .ok (block, after)) :
    c.Leads after ∧ block.span = ⟨c.pos, after.pos⟩ ∧ block.LaidHere source ∧
      block.children = [] := by
  obtain ⟨stop, hstop, h⟩ := bind_eq_ok_iff.1 h
  obtain ⟨rfl, rfl⟩ := Prod.mk.inj (pure_eq_ok_iff.1 h)
  obtain ⟨hleads, hlength⟩ := passBlockFrom_leads hstop
  have hnext : c.next.pos = c.pos + 1 := Cursor.pos_next_cons hopen
  have hlt := hleads.pos_lt hlength
  have hall := c.leads_next.trans hleads
  refine ⟨hall, rfl, ⟨Span.cuts_of_leads hall hc, ?_, Span.Row.nil _ _ _⟩, rfl⟩
  show c.pos + 2 ≤ stop.pos
  omega

theorem laid_readBlock (hitems : ItemsLaid source items) (hc : c.Within source)
    (hopen : c.rest = '\x7b' :: rest) (h : readBlock items c = .ok (block, after)) :
    c.Leads after ∧ block.span = ⟨c.pos, after.pos⟩ ∧ block.LaidHere source ∧
      ∀ n ∈ block.children, n.Laid source := by
  obtain ⟨⟨nodes, close⟩, hread, h⟩ := bind_eq_ok_iff.1 h
  cases h
  obtain ⟨hleads, hrow, hlaid, hclose⟩ := hitems true c.next nodes close
    (c.leads_next.within hc) hread
  obtain ⟨more, hmore⟩ := hclose rfl
  have hnext : c.next.pos = c.pos + 1 := Cursor.pos_next_cons hopen
  have hend : close.next.pos = close.pos + 1 := Cursor.pos_next_cons hmore
  have hle := hleads.pos_le
  have hall := (c.leads_next.trans hleads).trans close.leads_next
  refine ⟨hall, rfl, ⟨Span.cuts_of_leads hall hc, ?_, hrow.mono ?_ ?_⟩, hlaid⟩
  · show c.pos + 2 ≤ close.next.pos
    omega
  · show c.pos + 1 ≤ c.next.pos
    omega
  · show close.pos ≤ close.next.pos - 1
    omega

/-! ### Rules and at-rules -/

variable {node : StyleNode}

theorem laid_readRule (hitems : ItemsLaid source items) (hc : c.Within source)
    (h : readRule items beyond c = .ok (node, after)) :
    c.Leads after ∧ c.pos < after.pos ∧ node.span = ⟨c.pos, after.pos⟩ ∧ node.Laid source := by
  obtain ⟨d, hd, h⟩ := bind_eq_ok_iff.1 h
  obtain ⟨hleads, hfound⟩ := nextDelimiter_leads hd
  split at h
  · cases h
  · rename_i hvalue
    obtain ⟨rest, hopen⟩ := exists_of_openBrace (Classical.not_not.1 hvalue) hfound
    obtain ⟨prelude, hprelude, h⟩ := bind_eq_ok_iff.1 h
    obtain ⟨⟨block, stop⟩, hblock, h⟩ := bind_eq_ok_iff.1 h
    cases h
    obtain ⟨hmore, hspan, hlaid, hbelow⟩ := laid_readBlock hitems (hleads.within hc) hopen hblock
    -- The prelude is read from the text before the brace, less the blanks at its end.
    obtain ⟨blanks, hblanks, _⟩ := trimSpaceRight_append (c.upTo d.next)
    have hat := hleads.isAt hc
    have hpos := hleads.pos_eq
    rw [hblanks] at hat hpos
    rw [byteLength_append] at hpos
    obtain ⟨hselectors, hstart, hstop⟩ := laid_readSelectorList none
      ⟨c.pos, trimSpaceRight (c.upTo d.next)⟩ prelude hat.left hprelude
    have hall := hleads.trans hmore
    have hbraces := hlaid.braces
    have hle := hleads.pos_le
    simp only [hspan] at hbraces hstop
    refine ⟨hall, by omega, rfl, StyleNode.Laid.rule ?_ hbelow⟩
    refine ⟨Span.cuts_of_leads hall hc, hselectors, hstart, ?_, hlaid, by rw [hspan]⟩
    rw [hspan]
    show prelude.span.stop ≤ d.next.pos
    omega

/-- An at-rule reaches from its sign to the end of its block, or to `stop` if it has none. -/
theorem atRuleLaid_of_leads (block : Option StyleBlock) {d stop : Cursor} (hc : c.Within source)
    (hleads : c.Leads d) (hpast : c.pos < d.pos) (hstop : d.Leads stop)
    (hblock : ∀ b, block = some b → b.LaidHere source ∧ b.span = ⟨d.pos, stop.pos⟩) :
    c.Leads stop ∧ c.pos < stop.pos ∧ AtRuleLaid source block ⟨c.pos, stop.pos⟩ := by
  have hall := hleads.trans hstop
  have hlt := Nat.lt_of_lt_of_le hpast hstop.pos_le
  refine ⟨hall, hlt, Span.cuts_of_leads hall hc, hlt, fun b hb => ?_⟩
  obtain ⟨hlaid, hspan⟩ := hblock b hb
  exact ⟨hlaid, by rw [hspan]; exact hpast, by rw [hspan]⟩

theorem laid_readAtRule (hitems : ItemsLaid source items) (hc : c.Within source) (hat : c.rest ≠ [])
    (h : readAtRule items beyond c = .ok (node, after)) :
    c.Leads after ∧ c.pos < after.pos ∧ node.span = ⟨c.pos, after.pos⟩ ∧ node.Laid source := by
  have hfirst : c.pos < c.next.pos := c.leads_next.pos_lt (Cursor.length_next_lt hat)
  simp only [readAtRule] at h
  split at h
  · cases h
  · obtain ⟨d, hd, h⟩ := bind_eq_ok_iff.1 h
    obtain ⟨hdelimiter, hfound⟩ := nextDelimiter_leads hd
    have hleads := (c.leads_next.trans (Cursor.leads_skip _ _)).trans hdelimiter
    have hpast : c.pos < d.next.pos :=
      Nat.lt_of_lt_of_le hfirst ((Cursor.leads_skip _ _).trans hdelimiter).pos_le
    have hd' := hleads.within hc
    split at h
    · rename_i hvalue
      obtain ⟨rest, hopen⟩ := exists_of_openBrace hvalue hfound
      split at h
      · obtain ⟨⟨b, e⟩, hb, h⟩ := bind_eq_ok_iff.1 h
        cases h
        obtain ⟨hmore, hspan, hlaid, hnil⟩ := laid_passBlock hd' hopen hb
        obtain ⟨hall, hlt, hhere⟩ := atRuleLaid_of_leads (some b) hc hleads hpast hmore
          (by rintro _ ⟨⟩; exact ⟨hlaid, hspan⟩)
        exact ⟨hall, hlt, rfl, .atRule hhere (by rintro _ ⟨⟩; simp [hnil])⟩
      · obtain ⟨⟨b, e⟩, hb, h⟩ := bind_eq_ok_iff.1 h
        cases h
        obtain ⟨hmore, hspan, hlaid, hbelow⟩ := laid_readBlock hitems hd' hopen hb
        obtain ⟨hall, hlt, hhere⟩ := atRuleLaid_of_leads (some b) hc hleads hpast hmore
          (by rintro _ ⟨⟩; exact ⟨hlaid, hspan⟩)
        exact ⟨hall, hlt, rfl, .atRule hhere (by rintro _ ⟨⟩; exact hbelow)⟩
    · cases h
      obtain ⟨hall, hlt, hhere⟩ :=
        atRuleLaid_of_leads none hc hleads hpast d.next.leads_next (by rintro _ ⟨⟩)
      exact ⟨hall, hlt, rfl, .atRule hhere (by rintro _ ⟨⟩)⟩
    · cases h
      obtain ⟨hall, hlt, hhere⟩ :=
        atRuleLaid_of_leads none hc hleads hpast (Cursor.Leads.refl _) (by rintro _ ⟨⟩)
      exact ⟨hall, hlt, rfl, .atRule hhere (by rintro _ ⟨⟩)⟩

/-! ### Nodes -/

theorem laid_readItem {nested : Bool} (hitems : ItemsLaid source items) (hc : c.Within source)
    (h : readItem items beyond nested c = .ok (node, after)) :
    c.Leads after ∧ c.pos = node.span.start ∧ node.span.start < node.span.stop ∧
      node.span.stop ≤ after.pos ∧ node.Laid source := by
  unfold readItem at h
  split at h
  · rename_i hat
    have hne : c.rest ≠ [] := fun hnil => by simp [hnil] at hat
    obtain ⟨hleads, hlt, hspan, hlaid⟩ := laid_readAtRule hitems hc hne h
    rw [hspan]
    exact ⟨hleads, rfl, hlt, Nat.le_refl _, hlaid⟩
  · obtain ⟨d, _, h⟩ := bind_eq_ok_iff.1 h
    split at h
    · obtain ⟨⟨declaration, stop⟩, hd, h⟩ := bind_eq_ok_iff.1 h
      cases h
      obtain ⟨hleads, hstart, hstop, hlaid⟩ := laid_readDeclaration hc hd
      cases hlaid with
      | declaration hcuts hlt => exact ⟨hleads, hstart.symm, hlt, hstop, .declaration hcuts hlt⟩
    · obtain ⟨hleads, hlt, hspan, hlaid⟩ := laid_readRule hitems hc h
      rw [hspan]
      exact ⟨hleads, rfl, hlt, Nat.le_refl _, hlaid⟩

/-- The reader of nodes lays them out, whatever the bound on its steps. -/
theorem laid_readItemsF (fuel : Nat) : ItemsLaid source (readItemsF beyond fuel) := by
  induction fuel with
  | zero =>
    intro nested c nodes close _ h
    cases h
  | succ fuel ih =>
    intro nested c nodes close hc h
    rw [readItemsF] at h
    obtain ⟨blanks, hblanks, h⟩ := bind_eq_ok_iff.1 h
    have hb := passBlanks_leads hblanks
    have hd := hb.within hc
    simp only [] at h
    split at h
    · split at h
      · cases h
      · rename_i hnested
        cases h
        exact ⟨hb, Span.Row.nil _ _ _, by simp, fun ht => absurd ht hnested⟩
    · rename_i hhead
      split at h
      · cases h
        exact ⟨hb, Span.Row.nil _ _ _, by simp, fun _ => List.head?_eq_some_iff.1 hhead⟩
      · cases h
    · have hnext := blanks.next.leads_next
      obtain ⟨hleads, hrow, hlaid, hclose⟩ := ih nested _ nodes close (hnext.within hd) h
      have hpast := (hb.trans hnext).pos_le
      exact ⟨(hb.trans hnext).trans hleads, hrow.mono hpast (Nat.le_refl _), hlaid, hclose⟩
    · obtain ⟨⟨node, after⟩, hnode, h⟩ := bind_eq_ok_iff.1 h
      obtain ⟨⟨more, finish⟩, hmore, h⟩ := bind_eq_ok_iff.1 h
      cases h
      obtain ⟨hleads, hstart, hlt, hstop, hlaid⟩ := laid_readItem ih hd hnode
      obtain ⟨hrest, hrow, hall, hclose⟩ := ih nested _ more finish (hleads.within hd) hmore
      have hle := hb.pos_le
      have hfinish := hrest.pos_le
      refine ⟨(hb.trans hleads).trans hrest, ?_, List.forall_mem_cons.2 ⟨hlaid, hall⟩, hclose⟩
      exact Span.Row.cons (Nat.le_trans hle (Nat.le_of_eq hstart)) hlt (Nat.le_trans hstop hfinish)
        (hrow.mono hstop (Nat.le_refl _))

end Readers

/-- **Every stylesheet that is read is laid out**, between the ends of its content. -/
theorem laid_readStyleSheet {content span : Span} {sheet : StyleSheet}
    (hcontent : content.Cuts source) (h : readStyleSheet source content span = .ok sheet) :
    sheet.content = content ∧ sheet.span = span ∧
      Span.Row 0 content.start content.stop (sheet.children.map StyleNode.span) ∧
      ∀ n ∈ sheet.children, n.Laid source := by
  obtain ⟨⟨nodes, finish⟩, hread, h⟩ := bind_eq_ok_iff.1 h
  cases h
  have hat : Cursor.Within source ⟨content.start, slice source content⟩ := hcontent.isAt_slice
  obtain ⟨hleads, hrow, hlaid, _⟩ := laid_readItemsF _ false _ nodes finish hat hread
  refine ⟨rfl, rfl, hrow.mono (Nat.le_refl _) ?_, hlaid⟩
  have hend := hleads.end_eq
  have hlength := hcontent.byteLength_slice
  have hle := hcontent.le
  simp only [hlength] at hend
  omega

/-! ### The selectors of a stylesheet -/

theorem selectorsOfNodes_eq (nodes : List StyleNode) :
    selectorsOfNodes nodes = nodes.flatMap StyleNode.selectors := by
  induction nodes with
  | nil => rfl
  | cons n ns ih => rw [selectorsOfNodes, ih, List.flatMap_cons]

theorem BlockOf.selectors_eq (b : StyleBlock) :
    b.selectors = b.children.flatMap StyleNode.selectors := by
  cases b
  rw [BlockOf.selectors, selectorsOfNodes_eq]

theorem row_flatMap_selectors {lo hi : Nat} {nodes : List StyleNode}
    (hrow : Span.Row 0 lo hi (nodes.map StyleNode.span))
    (h : ∀ n ∈ nodes, Span.Row 0 n.span.start n.span.stop (n.selectors.map (·.2.span))) :
    Span.Row 0 lo hi ((nodes.flatMap StyleNode.selectors).map (·.2.span)) := by
  rw [List.map_flatMap]
  exact hrow.flatMap_row h

/-- The complex selectors of a node are a row in it. -/
theorem StyleNode.Laid.row_selectors (h : n.Laid source) :
    Span.Row 0 n.span.start n.span.stop (n.selectors.map (·.2.span)) := by
  induction h with
  | @rule prelude block span here _ ih =>
    have hblock := row_flatMap_selectors here.braces.row ih
    have hbraces := here.braces.braces
    have hlist : prelude.LaidHere source := by
      have hselectors := here.selectors
      cases prelude
      rw [ListOf.Laid] at hselectors
      exact hselectors.1
    have hprelude : Span.Row 0 span.start block.span.start
        ((SelectorList.withList prelude).map (·.2.span)) := by
      rw [SelectorList.withList, List.map_map]
      exact hlist.row.close.mono here.start_le here.le_block
    have hcuts := hlist.cuts.le
    -- nested rules come after the prelude, between the braces
    rw [StyleNode.selectors, BlockOf.selectors_eq, List.map_append]
    refine hprelude.append (hblock.mono ?_ ?_) ?_ ?_
    · omega
    · show block.span.stop - 1 ≤ span.stop
      have := here.stop_eq
      omega
    · show span.start ≤ block.span.start
      have h₁ := here.start_le
      have h₂ := here.le_block
      omega
    · show block.span.start ≤ span.stop
      have := here.stop_eq
      omega
  | @atRule name prelude block span here _ ih =>
    cases block with
    | none => exact Span.Row.nil _ _ _
    | some b =>
      obtain ⟨hlaid, hstart, hstop⟩ := here.block b rfl
      rw [StyleNode.selectors, BlockOf.selectors_eq]
      refine (row_flatMap_selectors hlaid.row (ih b rfl)).mono ?_ ?_
      · show span.start ≤ b.span.start + 1
        omega
      · show b.span.stop - 1 ≤ span.stop
        omega
  | declaration => exact Span.Row.nil _ _ _

/-- The complex selectors of a node are laid out. -/
theorem StyleNode.Laid.laid_of_mem_selectors (h : n.Laid source) :
    ∀ p ∈ n.selectors, p.2.Laid source := by
  induction h with
  | @rule prelude block span here _ ih =>
    intro p hp
    rw [StyleNode.selectors, BlockOf.selectors_eq] at hp
    rcases List.mem_append.1 hp with hp | hp
    · obtain ⟨c, hc, rfl⟩ := List.mem_map.1 hp
      have hselectors := here.selectors
      cases prelude
      rw [ListOf.Laid] at hselectors
      exact complexesLaid_iff.1 hselectors.2 c hc
    · obtain ⟨m, hm, hp⟩ := List.mem_flatMap.1 hp
      exact ih m hm p hp
  | @atRule name prelude block span here _ ih =>
    intro p hp
    cases block with
    | none => cases hp
    | some b =>
      rw [StyleNode.selectors, BlockOf.selectors_eq] at hp
      obtain ⟨m, hm, hp⟩ := List.mem_flatMap.1 hp
      exact ih b rfl m hm p hp
  | declaration =>
    intro p hp
    cases hp

end CssRune
