/-
**Selector lists with every complex selector expanded.**

The complex selectors of a list can be escaped in several ways at once: each is replaced by its
variants, with commas between them.  This module shows that the text is read as the list of all
variants.  A list inside a pseudo-class, where every complex selector has one variant, is the
special case that closes the induction on the nesting.

Main definitions:

* `Item`, `Items` — **the complex selectors of a text**, with the blanks around them.

Main results:

* `exists_escapesRelatives`, `exists_escapesComplex` — what each reader reads is spelled by signs
  that can be escaped;
* `exists_items` — the text that a list is read from consists of items;
* `Items.listed` — **expanded items are read as all the variants**.
-/

import CssRune.Proofs.Rune.Readings

set_option autoImplicit false

namespace CssRune

open Text

/-! ### Compounds with combinators -/

/-- Signs of relative selectors are read as the escaped selectors when they are escaped, whatever
blanks follow them. -/
def EscapesRelatives (isFirst : Bool) (signs : List Sign) (rs : List RelativeSelector) : Prop :=
  ∀ (e : Escape) (depth : Nat) (trail rest : List Char), e.Covers signs →
    (escapeText e [] signs).length ≤ depth → Blank trail → (∀ c ∈ rest.head?, c = ',') →
    (Text.endsInEscape (plain signs) = true → trail ++ rest = []) →
    ReadsRelatives (readSelectorListF depth none) isFirst (escapeText e [] signs ++ trail) rest
      ((rs.map (RelativeOf.escape e)).map RelativeOf.bare)

/-- Signs before which a compound ends, if there are any. -/
def BreaksOff (signs : List Sign) : Prop :=
  ∀ x ∈ signs.head?, ∃ c, x = .char c ∧ endsCompound c = true

variable {signs : List Sign} {gap mark lead : List Char} {isFirst : Bool}
  {kind : Option CombinatorKind} {pos depth : Nat}

theorem BreaksOff.class? (h : BreaksOff signs) : ∀ x ∈ signs.head?, x.class? = none := by
  intro x hx
  obtain ⟨c, rfl, _⟩ := h x hx
  rfl

theorem endsCompound_of_blank {text : List Char} (h : Blank text) :
    ∀ c ∈ text.head?, endsCompound c = true := by
  intro c hc
  rcases h.head hc with hspace | rfl
  · exact endsCompound_of_isSpace hspace
  · decide

theorem forall_mem_head?_append {α : Type} {p : α → Prop} {xs ys : List α}
    (hxs : ∀ x ∈ xs.head?, p x) (hys : ∀ y ∈ ys.head?, p y) : ∀ x ∈ (xs ++ ys).head?, p x := by
  cases xs with
  | nil => exact hys
  | cons x xs => exact hxs

theorem endsCompound_escapeText (e : Escape) (h : BreaksOff signs) :
    ∀ c ∈ (escapeText e [] signs).head?, endsCompound c = true := by
  cases signs with
  | nil => nofun
  | cons x signs =>
    obtain ⟨c, rfl, hc⟩ := h x rfl
    rintro d ⟨⟩
    exact hc

theorem Joins.endsInEscape (h : Joins isFirst gap mark kind) : endsInEscape mark = false := by
  cases h with
  | mark kind _ => cases kind <;> rfl
  | gap _ => rfl
  | first => rfl

/-- What stands before a compound that is not the first ends the compound before it. -/
theorem Joins.breaksOff (h : Joins false gap mark kind) (hgap : Blank gap) (blanks : List Char)
    (signs : List Sign) : BreaksOff (signsOf (gap ++ (mark ++ blanks)) ++ signs) := by
  cases gap with
  | cons c gap =>
    rintro x ⟨⟩
    exact ⟨c, rfl, endsCompound_of_blank hgap c rfl⟩
  | nil =>
    cases h with
    | mark kind hkind =>
      cases kind with
      | descendant => exact absurd rfl hkind
      | child => rintro x ⟨⟩; exact ⟨'>', rfl, by decide⟩
      | nextSibling => rintro x ⟨⟩; exact ⟨'+', rfl, by decide⟩
      | subsequentSibling => rintro x ⟨⟩; exact ⟨'~', rfl, by decide⟩
      | column => rintro x ⟨⟩; exact ⟨'|', rfl, by decide⟩
    | gap hne => exact absurd rfl hne

theorem RelativeOf.bare_escape (e : Escape) (r : RelativeSelector) :
    (r.escape e).bare = ⟨(r.combinator.map Combinator.kind).map fun k => ⟨k, nowhere⟩,
      (escapeSimples e [] r.selectors).map SimpleSelector.bare, nowhere⟩ := by
  cases r
  rw [RelativeOf.escape, RelativeOf.bare, bareSimples_eq, Option.map_map]
  rfl

theorem escapesRelatives_nil (isFirst : Bool) : EscapesRelatives isFirst [] [] := by
  intro e depth trail rest _ _ htrail hrest _
  exact ReadsRelatives.nil htrail hrest

/-- A compound with its combinator in front of others that can be escaped. -/
theorem escapesRelatives_cons {blanks rest : List Char} {x : Sign} {more : List Sign}
    {r : RelativeSelector} {rs : List RelativeSelector} (hgap : Blank gap)
    (hjoins : Joins isFirst gap mark (r.combinator.map Combinator.kind)) (hblanks : Blank blanks)
    (hmark : mark = [] → blanks = []) (hx : x.starts = true)
    (hescape : endsInEscape (plain (x :: signs)) = true → plain more ++ rest = [])
    (h : EscapesCompound (x :: signs) r.selectors) (hbreaks : BreaksOff more)
    (hmore : EscapesRelatives false more rs) :
    EscapesRelatives isFirst (signsOf (gap ++ (mark ++ blanks)) ++ (x :: signs ++ more))
      (r :: rs) := by
  intro e depth trail rest' hcovers hdepth htrail hrest hescape'
  obtain ⟨hcoversS, hcoversM⟩ : e.Covers (x :: signs) ∧ e.Covers more :=
    ⟨hcovers.mono fun y hy => List.mem_append_right _ (List.mem_append_left _ hy),
      hcovers.mono fun y hy => List.mem_append_right _ (List.mem_append_right _ hy)⟩
  -- nothing in front of the compound is an escape
  have hfront : endsInEscape (gap ++ (mark ++ blanks)) = false := by
    rw [endsInEscape_append hgap.endsInEscape, endsInEscape_append hjoins.endsInEscape,
      hblanks.endsInEscape]
  rw [plain_append, plain_signsOf, endsInEscape_append hfront, plain_append] at hescape'
  obtain ⟨hlast, hescape''⟩ := escape_cut hescape hescape' e
  rw [escapeText_signsOf_append, escapeText_append e [] _ hbreaks.class?] at hdepth ⊢
  simp only [List.length_append] at hdepth
  have hends : ∀ c ∈ (escapeText e [] more ++ trail ++ rest').head?, endsCompound c = true := by
    refine forall_mem_head?_append (forall_mem_head?_append (endsCompound_escapeText e hbreaks)
      (endsCompound_of_blank htrail)) ?_
    intro c hc
    rw [hrest c hc]
    decide
  have hcompound := h e [] depth _ hcoversS (by simp) (by omega) hends
    (by rw [List.append_assoc]; exact hlast)
  have hrelatives := ReadsRelatives.cons hgap hjoins hblanks hmark
    (startsSimple_escapeText e hx signs) hcompound
    (hmore e depth trail rest' hcoversM (by omega) htrail hrest hescape'')
  rw [List.map_cons, List.map_cons, r.bare_escape]
  simpa only [List.append_assoc] using hrelatives

section Readers

variable {source : List Char} {depth : Nat} {beyond : Option Char} {c : Cursor}

variable {gap : List Char} {isFirst : Bool}

/-- **A relative selector is spelled by blanks, a combinator and signs that can be escaped**; `gap`
are the blanks in front of it, from `g` on. -/
theorem exists_escapesRelative (hargs : EscapesArgs source (readSelectorListF depth none))
    {g : Cursor} (hg : g.Within source) (hgc : g.Leads c) (hgap : Blank gap)
    (hrest : g.rest = gap ++ c.rest) (hidem : passBlanks c = .ok ⟨(), c, c.length_le_self⟩)
    {r : Step RelativeSelector c}
    (h : readRelative (readSelectorListF depth none) beyond isFirst g.pos c = .ok r) :
    ∃ mark blanks x signs m, Joins isFirst gap mark (r.value.combinator.map Combinator.kind) ∧
      Blank blanks ∧ (mark = [] → blanks = []) ∧ x.starts = true ∧
      Spells (signsOf (gap ++ (mark ++ blanks))) [] g m ∧
      Spells (x :: signs) r.value.selectors m r.next ∧
      EscapesCompound (x :: signs) r.value.selectors := by
  obtain ⟨p, hp, hfirst, b, hb, compound, hcompound, hlt, hnext, hvalue⟩ := readRelative_eq_ok h
  have hstart : g.pos < c.pos ↔ gap ≠ [] := by
    rw [pos_eq_of_leads hgc hrest]
    constructor
    · rintro hlt rfl
      simp at hlt
    · intro hne
      have hpos := byteLength_pos hne
      omega
  obtain ⟨mark, hmark, hsame, hjoins⟩ := joins_of_readCombinator hp hstart hfirst
  obtain ⟨blanks, hblanks, hblank⟩ := blank_of_passBlanks hb
  have hleads := (hgc.trans (readCombinator_leads hp).1).trans (passBlanks_leads hb)
  obtain ⟨signs, hspells, hhead, hescapes⟩ :=
    exists_escapesCompound hargs (hleads.within hg) hcompound
  have hempty : mark = [] → blanks = [] := by
    intro hnil
    have hback : b.next = c := passBlanks_next_eq (hsame hnil) hb hidem
    rw [hback, hsame hnil] at hblanks
    exact List.self_eq_append_left.1 hblanks
  obtain ⟨x, xs, rfl⟩ : ∃ x xs, signs = x :: xs := by
    refine List.exists_cons_of_ne_nil ?_
    rintro rfl
    have hstay : b.next.rest = compound.next.rest := hspells.rest_eq
    simp only [Cursor.length, hstay] at hlt
    omega
  have hall : g.rest = gap ++ (mark ++ blanks) ++ b.next.rest := by
    rw [hrest, hmark, hblanks]
    simp
  have hescape : endsInEscape (gap ++ (mark ++ blanks)) = false := by
    rw [endsInEscape_append hgap.endsInEscape, endsInEscape_append hjoins.endsInEscape,
      hblank.endsInEscape]
  rw [hvalue, hnext]
  exact ⟨mark, blanks, x, xs, b.next, hjoins, hblank, hempty, hhead x rfl,
    .chars hleads hall hescape, hspells, hescapes⟩

/-- The signs between two cursors spell relative selectors and can be escaped. -/
structure SpellsRelatives (isFirst : Bool) (signs : List Sign) (rs : List RelativeSelector)
    (c d : Cursor) : Prop where
  spells : Spells signs (rs.flatMap RelativeOf.selectors) c d
  nil : rs = [] ↔ signs = []
  last : ∀ r ∈ rs.getLast?, r.span.stop = d.pos
  breaksOff : isFirst = false → BreaksOff signs
  solid : passBlanks c = .ok ⟨(), c, c.length_le_self⟩ →
    ∀ e, ∀ ch ∈ (escapeText e [] signs).head?, isSolid ch = true
  escapes : EscapesRelatives isFirst signs rs

theorem SpellsRelatives.refl (isFirst : Bool) (c : Cursor) : SpellsRelatives isFirst [] [] c c :=
  ⟨.refl c, by simp, nofun, fun _ => nofun, fun _ _ => nofun, escapesRelatives_nil isFirst⟩

/-- A compound with its combinator in front of others is spelled by the signs of both. -/
theorem SpellsRelatives.cons {mark blanks : List Char} {x : Sign} {signs more : List Sign}
    {r : RelativeSelector} {rs : List RelativeSelector} {m n d : Cursor} (hgap : Blank gap)
    (hstart : passBlanks c = .ok ⟨(), c, c.length_le_self⟩ → gap = [])
    (hjoins : Joins isFirst gap mark (r.combinator.map Combinator.kind)) (hblanks : Blank blanks)
    (hmark : mark = [] → blanks = []) (hx : x.starts = true)
    (hfront : Spells (signsOf (gap ++ (mark ++ blanks))) [] c m)
    (hspells : Spells (x :: signs) r.selectors m n) (hstop : r.span.stop = n.pos)
    (hescapes : EscapesCompound (x :: signs) r.selectors)
    (hmore : SpellsRelatives false more rs n d) :
    SpellsRelatives isFirst (signsOf (gap ++ (mark ++ blanks)) ++ (x :: signs ++ more)) (r :: rs)
      c d := by
  refine ⟨hfront.trans (hspells.trans hmore.spells), by simp, ?_, ?_, ?_, ?_⟩
  · intro last hlast
    cases rs with
    | nil =>
      cases hlast
      have hsame := hmore.spells.pos_eq
      rw [hmore.nil.1 rfl] at hsame
      exact hstop.trans hsame.symm
    | cons z zs => exact hmore.last last hlast
  · rintro rfl
    exact hjoins.breaksOff hgap blanks _
  · intro hidem e
    -- there are no blanks to pass, so the compound or its combinator starts here
    obtain ⟨ch, cs, htext, hsolid, _⟩ :=
      hjoins.head hmark (startsSimple_escapeText e hx (signs ++ more))
    have hhead : escapeText e [] (signsOf (gap ++ (mark ++ blanks)) ++ (x :: signs ++ more)) =
        ch :: cs := by
      rw [escapeText_signsOf_append, hstart hidem, List.nil_append, List.append_assoc]
      exact htext
    rw [hhead]
    rintro ch' ⟨⟩
    exact hsolid
  · have hescape := hspells.escape
    rw [hmore.spells.rest_eq] at hescape
    exact escapesRelatives_cons hgap hjoins hblanks hmark hx hescape hescapes (hmore.breaksOff rfl)
      hmore.escapes

/-- **Relative selectors are spelled by signs that can be escaped**, up to the blanks behind
them. -/
theorem exists_escapesRelatives (hargs : EscapesArgs source (readSelectorListF depth none))
    (hc : c.Within source) {r : Pace (List RelativeSelector) c}
    (h : readRelatives (readSelectorListF depth none) beyond isFirst c = .ok r) :
    ∃ signs trail d, SpellsRelatives isFirst signs r.value c d ∧ Blank trail ∧ d.Leads r.next ∧
      d.rest = trail ++ r.next.rest ∧ ∀ ch ∈ r.next.rest.head?, ch = ',' := by
  fun_induction readRelatives (readSelectorListF depth none) beyond isFirst c with
  | case1 isFirst c ih =>
    obtain ⟨b, hb, h⟩ := bind_eq_ok_iff.1 h
    have hleads := passBlanks_leads hb
    obtain ⟨gap, hgap, hblank⟩ := blank_of_passBlanks hb
    split at h
    · rename_i hhead
      cases h
      exact ⟨[], gap, c, .refl isFirst c, hblank, hleads, hgap, by simp [hhead]⟩
    · rename_i hhead
      cases h
      exact ⟨[], gap, c, .refl isFirst c, hblank, hleads, hgap, by rw [hhead]; rintro ch ⟨⟩; rfl⟩
    · obtain ⟨x, hx, h⟩ := bind_eq_ok_iff.1 h
      obtain ⟨rest, hrest, h⟩ := bind_eq_ok_iff.1 h
      obtain ⟨hxleads, _, _, hstop, _⟩ :=
        laid_readRelative (laid_readSelectorListF depth none) hc hleads hx
      obtain ⟨mark, blanks, y, signs, m, hjoins, hblanks, hmark, hy, hfront, hspells, hescapes⟩ :=
        exists_escapesRelative hargs hc hleads hblank hgap (passBlanks_idem hb) hx
      obtain ⟨more, trail, d, hmore, htrail, hdleads, hdrest, hcomma⟩ :=
        ih b x ((hleads.trans hxleads).within hc) hrest
      cases h
      have hstart : passBlanks c = .ok ⟨(), c, c.length_le_self⟩ → gap = [] := by
        intro hidem
        rw [passBlanks_next_eq rfl hb hidem] at hgap
        exact List.self_eq_append_left.1 hgap
      exact ⟨_, trail, d, SpellsRelatives.cons hblank hstart hjoins hblanks hmark hy hfront hspells
        hstop hescapes hmore, htrail, hdleads, hdrest, hcomma⟩

end Readers

/-! ### Complex selectors and the blanks around them -/

/-- Signs of a complex selector are read as the escaped selector when they are escaped, whatever
blanks follow them. -/
def EscapesComplex (signs : List Sign) (x : ComplexSelector) : Prop :=
  ∀ (e : Escape) (depth : Nat) (trail rest : List Char), e.Covers signs →
    (escapeText e [] signs).length ≤ depth → Blank trail → (∀ c ∈ rest.head?, c = ',') →
    (Text.endsInEscape (plain signs) = true → trail ++ rest = []) →
    ReadsComplex (readSelectorListF depth none) (escapeText e [] signs ++ trail) rest
      (x.escape e).bare

/-- A complex selector in a text, with its signs and the blanks around it. -/
structure Item where
  lead : List Char
  signs : List Sign
  trail : List Char
  value : ComplexSelector

namespace Item

/-- The text of an item. -/
def text (x : Item) : List Char := x.lead ++ (plain x.signs ++ x.trail)

/-- The text of an item with variants in the place of the selector. -/
def expand (x : Item) (es : List Escape) : List Char :=
  x.lead ++ ([',', ' '].intercalate (es.map fun e => escapeText e [] x.signs) ++ x.trail)

/-- An item at an offset is what it says. -/
structure Sound (x : Item) (pos : Nat) : Prop where
  lead : Blank x.lead
  trail : Blank x.trail
  placed : Placed (pos + Text.byteLength x.lead) x.signs
  classes : x.signs.filterMap Sign.class? = classesIn x.value.simples
  span : x.value.span = ⟨pos + Text.byteLength x.lead,
    pos + Text.byteLength x.lead + Text.byteLength (plain x.signs)⟩
  escape : Text.endsInEscape (plain x.signs) = true → x.trail = []
  cut : Text.endsInEscape (plain x.signs) = endsCut x.value.simples
  solid : ∀ e, ∃ ch cs, escapeText e [] x.signs = ch :: cs ∧ isSolid ch = true
  escapes : EscapesComplex x.signs x.value

end Item

/-- The items of a text at an offset, with commas between them.  Only the last one can end within an
escape. -/
inductive Items : Nat → List Char → List Item → Prop
  | last {pos : Nat} {x : Item} (h : x.Sound pos) : Items pos x.text [x]
  | cons {pos : Nat} {x : Item} {text : List Char} {xs : List Item} (h : x.Sound pos)
      (hescape : Text.endsInEscape (plain x.signs) = false)
      (hmore : Items (pos + Text.byteLength x.text + 1) text xs) :
      Items pos (x.text ++ ',' :: text) (x :: xs)

/-- The text of items with variants in the place of each selector. -/
def expandItems (variants : ComplexSelector → List Escape) (xs : List Item) : List Char :=
  [','].intercalate (xs.map fun x => x.expand (variants x.value))

theorem Blank.append {xs ys : List Char} (h : Blank xs) (h' : Blank ys) : Blank (xs ++ ys) := by
  induction h with
  | nil => exact h'
  | space hc _ ih => exact .space hc ih
  | @comment body text hbody _ ih =>
    rw [List.cons_append, List.cons_append, List.append_assoc]
    exact .comment hbody ih

variable {text : List Char} {x : Item} {xs : List Item}

theorem Item.Sound.blank_append (hlead : Blank lead) (h : x.Sound (pos + byteLength lead)) :
    Item.Sound { x with lead := lead ++ x.lead } pos := by
  have hpos : pos + byteLength lead + byteLength x.lead =
      pos + byteLength (lead ++ x.lead) := by
    rw [byteLength_append, Nat.add_assoc]
  exact ⟨hlead.append h.lead, h.trail, hpos ▸ h.placed, h.classes, hpos ▸ h.span, h.escape, h.cut,
    h.solid, h.escapes⟩

/-- Blanks in front of items belong to the first of them. -/
theorem Items.blank_append (hlead : Blank lead) (h : Items (pos + byteLength lead) text xs) :
    ∃ ys, Items pos (lead ++ text) ys ∧ ys.map Item.value = xs.map Item.value := by
  cases h with
  | @last _ x h =>
    refine ⟨[{ x with lead := lead ++ x.lead }], ?_, rfl⟩
    have hitems := Items.last (h.blank_append hlead)
    simpa only [Item.text, List.append_assoc] using hitems
  | @cons _ x text xs h hescape hmore =>
    refine ⟨{ x with lead := lead ++ x.lead } :: xs, ?_, rfl⟩
    have hpos : pos + byteLength lead + byteLength x.text =
        pos + byteLength (lead ++ x.lead ++ (plain x.signs ++ x.trail)) := by
      simp only [Item.text, byteLength_append]
      omega
    rw [hpos] at hmore
    have hitems := Items.cons (h.blank_append hlead) hescape hmore
    simpa only [Item.text, List.append_assoc] using hitems

section Readers

variable {source : List Char} {depth : Nat} {beyond : Option Char} {c : Cursor}

/-- **A complex selector is an item of the text.** -/
theorem exists_escapesComplex (hargs : EscapesArgs source (readSelectorListF depth none))
    (hc : c.Within source) {r : Pace ComplexSelector c}
    (h : readComplex (readSelectorListF depth none) beyond c = .ok r) :
    ∃ x : Item, x.value = r.value ∧ x.Sound c.pos ∧ c.rest = x.text ++ r.next.rest ∧
      c.Leads r.next ∧ (endsInEscape (plain x.signs) = true → r.next.rest = []) ∧
      ∀ ch ∈ r.next.rest.head?, ch = ',' := by
  unfold readComplex at h
  obtain ⟨b, hb, h⟩ := bind_eq_ok_iff.1 h
  obtain ⟨relatives, hrelatives, h⟩ := bind_eq_ok_iff.1 h
  have hleads := passBlanks_leads hb
  obtain ⟨lead, hlead, hblank⟩ := blank_of_passBlanks hb
  obtain ⟨signs, trail, d, hsigns, htrail, hdleads, hdrest, hcomma⟩ :=
    exists_escapesRelatives hargs (hleads.within hc) hrelatives
  have hspells := hsigns.spells
  have hbd : b.next.Leads d := ⟨plain signs, hspells.rest_eq, hspells.pos_eq⟩
  have hbpos := pos_eq_of_leads hleads hlead
  split at h
  · cases h
  · rename_i last hlast
    have hne : relatives.value ≠ [] := by
      rintro hnil
      rw [hnil] at hlast
      cases hlast
    have hsolid : ∀ e, ∃ ch cs, escapeText e [] signs = ch :: cs ∧ isSolid ch = true := by
      intro e
      obtain ⟨x, xs, rfl⟩ := List.exists_cons_of_ne_nil (mt hsigns.nil.2 hne)
      obtain ⟨ch, cs, hhead, _⟩ := head_escapeText e x xs
      exact ⟨ch, cs, hhead, hsigns.solid (passBlanks_idem hb) e ch (by rw [hhead]; rfl)⟩
    cases h
    refine ⟨⟨lead, signs, trail, ⟨relatives.value, ⟨b.next.pos, last.span.stop⟩⟩⟩, rfl,
      ⟨hblank, htrail, hbpos ▸ hspells.placed, hspells.classes, ?_, ?_, hspells.cut, hsolid,
        ?_⟩, ?_, (hleads.trans hbd).trans hdleads, ?_, hcomma⟩
    · show (⟨b.next.pos, last.span.stop⟩ : Span) = _
      rw [hsigns.last last hlast, hspells.pos_eq, hbpos]
    · intro hescape
      have hnil := hspells.escape hescape
      rw [hdrest] at hnil
      exact (List.append_eq_nil_iff.1 hnil).1
    · intro e k trail' rest hcovers hk htrail' hrest hescape
      have htext : ∃ ch cs, escapeText e [] signs ++ trail' = ch :: cs ∧ isSolid ch = true := by
        obtain ⟨ch, cs, hhead, hch⟩ := hsolid e
        exact ⟨ch, cs ++ trail', by rw [hhead]; rfl, hch⟩
      have hread := readsComplex_of_relatives
        (hsigns.escapes e k trail' rest hcovers hk htrail' hrest hescape) (by simpa using hne) htext
      rw [ComplexOf.escape, ComplexOf.bare, bareRelatives_eq, escapeRelatives_eq]
      exact hread
    · rw [hlead, hspells.rest_eq, hdrest]
      simp [Item.text]
    · intro hescape
      have hnil := hspells.escape hescape
      rw [hdrest] at hnil
      exact (List.append_eq_nil_iff.1 hnil).2

/-- **The text that complex selectors are read from consists of items.** -/
theorem exists_items_of_complexes (hargs : EscapesArgs source (readSelectorListF depth none))
    (hc : c.Within source) {r : Pace (List ComplexSelector) c}
    (h : readComplexes (readSelectorListF depth none) beyond c = .ok r) :
    ∃ xs, Items c.pos c.rest xs ∧ xs.map Item.value = r.value := by
  fun_induction readComplexes (readSelectorListF depth none) beyond c with
  | case1 c ih =>
    obtain ⟨complex, hcomplex, h⟩ := bind_eq_ok_iff.1 h
    obtain ⟨b, hb, h⟩ := bind_eq_ok_iff.1 h
    obtain ⟨x, hvalue, hsound, hrest, hleads, hescape, hcomma⟩ :=
      exists_escapesComplex hargs hc hcomplex
    -- a comma or the end follows, so there are no blanks to pass
    have hb' : b.next = complex.next := passBlanks_next_eq rfl hb (passBlanks_of_isSolid (by
      intro ch hch
      rw [hcomma ch hch]
      rfl))
    split at h
    · rename_i text htext
      obtain ⟨more, hmore, h⟩ := bind_eq_ok_iff.1 h
      have hbleads := (hleads.trans (passBlanks_leads hb)).trans (Cursor.leads_moveTo_cons htext)
      obtain ⟨xs, hitems, hvalues⟩ := ih complex b text htext (hbleads.within hc) hmore
      have hpos : (b.next.moveTo text).pos = c.pos + byteLength x.text + 1 := by
        rw [Cursor.pos_moveTo_cons htext, hb', pos_eq_of_leads hleads hrest]
        rfl
      rw [hpos] at hitems
      rw [hb'] at htext
      cases h
      refine ⟨x :: xs, ?_, by rw [List.map_cons, hvalue, hvalues]⟩
      rw [hrest, htext]
      refine .cons hsound ?_ hitems
      cases hends : endsInEscape (plain x.signs) with
      | false => rfl
      | true =>
        rw [hescape hends] at htext
        cases htext
    · rename_i hne
      have hnil : complex.next.rest = [] := by
        cases hhead : complex.next.rest with
        | nil => rfl
        | cons ch cs =>
          rw [hcomma ch (by rw [hhead]; rfl), ← hb'] at hhead
          exact absurd hhead (hne cs)
      cases h
      refine ⟨[x], ?_, by rw [List.map_singleton, hvalue]⟩
      rw [hrest, hnil, List.append_nil]
      exact .last hsound

end Readers

/-! ### Variants one after another -/

theorem length_le_length_intercalate (sep : List Char) {x : List Char} {xs : List (List Char)}
    (h : x ∈ xs) : x.length ≤ (sep.intercalate xs).length := by
  induction xs with
  | nil => cases h
  | cons y ys ih =>
    cases ys with
    | nil =>
      obtain rfl := List.mem_singleton.1 h
      exact Nat.le_of_eq (congrArg List.length (List.intercalate_singleton ..).symm)
    | cons z zs =>
      rw [List.intercalate_cons_cons, List.length_append, List.length_append]
      rcases List.mem_cons.1 h with rfl | h
      · omega
      · have := ih h
        omega

/-- The variants of an item are read one after another, in front of other selectors or at the
end. -/
theorem Item.Sound.listed (h : x.Sound pos) {tail : List Char} {ys : List ComplexSelector}
    (htail : tail = [] ∧ ys = [] ∨
      ∃ text, tail = ',' :: text ∧ Listed (readSelectorListF depth none) text ys) {e : Escape}
    {es : List Escape} (hcovers : ∀ v ∈ e :: es, v.Covers x.signs)
    (hdepth : ∀ v ∈ e :: es, (escapeText v [] x.signs).length ≤ depth)
    (hescape : endsInEscape (plain x.signs) = true → es = [] ∧ tail = [])
    (hlead : Blank lead) :
    Listed (readSelectorListF depth none)
      (lead ++ ([',', ' '].intercalate ((e :: es).map fun v => escapeText v [] x.signs) ++
        (x.trail ++ tail)))
      ((e :: es).map (fun v => (x.value.escape v).bare) ++ ys) := by
  have hsolid : ∀ (e : Escape) (trail : List Char),
      ∃ ch cs, escapeText e [] x.signs ++ trail = ch :: cs ∧ isSolid ch = true := by
    intro e trail
    obtain ⟨ch, cs, hhead, hch⟩ := h.solid e
    exact ⟨ch, cs ++ trail, by rw [hhead]; rfl, hch⟩
  induction es generalizing e lead with
  | nil =>
    have hread := fun rest hrest hend => h.escapes e depth x.trail rest
      (hcovers e List.mem_cons_self) (hdepth e List.mem_cons_self) h.trail hrest hend
    rw [List.map_singleton, List.intercalate_singleton, List.map_singleton,
      ← List.append_assoc (escapeText e [] x.signs)]
    rcases htail with ⟨rfl, rfl⟩ | ⟨text, rfl, hmore⟩
    · rw [List.append_nil]
      refine .last hlead (hsolid e x.trail) (hread [] nofun ?_)
      intro hends
      rw [h.escape hends]
      rfl
    · refine .cons hlead (hsolid e x.trail) (hread _ ?_ ?_) hmore
      · rintro ch ⟨⟩
        rfl
      · intro hends
        cases (hescape hends).2
  | cons e' es ih =>
    have hends : endsInEscape (plain x.signs) = false := by
      cases hends : endsInEscape (plain x.signs) with
      | false => rfl
      | true => cases (hescape hends).1
    have hspace : Blank [' '] := .space rfl .nil
    have hmore := ih (List.forall_mem_cons.1 hcovers).2 (List.forall_mem_cons.1 hdepth).2
      (by rw [hends]; nofun) hspace
    have hread := h.escapes e depth [] (',' :: ' ' ::
      ([',', ' '].intercalate ((e' :: es).map fun v => escapeText v [] x.signs) ++
        (x.trail ++ tail))) (hcovers e List.mem_cons_self) (hdepth e List.mem_cons_self) .nil
      (by rintro ch ⟨⟩; rfl) (by rw [hends]; nofun)
    have hlisted := Listed.cons hlead (hsolid e []) hread hmore
    rw [List.append_nil] at hlisted
    rw [List.map_cons, List.map_cons, List.intercalate_cons_cons]
    simpa only [List.map_cons, List.append_assoc, List.cons_append, List.nil_append] using hlisted

/-- **Expanded items are read as all the variants**, if the last one does not end within an escape
or has no more than one variant. -/
theorem Items.listed (h : Items pos text xs) (variants : ComplexSelector → List Escape)
    (hne : ∀ x ∈ xs, variants x.value ≠ [])
    (hcovers : ∀ x ∈ xs, ∀ e ∈ variants x.value, e.Covers x.signs)
    (hlast : ∀ x ∈ xs.getLast?, endsInEscape (plain x.signs) = true →
      (variants x.value).length ≤ 1) (hdepth : (expandItems variants xs).length ≤ depth) :
    Listed (readSelectorListF depth none) (expandItems variants xs)
      (xs.flatMap fun x => (variants x.value).map fun e => (x.value.escape e).bare) := by
  have hvariant : ∀ {x : Item}, (x.expand (variants x.value)).length ≤ depth →
      ∀ e ∈ variants x.value, (escapeText e [] x.signs).length ≤ depth := by
    intro x hx e he
    have hmem : escapeText e [] x.signs ∈
        (variants x.value).map fun v => escapeText v [] x.signs := List.mem_map.2 ⟨e, he, rfl⟩
    have hle := length_le_length_intercalate [',', ' '] hmem
    simp only [Item.expand, List.length_append] at hx
    omega
  induction h with
  | @last pos x h =>
    obtain ⟨e, es, hes⟩ := List.exists_cons_of_ne_nil (hne x List.mem_cons_self)
    have hx := hcovers x List.mem_cons_self
    rw [expandItems, List.map_singleton, List.intercalate_singleton] at hdepth ⊢
    have hlengths := hvariant hdepth
    have hone := hlast x rfl
    rw [hes] at hx hlengths hone
    have hlisted := h.listed (.inl ⟨rfl, rfl⟩) hx hlengths (by
      intro hends
      have := hone hends
      rw [List.length_cons] at this
      exact ⟨List.eq_nil_of_length_eq_zero (by omega), rfl⟩) h.lead
    rw [List.append_nil, List.append_nil] at hlisted
    rw [Item.expand, List.flatMap_singleton, hes]
    exact hlisted
  | @cons pos x text xs h hescape hmore ih =>
    obtain ⟨y, ys, rfl⟩ : ∃ y ys, xs = y :: ys := by
      cases hmore with
      | last _ => exact ⟨_, _, rfl⟩
      | cons _ _ _ => exact ⟨_, _, rfl⟩
    obtain ⟨e, es, hes⟩ := List.exists_cons_of_ne_nil (hne x List.mem_cons_self)
    have hx := hcovers x List.mem_cons_self
    have hexpand : expandItems variants (x :: y :: ys) =
        x.expand (variants x.value) ++ ',' :: expandItems variants (y :: ys) := by
      simp [expandItems, List.intercalate_cons_cons]
    rw [hexpand] at hdepth ⊢
    simp only [List.length_append, List.length_cons] at hdepth
    have hlengths := hvariant (x := x) (by omega)
    have hlisted := ih (List.forall_mem_cons.1 hne).2 (List.forall_mem_cons.1 hcovers).2
      (by rwa [List.getLast?_cons_cons] at hlast) (by omega)
    rw [hes] at hx hlengths
    have hall := h.listed (.inr ⟨_, rfl, hlisted⟩) hx hlengths (by rw [hescape]; nofun) h.lead
    rw [Item.expand, List.flatMap_cons, hes]
    simpa only [List.append_assoc] using hall

/-! ### Lists -/

/-- The signs of an item and of the blanks around it. -/
def Item.allSigns (x : Item) : List Sign := signsOf x.lead ++ (x.signs ++ signsOf x.trail)

theorem class?_head_signsOf (text : List Char) :
    ∀ x ∈ (signsOf text).head?, x.class? = none := by
  cases text with
  | nil => nofun
  | cons c text =>
    rintro x ⟨⟩
    rfl

theorem Item.plain_allSigns (x : Item) : plain x.allSigns = x.text := by
  simp [Item.allSigns, Item.text]

theorem Item.escapeText_allSigns (x : Item) (e : Escape) :
    escapeText e [] x.allSigns = x.expand [e] := by
  rw [Item.allSigns, escapeText_signsOf_append, escapeText_append e [] _ (class?_head_signsOf _),
    escapeText_signsOf, Item.expand, List.map_singleton, List.intercalate_singleton]

theorem Item.Sound.placed_allSigns (h : x.Sound pos) : Placed pos x.allSigns := by
  refine (placed_signsOf _ _).append ?_
  rw [plain_signsOf]
  exact h.placed.append (placed_signsOf _ _)

theorem Item.Sound.classes_allSigns (h : x.Sound pos) :
    x.allSigns.filterMap Sign.class? = classesIn x.value.simples := by
  simp [Item.allSigns, h.classes]

/-- The signs of items make up the signs of the text. -/
theorem Items.exists_signs (h : Items pos text xs) :
    ∃ signs, plain signs = text ∧ Placed pos signs ∧
      signs.filterMap Sign.class? = classesIn (xs.flatMap fun x => x.value.simples) ∧
      (∀ x ∈ xs, ∀ y ∈ x.signs, y ∈ signs) ∧
      ∀ e, escapeText e [] signs = expandItems (fun _ => [e]) xs := by
  have hmem : ∀ (x : Item), ∀ y ∈ x.signs, y ∈ x.allSigns := by
    intro x y hy
    exact List.mem_append_right _ (List.mem_append_left _ hy)
  induction h with
  | @last pos x h =>
    refine ⟨x.allSigns, x.plain_allSigns, h.placed_allSigns, ?_, ?_, ?_⟩
    · rw [h.classes_allSigns, List.flatMap_singleton]
    · exact List.forall_mem_singleton.2 (hmem x)
    · intro e
      rw [x.escapeText_allSigns, expandItems, List.map_singleton, List.intercalate_singleton]
  | @cons pos x text xs h _ hmore ih =>
    obtain ⟨signs, hplain, hplaced, hclasses, hsigns, hescape⟩ := ih
    refine ⟨x.allSigns ++ .char ',' :: signs, ?_, ?_, ?_, ?_, ?_⟩
    · rw [plain_append, x.plain_allSigns, plain_cons, hplain]
      rfl
    · refine h.placed_allSigns.append ⟨nofun, ?_⟩
      rw [x.plain_allSigns]
      exact hplaced
    · rw [List.filterMap_append, h.classes_allSigns, List.flatMap_cons, classesIn_append,
        ← hclasses]
      rfl
    · refine List.forall_mem_cons.2 ⟨fun y hy => List.mem_append_left _ (hmem x y hy), ?_⟩
      intro z hz y hy
      exact List.mem_append_right _ (List.mem_cons_of_mem _ (hsigns z hz y hy))
    · intro e
      have hne : xs.map (fun x => x.expand [e]) ≠ [] := by
        cases hmore <;> simp
      rw [escapeText_append_char, x.escapeText_allSigns, hescape, expandItems, expandItems,
        List.map_cons, List.intercalate_cons_of_ne_nil hne]
      simp

/-- **The text that a list is read from consists of items.** -/
theorem exists_items {source : List Char} {beyond : Option Char} {c : Cursor}
    (hargs : EscapesArgs source (readSelectorListF depth none)) (hc : c.Within source)
    {l : SelectorList} (h : readSelectorListF (depth + 1) beyond c = .ok l) :
    ∃ xs, Items c.pos c.rest xs ∧ xs.map Item.value = l.children := by
  rw [readSelectorListF] at h
  obtain ⟨b, hb, h⟩ := bind_eq_ok_iff.1 h
  obtain ⟨complexes, hcomplexes, h⟩ := bind_eq_ok_iff.1 h
  have hleads := passBlanks_leads hb
  obtain ⟨lead, hlead, hblank⟩ := blank_of_passBlanks hb
  obtain ⟨xs, hitems, hvalues⟩ := exists_items_of_complexes hargs (hleads.within hc) hcomplexes
  rw [pos_eq_of_leads hleads hlead] at hitems
  obtain ⟨ys, hys, hsame⟩ := hitems.blank_append hblank
  split at h
  · rw [← pure_eq_ok_iff.1 h, hlead]
    exact ⟨ys, hys, hsame.trans hvalues⟩
  · cases h

/-- The reader of selector lists reads what is spelled by signs that can be escaped, however deep
arguments are nested. -/
theorem escapesArgs (source : List Char) (depth : Nat) :
    EscapesArgs source (readSelectorListF depth none) := by
  induction depth with
  | zero =>
    intro d l _ h
    cases h
  | succ depth ih =>
    intro d l hd h
    obtain ⟨xs, hitems, hvalues⟩ := exists_items ih hd h
    obtain ⟨signs, hplain, hplaced, hclasses, hsigns, hescape⟩ := hitems.exists_signs
    refine ⟨signs, hplain, hplaced, ?_, ?_⟩
    · rw [hclasses, ListOf.simples, ← hvalues, List.flatMap_map]
    · intro e k hcovers hk
      obtain ⟨k, rfl⟩ : ∃ n, k = n + 1 := ⟨k - 1, by omega⟩
      rw [hescape] at hk ⊢
      have hlisted := hitems.listed (fun _ => [e]) (by simp)
        (fun x hx v hv => List.mem_singleton.1 hv ▸ hcovers.mono (hsigns x hx)) (by simp)
        (Nat.le_of_lt_succ hk)
      have hlist : (l.escape e).bare =
          ⟨xs.flatMap fun x => [e].map fun v => (x.value.escape v).bare, nowhere⟩ := by
        rw [ListOf.escape, ListOf.bare, escapeComplexes_eq, bareComplexes_eq, ← hvalues,
          List.map_map, List.map_map, List.map_eq_flatMap]
        rfl
      rw [hlist]
      exact hlisted.readsList

end CssRune
