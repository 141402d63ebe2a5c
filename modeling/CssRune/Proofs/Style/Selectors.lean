/-
**Where the parts of a selector are written.**

The tree of a selector list remembers ranges at every layer.  This module says how they lie to one
another — a simple selector next to the one before it, a compound after its combinator, the
complex selectors of a list with a comma between them, an argument inside its pseudo-class — and
shows that every list the reader accepts is laid out like that.

* `SimpleSelector.LaidHere`, `RelativeOf.LaidHere`, `ComplexOf.LaidHere`, `ListOf.LaidHere` — the
  layout of one node;
* `SimpleSelector.Laid`, `ComplexOf.Laid`, `ListOf.Laid` — the layout of a node and all nodes below
  it;
* `laid_readSimple`, `laid_readComplex`, `laid_readSelectorListF` — one lemma for each reader, and
  `laid_readSelectorList`: **every list that is read is laid out**.

What follows for the selectors that a walk meets is `CssRune/Proofs/Style/Parts.lean`.
-/

import CssRune.Proofs.Spans
import CssRune.Style.Selector.Parts
import CssRune.Style.Selector.Reader

set_option autoImplicit false

namespace CssRune

/-! ### Layouts -/

/-- How a simple selector is spelled, as far as its name goes. -/
def SimpleSelector.Spelled : SimpleSelector → List Char → Prop
  | .named .type name _, text => text = name.toList
  | .named .id name _, text => text = '#' :: name.toList
  | .named .class_ name _, text => text = '.' :: name.toList
  | .named .attribute _ _, text => ['['] <+: text
  | .named .pseudoElement name _, text => ':' :: ':' :: name.toList <+: text
  | .pseudoClass name _ _, text => ':' :: name.toList <+: text
  | .nesting _, text => text = ['&']

/-- The argument of a pseudo-class. -/
def SimpleSelector.args? : SimpleSelector → Option SelectorList
  | .pseudoClass _ args _ => args
  | _ => none

/-- The layout of a simple selector: it is spelled as its name says, and an argument stands strictly
inside it. -/
structure SimpleSelector.LaidHere (source : List Char) (s : SimpleSelector) : Prop where
  cuts : s.span.Cuts source
  spelled : s.Spelled (Text.slice source s.span)
  args : ∀ l, s.args? = some l → s.span.start < l.span.start ∧ l.span.stop < s.span.stop

/-- The layout of a compound and its combinator: the combinator, if there is one, comes first, and
the simple selectors fill the range from the place where the compound starts. -/
structure RelativeOf.LaidHere (source : List Char) (r : RelativeSelector) (compound : Nat) :
    Prop where
  cuts : r.span.Cuts source
  chain : Span.Chain compound r.span.stop (r.selectors.map SimpleSelector.span)
  nonempty : compound < r.span.stop
  start : r.combinator = none → compound = r.span.start
  combinator : ∀ k, r.combinator = some k →
    k.span.Cuts source ∧ k.span.start = r.span.start ∧ k.span.start < k.span.stop ∧
      k.span.stop ≤ compound

/-- The layout of a complex selector: a row of compounds that starts and ends with it, all but the
first with a combinator. -/
structure ComplexOf.LaidHere (source : List Char) (c : ComplexSelector) : Prop where
  cuts : c.span.Cuts source
  row : Span.Row 0 c.span.start c.span.stop (c.children.map RelativeOf.span)
  first : c.children.head?.map (·.span.start) = some c.span.start
  last : c.children.getLast?.map (·.span.stop) = some c.span.stop
  combinators : ∀ r ∈ c.children.tail, r.combinator.isSome = true

/-- The layout of a selector list: a row of complex selectors, with room for a comma between two of
them, that starts and ends with it. -/
structure ListOf.LaidHere (source : List Char) (l : SelectorList) : Prop where
  cuts : l.span.Cuts source
  row : Span.Row 1 l.span.start l.span.stop (l.children.map ComplexOf.span)
  first : l.children.head?.map (·.span.start) = some l.span.start
  last : l.children.getLast?.map (·.span.stop) = some l.span.stop

mutual

/-- A simple selector and its argument are laid out. -/
def SimpleSelector.Laid (source : List Char) : SimpleSelector → Prop
  | .named kind name span => SimpleSelector.LaidHere source (.named kind name span)
  | .nesting span => SimpleSelector.LaidHere source (.nesting span)
  | .pseudoClass name none span => SimpleSelector.LaidHere source (.pseudoClass name none span)
  | .pseudoClass name (some args) span =>
    SimpleSelector.LaidHere source (.pseudoClass name (some args) span) ∧ args.Laid source
termination_by structural s => s

/-- A selector list and all it holds are laid out. -/
def ListOf.Laid (source : List Char) : ListOf SimpleSelector → Prop
  | ⟨children, span⟩ => ListOf.LaidHere source ⟨children, span⟩ ∧ complexesLaid source children
termination_by structural s => s

/-- Complex selectors and all they hold are laid out. -/
def complexesLaid (source : List Char) : List (ComplexOf SimpleSelector) → Prop
  | [] => True
  | c :: cs => c.Laid source ∧ complexesLaid source cs
termination_by structural s => s

/-- A complex selector and all it holds are laid out. -/
def ComplexOf.Laid (source : List Char) : ComplexOf SimpleSelector → Prop
  | ⟨children, span⟩ => ComplexOf.LaidHere source ⟨children, span⟩ ∧ relativesLaid source children
termination_by structural s => s

/-- Relative selectors and all they hold are laid out. -/
def relativesLaid (source : List Char) : List (RelativeOf SimpleSelector) → Prop
  | [] => True
  | r :: rs => r.Laid source ∧ relativesLaid source rs
termination_by structural s => s

/-- A relative selector and all it holds are laid out. -/
def RelativeOf.Laid (source : List Char) : RelativeOf SimpleSelector → Prop
  | ⟨combinator, selectors, span⟩ =>
    (∃ compound, RelativeOf.LaidHere source ⟨combinator, selectors, span⟩ compound) ∧
      simplesLaid source selectors
termination_by structural s => s

/-- Simple selectors and their arguments are laid out. -/
def simplesLaid (source : List Char) : List SimpleSelector → Prop
  | [] => True
  | s :: ss => s.Laid source ∧ simplesLaid source ss
termination_by structural s => s

end

variable {source : List Char} {c : Cursor}

theorem simplesLaid_iff {ss : List SimpleSelector} :
    simplesLaid source ss ↔ ∀ s ∈ ss, s.Laid source := by
  induction ss with
  | nil => simp [simplesLaid]
  | cons s ss ih => rw [simplesLaid, ih, List.forall_mem_cons]

theorem relativesLaid_iff {rs : List RelativeSelector} :
    relativesLaid source rs ↔ ∀ r ∈ rs, r.Laid source := by
  induction rs with
  | nil => simp [relativesLaid]
  | cons r rs ih => rw [relativesLaid, ih, List.forall_mem_cons]

theorem complexesLaid_iff {cs : List ComplexSelector} :
    complexesLaid source cs ↔ ∀ c ∈ cs, c.Laid source := by
  induction cs with
  | nil => simp [complexesLaid]
  | cons c cs ih => rw [complexesLaid, ih, List.forall_mem_cons]

theorem RelativeOf.Laid.cuts {r : RelativeSelector} (h : r.Laid source) : r.span.Cuts source := by
  cases r
  rw [RelativeOf.Laid] at h
  obtain ⟨⟨compound, hhere⟩, _⟩ := h
  exact hhere.cuts

theorem ComplexOf.Laid.here {c : ComplexSelector} (h : c.Laid source) : c.LaidHere source := by
  cases c
  rw [ComplexOf.Laid] at h
  exact h.1

theorem ListOf.Laid.here {l : SelectorList} (h : l.Laid source) : l.LaidHere source := by
  cases l
  rw [ListOf.Laid] at h
  exact h.1

theorem ListOf.Laid.complexes {l : SelectorList} (h : l.Laid source) :
    ∀ c ∈ l.children, c.Laid source := by
  cases l
  rw [ListOf.Laid] at h
  exact complexesLaid_iff.1 h.2

/-! ### Blanks, identifiers and brackets -/

theorem passBlanks_leads {r : Pace Unit c} (h : passBlanks c = .ok r) : c.Leads r.next := by
  fun_induction passBlanks c with
  | case1 c hc =>
    injection h with h
    exact h ▸ Cursor.Leads.refl c
  | case2 c ch rest hc _ ih =>
    obtain ⟨p, hp, h⟩ := bind_eq_ok_iff.1 h
    cases h
    exact c.leads_next.trans (ih hp)
  | case3 => cases h
  | case4 c ch rest hc _ _ after hr ih =>
    obtain ⟨p, hp, h⟩ := bind_eq_ok_iff.1 h
    cases h
    exact (Cursor.leads_moveTo_comment hc hr).trans (ih hp)
  | case5 c =>
    injection h with h
    exact h ▸ Cursor.Leads.refl c

/-- After blanks and comments there are no more of them. -/
theorem passBlanks_idem {r : Pace Unit c} (h : passBlanks c = .ok r) :
    passBlanks r.next = .ok ⟨(), r.next, r.next.length_le_self⟩ := by
  fun_induction passBlanks c with
  | case1 c hc =>
    cases h
    rw [passBlanks]
    split
    · rfl
    · rename_i hc'
      simp [hc] at hc'
  | case2 c ch rest hc _ ih =>
    obtain ⟨p, hp, h⟩ := bind_eq_ok_iff.1 h
    cases h
    exact ih hp
  | case3 => cases h
  | case4 c ch rest hc _ _ after hr ih =>
    obtain ⟨p, hp, h⟩ := bind_eq_ok_iff.1 h
    cases h
    exact ih hp
  | case5 c ch rest hc hs hcomment =>
    cases h
    rw [passBlanks]
    split
    · rfl
    · rename_i ch' rest' hc'
      rw [hc] at hc'
      obtain ⟨rfl, rfl⟩ := List.cons.inj hc'
      rw [if_neg hs, if_neg hcomment]

theorem passBlanks_next_eq {d : Cursor} {p : Pace Unit c} {q : Pace Unit d} (h : c = d)
    (hp : passBlanks c = .ok p) (hq : passBlanks d = .ok q) : p.next = q.next := by
  subst h
  rw [hp] at hq
  injection hq with hq
  rw [hq]

theorem afterIdent_suffix (cs : List Char) : afterIdent cs <:+ cs := by
  fun_induction afterIdent cs with
  | case1 => exact List.suffix_refl _
  | case2 => exact List.nil_suffix
  | case3 c cs ih => exact ih.trans ⟨['\\', c], rfl⟩
  | case4 c cs _ _ ih => exact ih.trans (List.suffix_cons _ _)
  | case5 => exact List.suffix_refl _

theorem readIdent_leads {r : Step String c} (h : readIdent c = .ok r) :
    c.Leads r.next ∧ r.value.toList = c.upTo r.next := by
  simp only [readIdent] at h
  split at h
  · cases h
    exact ⟨Cursor.leads_moveTo (afterIdent_suffix c.rest), String.toList_ofList⟩
  · cases h

/-- A closing bracket is the last character that its search reads. -/
theorem closingBracket_leads {open_ close : Char} {depth : Nat} {s : Step Unit c}
    (h : closingBracket open_ close depth c = .ok (some s)) :
    c.Leads s.next ∧ ∃ inner, c.upTo s.next = inner ++ [close] := by
  fun_induction closingBracket open_ close depth c with
  | case1 => simp at h
  | case2 => cases h
  | case3 depth c ch rest hc _ after hr ih =>
    obtain ⟨p, hp, h⟩ := bind_eq_ok_iff.1 h
    obtain ⟨q, rfl, rfl⟩ := Option.map_eq_some_iff.1 (pure_eq_ok_iff.1 h)
    obtain ⟨hleads, inner, hin⟩ := ih hp
    have hquoted := Cursor.leads_moveTo_quoted hc hr
    refine ⟨hquoted.trans hleads, c.upTo (c.moveTo after) ++ inner, ?_⟩
    rw [Step.next_after, hquoted.upTo_trans hleads, hin, List.append_assoc]
  | case4 depth c ch rest hc _ hclose =>
    obtain ⟨rfl, rfl⟩ := hclose
    cases h
    exact ⟨Cursor.leads_moveTo_cons hc, [], Cursor.upTo_moveTo_cons hc⟩
  | case5 depth c ch rest hc _ _ deeper =>
    rename_i ih
    obtain ⟨p, hp, h⟩ := bind_eq_ok_iff.1 h
    obtain ⟨q, rfl, rfl⟩ := Option.map_eq_some_iff.1 (pure_eq_ok_iff.1 h)
    obtain ⟨hleads, inner, hin⟩ := ih hp
    refine ⟨c.leads_next.trans hleads, c.upTo c.next ++ inner, ?_⟩
    rw [Step.next_after, c.leads_next.upTo_trans hleads, hin, List.append_assoc]

/-- A class, an id or a pseudo-element is its marks and an identifier. -/
theorem readMarked_leads {kind : NamedKind} {size : Nat} {r : Step SimpleSelector c}
    (h : readMarked kind c size = .ok r) :
    c.Leads r.next ∧ ∃ name, r.value = .named kind name ⟨c.pos, r.next.pos⟩ ∧
      c.upTo r.next = c.rest.take size ++ name.toList := by
  obtain ⟨name, hname, h⟩ := bind_eq_ok_iff.1 h
  cases h
  obtain ⟨hleads, htext⟩ := readIdent_leads hname
  refine ⟨(c.leads_skip size).trans hleads, name.value, rfl, Cursor.upTo_of_append ?_⟩
  rw [htext, List.append_assoc]
  show c.rest = c.rest.take size ++ ((c.skip size).upTo name.next ++ name.next.rest)
  rw [← hleads.rest_eq]
  exact (List.take_append_drop size c.rest).symm

/-- What stands in brackets is read from between them. -/
theorem readParens_leads {p : Step Cursor c} (h : readParens c = .ok (some p)) :
    c.Leads p.next ∧ ∃ inner, c.upTo p.next = '(' :: (inner ++ [')']) ∧
      p.value = ⟨c.pos + 1, inner⟩ ∧ p.next.pos = c.pos + Text.byteLength inner + 2 := by
  unfold readParens at h
  split at h
  · rename_i rest hc
    obtain ⟨closed, hclosed, h⟩ := bind_eq_ok_iff.1 h
    cases closed with
    | none => cases h
    | some s =>
      obtain ⟨hleads, inner, hin⟩ := closingBracket_leads hclosed
      have hopen := Cursor.leads_moveTo_cons hc
      have hupTo : c.upTo s.next = '(' :: (inner ++ [')']) := by
        rw [hopen.upTo_trans hleads, hin, Cursor.upTo_moveTo_cons hc]
        rfl
      cases h
      refine ⟨hopen.trans hleads, inner, hupTo, ?_, ?_⟩
      · show (⟨c.pos + 1, ((c.moveTo rest).upTo s.next).dropLast⟩ : Cursor) = _
        rw [hin, List.dropLast_concat]
      · show s.next.pos = _
        have hopening : '('.utf8Size = 1 := rfl
        have hclosing : ')'.utf8Size = 1 := rfl
        rw [(hopen.trans hleads).pos_eq, hupTo]
        simp only [Text.byteLength_cons, Text.byteLength_append, Text.byteLength_nil, hopening,
          hclosing]
        omega
  · simp at h

/-! ### Simple selectors and compounds -/

/-- A reader of arguments reads lists that are laid out, from inside the text it is given. -/
def LaysOut (source : List Char) (args : Cursor → Except ParseError SelectorList) : Prop :=
  ∀ d l, d.Within source → args d = .ok l →
    l.Laid source ∧ d.pos ≤ l.span.start ∧ l.span.stop ≤ d.pos + Text.byteLength d.rest

section Readers

variable {source : List Char} {args : Cursor → Except ParseError SelectorList}
  {beyond : Option Char} {c d : Cursor}

theorem laidHere_of_leads (hc : c.Within source) (h : c.Leads d) {s : SimpleSelector}
    (hspan : s.span = ⟨c.pos, d.pos⟩) (hspelled : s.Spelled (c.upTo d))
    (hargs : ∀ l, s.args? = some l → s.span.start < l.span.start ∧ l.span.stop < s.span.stop) :
    s.LaidHere source := by
  refine ⟨hspan ▸ Span.cuts_of_leads h hc, ?_, hargs⟩
  rw [hspan, h.slice hc]
  exact hspelled

variable {kind : NamedKind} {name : String} {r : Step RelativeSelector c} {isFirst : Bool}
  {gap : Nat}

theorem laid_named (hc : c.Within source) (h : c.Leads d)
    (hspelled : (SimpleSelector.named kind name ⟨c.pos, d.pos⟩).Spelled (c.upTo d)) :
    (SimpleSelector.named kind name ⟨c.pos, d.pos⟩).Laid source := by
  rw [SimpleSelector.Laid]
  exact laidHere_of_leads hc h rfl hspelled (by simp [SimpleSelector.args?])

theorem laid_readMarked (hc : c.Within source) {size : Nat} {r : Step SimpleSelector c}
    (h : readMarked kind c size = .ok r)
    (hspelled : ∀ name span, (SimpleSelector.named kind name span).Spelled
      (c.rest.take size ++ name.toList)) :
    c.Leads r.next ∧ r.value.span = ⟨c.pos, r.next.pos⟩ ∧ r.value.Laid source := by
  obtain ⟨hleads, name, hvalue, htext⟩ := readMarked_leads h
  rw [hvalue]
  refine ⟨hleads, rfl, laid_named hc hleads ?_⟩
  rw [htext]
  exact hspelled name _

/-- A pseudo-class is laid out if its argument is and stands between its brackets. -/
theorem laid_pseudoClass {list : Option SelectorList} (hc : c.Within source) (hleads : c.Leads d)
    (hspelled : ':' :: name.toList <+: c.upTo d)
    (hlist : ∀ l, list = some l → l.Laid source ∧ c.pos < l.span.start ∧ l.span.stop < d.pos) :
    SimpleSelector.Laid source (.pseudoClass name list ⟨c.pos, d.pos⟩) := by
  cases list with
  | none =>
    rw [SimpleSelector.Laid]
    exact laidHere_of_leads hc hleads rfl hspelled (by simp [SimpleSelector.args?])
  | some l =>
    obtain ⟨hlaid, hinside⟩ := hlist l rfl
    rw [SimpleSelector.Laid]
    refine ⟨laidHere_of_leads hc hleads rfl hspelled ?_, hlaid⟩
    rintro _ ⟨⟩
    exact hinside

/-- What is read from the text between brackets is laid out between them. -/
theorem laid_of_readParens (hargs : LaysOut source args) (hc : c.Within source)
    {parens : Step Cursor c} {l : SelectorList} (hparens : readParens c = .ok (some parens))
    (hl : args parens.value = .ok l) :
    l.Laid source ∧ c.pos < l.span.start ∧ l.span.stop < parens.next.pos := by
  obtain ⟨hleads, inner, hin, hvalue, hpos⟩ := readParens_leads hparens
  have hinner : Cursor.Within source ⟨c.pos + 1, inner⟩ := by
    have hat := hleads.isAt hc
    rw [hin] at hat
    exact hat.tail.left
  have hread : args ⟨c.pos + 1, inner⟩ = .ok l := hvalue ▸ hl
  obtain ⟨hlaid, hlo, hhi⟩ : l.Laid source ∧ c.pos + 1 ≤ l.span.start ∧
      l.span.stop ≤ c.pos + 1 + Text.byteLength inner := hargs _ l hinner hread
  exact ⟨hlaid, hlo, by omega⟩

/-- Every simple selector that is read is laid out and fills the text that was read. -/
theorem laid_readSimple (hargs : LaysOut source args) (hc : c.Within source)
    {s : Step SimpleSelector c} (h : readSimple args beyond c = .ok (some s)) :
    c.Leads s.next ∧ s.value.span = ⟨c.pos, s.next.pos⟩ ∧ s.value.Laid source := by
  unfold readSimple at h
  split at h
  case h_1 rest hr | h_2 rest hr =>
    -- a class or an id
    obtain ⟨r, hmarked, hs⟩ := functor_map_eq_ok_iff.1 h
    cases hs
    refine laid_readMarked hc hmarked fun name span => ?_
    simp [SimpleSelector.Spelled, hr]
  case h_6 rest hr | h_7 rest hr =>
    -- the nesting selector or any type
    have hleads := Cursor.leads_moveTo_cons hr
    have hspan : Span.mk c.pos (c.pos + 1) = ⟨c.pos, (c.moveTo rest).pos⟩ :=
      congrArg _ (Cursor.pos_moveTo_cons hr).symm
    cases h
    refine ⟨hleads, hspan, ?_⟩
    rw [SimpleSelector.Laid]
    exact laidHere_of_leads hc hleads hspan (Cursor.upTo_moveTo_cons hr)
      (by simp [SimpleSelector.args?])
  · -- an attribute
    rename_i rest hr
    obtain ⟨closed, hclosed, h⟩ := bind_eq_ok_iff.1 h
    cases closed with
    | none => cases h
    | some t =>
      obtain ⟨hleads, inner, hin⟩ := closingBracket_leads hclosed
      have hopen := Cursor.leads_moveTo_cons hr
      cases h
      refine ⟨hopen.trans hleads, rfl, laid_named hc (hopen.trans hleads) ?_⟩
      rw [hopen.upTo_trans hleads, Cursor.upTo_moveTo_cons hr]
      exact List.prefix_append _ _
  · -- a pseudo-element
    rename_i rest hr
    obtain ⟨r, hmarked, h⟩ := bind_eq_ok_iff.1 h
    obtain ⟨hleads, name, hvalue, htext⟩ := readMarked_leads hmarked
    obtain ⟨parens, hparens, h⟩ := bind_eq_ok_iff.1 h
    cases parens with
    | none =>
      rw [← Option.some.inj (pure_eq_ok_iff.1 h), hvalue]
      refine ⟨hleads, rfl, laid_named hc hleads ?_⟩
      rw [htext, hr]
      exact List.prefix_rfl
    | some parens =>
      obtain ⟨hleads', _⟩ := readParens_leads hparens
      cases h
      refine ⟨hleads.trans hleads', rfl, laid_named hc (hleads.trans hleads') ?_⟩
      rw [hleads.upTo_trans hleads', htext, hr, hvalue]
      exact List.prefix_append _ _
  · -- a pseudo-class
    rename_i rest _ hr
    split at h
    · cases h
    obtain ⟨name, hname, h⟩ := bind_eq_ok_iff.1 h
    obtain ⟨hident, htext⟩ := readIdent_leads hname
    have hopen := Cursor.leads_moveTo_cons hr
    have hleads := hopen.trans hident
    have hupTo : c.upTo name.next = ':' :: name.value.toList := by
      rw [hopen.upTo_trans hident, Cursor.upTo_moveTo_cons hr, htext]
      rfl
    obtain ⟨parens, hparens, h⟩ := bind_eq_ok_iff.1 h
    cases parens with
    | none =>
      cases h
      exact ⟨hleads, rfl, laid_pseudoClass hc hleads (hupTo ▸ List.prefix_rfl) (by rintro _ ⟨⟩)⟩
    | some parens =>
      obtain ⟨hleads', _⟩ := readParens_leads hparens
      obtain ⟨list, hlist, hs, hnext⟩ : ∃ list, (∀ l, list = some l → args parens.value = .ok l) ∧
          s.value = .pseudoClass name.value list ⟨c.pos, parens.next.pos⟩ ∧
            s.next = parens.next := by
        simp only [] at h
        split at h
        · obtain ⟨list, hlist, h⟩ := bind_eq_ok_iff.1 h
          obtain ⟨l, hl, rfl⟩ := functor_map_eq_ok_iff.1 hlist
          cases h
          exact ⟨some l, fun l' hl' => Option.some.inj hl' ▸ hl, rfl, rfl⟩
        · cases h
          exact ⟨none, by simp, rfl, rfl⟩
      rw [hs, hnext]
      refine ⟨hleads.trans hleads', rfl,
        laid_pseudoClass hc (hleads.trans hleads') ?_ fun l hl => ?_⟩
      · rw [hleads.upTo_trans hleads', hupTo]
        exact List.prefix_append _ _
      · obtain ⟨hlaid, hlo, hhi⟩ :=
          laid_of_readParens hargs (hleads.within hc) hparens (hlist l hl)
        exact ⟨hlaid, Nat.lt_of_le_of_lt hleads.pos_le hlo, hhi⟩
  · -- a type
    rename_i ch rest _ _ _ _ _ _ _ hr
    split at h
    · obtain ⟨r, hmarked, hs⟩ := functor_map_eq_ok_iff.1 h
      cases hs
      refine laid_readMarked hc hmarked fun name span => ?_
      simp [SimpleSelector.Spelled]
    · simp at h
  · simp at h

/-- The simple selectors of a compound fill the text that was read. -/
theorem laid_readCompound (hargs : LaysOut source args) (hc : c.Within source)
    {r : Pace (List SimpleSelector) c} (h : readCompound args beyond c = .ok r) :
    c.Leads r.next ∧ Span.Chain c.pos r.next.pos (r.value.map SimpleSelector.span) ∧
      simplesLaid source r.value := by
  fun_induction readCompound args beyond c with
  | case1 c ih =>
    obtain ⟨first, hfirst, h⟩ := bind_eq_ok_iff.1 h
    cases first with
    | none =>
      cases h
      exact ⟨Cursor.Leads.refl c, rfl, by rw [simplesLaid]; trivial⟩
    | some s =>
      obtain ⟨hleads, hspan, hlaid⟩ := laid_readSimple hargs hc hfirst
      obtain ⟨more, hmore, h⟩ := bind_eq_ok_iff.1 h
      obtain ⟨hleads', hchain, hlaid'⟩ := ih s (hleads.within hc) hmore
      cases h
      refine ⟨hleads.trans hleads', ?_, by rw [simplesLaid]; exact ⟨hlaid, hlaid'⟩⟩
      rw [List.map_cons, hspan]
      exact ⟨rfl, hleads.pos_lt s.shorter, hchain⟩

/-! ### Complex selectors and lists -/

/-- A combinator is what was read, or the blanks before that. -/
theorem readCombinator_leads {p : Pace (Option Combinator) c}
    (hp : readCombinator isFirst gap c = p) :
    c.Leads p.next ∧ (p.value = none → p.next = c) ∧ ∀ k, p.value = some k →
      (k.span = ⟨c.pos, p.next.pos⟩ ∧ c.pos < p.next.pos) ∨
        (isFirst = false ∧ k.span = ⟨gap, c.pos⟩ ∧ gap < c.pos ∧ p.next = c) := by
  have single : ∀ {ch : Char} {rest : List Char} (kind : CombinatorKind), c.rest = ch :: rest →
      ch.utf8Size = 1 → ∀ k, some (Combinator.mk kind ⟨c.pos, c.pos + 1⟩) = some k →
        k.span = ⟨c.pos, (c.moveTo rest).pos⟩ ∧ c.pos < (c.moveTo rest).pos := by
    rintro ch rest kind hr hone k hk
    cases hk
    rw [Cursor.pos_moveTo_cons hr, hone]
    exact ⟨rfl, Nat.lt_succ_self _⟩
  unfold readCombinator at hp
  split at hp
  case h_4 =>
    rename_i rest hr
    subst hp
    have hbars : c.rest = ['|', '|'] ++ rest := hr
    have hpos : (c.moveTo rest).pos = c.pos + 2 := Cursor.pos_moveTo hbars
    refine ⟨Cursor.leads_moveTo (hbars ▸ List.suffix_append _ _), nofun, fun k hk => Or.inl ?_⟩
    cases hk
    show Span.mk c.pos (c.pos + 2) = ⟨c.pos, (c.moveTo rest).pos⟩ ∧ c.pos < (c.moveTo rest).pos
    rw [hpos]
    exact ⟨rfl, by omega⟩
  case h_5 =>
    split at hp
    · rename_i hgap
      subst hp
      refine ⟨Cursor.Leads.refl c, nofun, fun k hk => Or.inr ?_⟩
      cases hk
      exact ⟨hgap.1, rfl, hgap.2, rfl⟩
    · subst hp
      exact ⟨Cursor.Leads.refl c, fun _ => rfl, nofun⟩
  -- The combinators of one sign.
  all_goals
    rename_i rest hr
    subst hp
    exact ⟨Cursor.leads_moveTo_cons hr, nofun, fun k hk => Or.inl (single _ hr rfl k hk)⟩

/-- What a relative selector is read from: a combinator, blanks and a compound. -/
theorem readRelative_eq_ok (h : readRelative args beyond isFirst gap c = .ok r) :
    ∃ combinator : Pace (Option Combinator) c, readCombinator isFirst gap c = combinator ∧
      ¬(isFirst = false ∧ combinator.value.isNone = true) ∧
      ∃ blanks, passBlanks combinator.next = .ok blanks ∧
      ∃ compound, readCompound args beyond blanks.next = .ok compound ∧
        compound.next.length < blanks.next.length ∧ r.next = compound.next ∧
        r.value = ⟨combinator.value, compound.value,
          ⟨(combinator.value.map (·.span.start)).getD blanks.next.pos, compound.next.pos⟩⟩ := by
  unfold readRelative at h
  split at h
  · cases h
  simp only [] at h
  split at h
  · cases h
  rename_i hfirst
  obtain ⟨blanks, hblanks, h⟩ := bind_eq_ok_iff.1 h
  obtain ⟨compound, hcompound, h⟩ := bind_eq_ok_iff.1 h
  split at h
  · rename_i hlt
    cases h
    exact ⟨_, rfl, hfirst, blanks, hblanks, compound, hcompound, hlt, rfl, rfl⟩
  · cases h

/-- A relative selector starts with its combinator, or where it was looked for; `g` is where the
blanks before it start. -/
theorem laid_readRelative (hargs : LaysOut source args) {g : Cursor} (hg : g.Within source)
    (hgc : g.Leads c) (h : readRelative args beyond isFirst g.pos c = .ok r) :
    c.Leads r.next ∧ g.pos ≤ r.value.span.start ∧ r.value.span.start < r.value.span.stop ∧
      r.value.span.stop = r.next.pos ∧ (isFirst = false → r.value.combinator.isSome = true) ∧
      (isFirst = true → passBlanks c = .ok ⟨(), c, c.length_le_self⟩ →
        r.value.span.start = c.pos) ∧
      r.value.Laid source := by
  obtain ⟨combinator, hk, hfirst, blanks, hblanks, compound, hcompound, hlt, hnext, hvalue⟩ :=
    readRelative_eq_ok h
  obtain ⟨hleads, hnone, hsome⟩ := readCombinator_leads hk
  have hc := hgc.within hg
  have hb := hleads.trans (passBlanks_leads hblanks)
  have hbpos := (passBlanks_leads hblanks).pos_le
  obtain ⟨hleads', hchain, hlaid⟩ := laid_readCompound hargs (hb.within hc) hcompound
  have hpos := hleads'.pos_lt hlt
  rw [hnext, hvalue, RelativeOf.Laid]
  refine ⟨hb.trans hleads', ?_⟩
  cases hcomb : combinator.value with
  | none =>
    -- without a combinator the compound is the whole
    refine ⟨(hgc.trans hb).pos_le, hpos, rfl, fun hf => ?_, fun _ hidem => ?_,
      ⟨blanks.next.pos, ?_, hchain, hpos, fun _ => rfl, nofun⟩, hlaid⟩
    · exact absurd ⟨hf, by simp [hcomb]⟩ hfirst
    · exact congrArg Cursor.pos (passBlanks_next_eq (hnone hcomb) hblanks hidem)
    · exact Span.cuts_of_leads hleads' (hb.within hc)
  | some k =>
    have hk : k.span.Cuts source ∧ k.span.start < k.span.stop ∧
        k.span.stop ≤ blanks.next.pos ∧ g.pos ≤ k.span.start ∧
        (isFirst = true → k.span.start = c.pos) ∧
        Span.Cuts source ⟨k.span.start, compound.next.pos⟩ := by
      have hgpos := hgc.pos_le
      have hcpos := hleads.pos_le
      rcases hsome k hcomb with ⟨hspan, hlt⟩ | ⟨hf, hspan, hlt, hsame⟩
      · rw [hspan]
        exact ⟨Span.cuts_of_leads hleads hc, hlt, hbpos, hgpos, fun _ => rfl,
          Span.cuts_of_leads (hb.trans hleads') hc⟩
      · rw [hspan]
        exact ⟨Span.cuts_of_leads hgc hg, hlt, by show c.pos ≤ _; omega, Nat.le_refl _,
          by simp [hf], Span.cuts_of_leads ((hgc.trans hb).trans hleads') hg⟩
    obtain ⟨hcuts, hne, hstop, hlo, hstart, hwhole⟩ := hk
    refine ⟨hlo, ?_, rfl, fun _ => rfl, fun hf _ => hstart hf,
      ⟨blanks.next.pos, hwhole, hchain, hpos, nofun, fun k' hk' => ?_⟩, hlaid⟩
    · show k.span.start < compound.next.pos
      omega
    · obtain rfl := Option.some.inj hk'
      exact ⟨hcuts, rfl, hne, hstop⟩

/-- Relative selectors that were read between two cursors: a row in which all but the first of a
complex selector have a combinator, and in which the first starts at once. -/
structure RelativesRead (source : List Char) (isFirst : Bool) (c : Cursor)
    (rs : List RelativeSelector) (d : Cursor) : Prop where
  leads : c.Leads d
  row : Span.Row 0 c.pos d.pos (rs.map RelativeOf.span)
  combinators : ∀ r ∈ rs.tail, r.combinator.isSome = true
  inner : isFirst = false → ∀ r ∈ rs, r.combinator.isSome = true
  first : isFirst = true → passBlanks c = .ok ⟨(), c, c.length_le_self⟩ →
    ∀ r, rs.head? = some r → r.span.start = c.pos
  laid : relativesLaid source rs

theorem laid_readRelatives (hargs : LaysOut source args) (hc : c.Within source)
    {r : Pace (List RelativeSelector) c} (h : readRelatives args beyond isFirst c = .ok r) :
    RelativesRead source isFirst c r.value r.next := by
  fun_induction readRelatives args beyond isFirst c with
  | case1 isFirst c ih =>
    obtain ⟨blanks, hblanks, h⟩ := bind_eq_ok_iff.1 h
    have hb := passBlanks_leads hblanks
    have hnil : RelativesRead source isFirst c [] blanks.next :=
      ⟨hb, Span.Row.nil 0 _ _, nofun, fun _ => nofun, fun _ _ => nofun,
        by rw [relativesLaid]; trivial⟩
    split at h
    · cases h
      exact hnil
    · cases h
      exact hnil
    · obtain ⟨x, hx, h⟩ := bind_eq_ok_iff.1 h
      obtain ⟨rest, hrest, h⟩ := bind_eq_ok_iff.1 h
      obtain ⟨hleads, hlo, hne, hstop, hcomb, hfirst, hlaid⟩ := laid_readRelative hargs hc hb hx
      have hx' := hb.trans hleads
      have hmore := ih blanks x (hx'.within hc) hrest
      cases h
      refine ⟨hx'.trans hmore.leads, ?_, hmore.inner rfl, fun hf y hy => ?_,
        fun hf hidem y hy => ?_, by rw [relativesLaid]; exact ⟨hlaid, hmore.laid⟩⟩
      · refine Span.Row.cons hlo hne (hstop ▸ hmore.leads.pos_le) ?_
        rw [hstop]
        exact hmore.row
      · rcases List.mem_cons.1 hy with rfl | hy
        · exact hcomb hf
        · exact hmore.inner rfl y hy
      · cases hy
        have hsame := passBlanks_next_eq rfl hblanks hidem
        exact (hfirst hf (passBlanks_idem hblanks)).trans (congrArg Cursor.pos hsame)

/-- A complex selector starts with its first compound and ends with its last, whatever blanks are
around it. -/
theorem laid_readComplex (hargs : LaysOut source args) (hc : c.Within source)
    {r : Pace ComplexSelector c} (h : readComplex args beyond c = .ok r) :
    c.Leads r.next ∧ c.pos ≤ r.value.span.start ∧ r.value.span.start < r.value.span.stop ∧
      r.value.span.stop ≤ r.next.pos ∧ r.value.Laid source ∧
      (passBlanks c = .ok ⟨(), c, c.length_le_self⟩ → r.value.span.start = c.pos) := by
  unfold readComplex at h
  obtain ⟨blanks, hblanks, h⟩ := bind_eq_ok_iff.1 h
  obtain ⟨relatives, hrelatives, h⟩ := bind_eq_ok_iff.1 h
  have hb := passBlanks_leads hblanks
  have hread := laid_readRelatives hargs (hb.within hc) hrelatives
  split at h
  · cases h
  · rename_i last hlast
    cases h
    have hmap : (relatives.value.map RelativeOf.span).getLast? = some last.span := by
      rw [List.getLast?_map, hlast]
      rfl
    obtain ⟨h₁, h₂, h₃⟩ := hread.row.inside _ (List.mem_of_getLast? hmap)
    have hlaid := relativesLaid_iff.1 hread.laid last (List.mem_of_getLast? hlast)
    have hrow := hread.row.to_last hmap
    have hcuts : Span.Cuts source ⟨blanks.next.pos, last.span.stop⟩ :=
      Span.cuts_of_isAt (hb.within hc) hlaid.cuts.isAt_stop (by omega)
    refine ⟨hb.trans hread.leads, hb.pos_le, Nat.lt_of_le_of_lt h₁ h₂, h₃, ?_, fun hidem => ?_⟩
    · rw [ComplexOf.Laid]
      refine ⟨⟨hcuts, hrow, ?_, ?_, hread.combinators⟩, hread.laid⟩
      · cases hhead : relatives.value.head? with
        | none =>
          rw [List.head?_eq_none_iff.1 hhead] at hlast
          cases hlast
        | some x => exact congrArg some (hread.first rfl (passBlanks_idem hblanks) x hhead)
      · rw [hlast]
        rfl
    · exact congrArg Cursor.pos (passBlanks_next_eq rfl hblanks hidem)

/-- The complex selectors of a list are a row with room for commas. -/
theorem laid_readComplexes (hargs : LaysOut source args) (hc : c.Within source)
    {r : Pace (List ComplexSelector) c} (h : readComplexes args beyond c = .ok r) :
    c.Leads r.next ∧ Span.Row 1 c.pos r.next.pos (r.value.map ComplexOf.span) ∧
      complexesLaid source r.value ∧
      (passBlanks c = .ok ⟨(), c, c.length_le_self⟩ →
        r.value.head?.map (·.span.start) = some c.pos) := by
  fun_induction readComplexes args beyond c with
  | case1 c ih =>
    obtain ⟨complex, hcomplex, h⟩ := bind_eq_ok_iff.1 h
    obtain ⟨blanks, hblanks, h⟩ := bind_eq_ok_iff.1 h
    obtain ⟨hleads, hlo, hne, hhi, hlaid, hfirst⟩ := laid_readComplex hargs hc hcomplex
    have hb := passBlanks_leads hblanks
    have hbpos := hb.pos_le
    split at h
    · rename_i rest hrest
      obtain ⟨more, hmore, h⟩ := bind_eq_ok_iff.1 h
      have hcomma := Cursor.leads_moveTo_cons hrest
      have hcpos : (blanks.next.moveTo rest).pos = blanks.next.pos + 1 :=
        Cursor.pos_moveTo_cons hrest
      obtain ⟨hleads', hrow, hlaid', _⟩ :=
        ih complex blanks rest hrest (((hleads.trans hb).trans hcomma).within hc) hmore
      have hmpos := hleads'.pos_le
      cases h
      refine ⟨((hleads.trans hb).trans hcomma).trans hleads', ?_,
        by rw [complexesLaid]; exact ⟨hlaid, hlaid'⟩, fun hidem => congrArg some (hfirst hidem)⟩
      refine Span.Row.cons hlo hne ?_ (hrow.mono ?_ (Nat.le_refl _))
      · show _ ≤ more.next.pos
        omega
      · omega
    · cases h
      refine ⟨hleads.trans hb, ?_, by rw [complexesLaid, complexesLaid]; exact ⟨hlaid, trivial⟩,
        fun hidem => congrArg some (hfirst hidem)⟩
      exact Span.Row.cons hlo hne (Nat.le_trans hhi hbpos) (Span.Row.nil 1 _ _)

end Readers

/-- The reader of selector lists lays them out, whatever the bound on the nesting of arguments. -/
theorem laid_readSelectorListF (depth : Nat) (beyond : Option Char) :
    LaysOut source (readSelectorListF depth beyond) := by
  induction depth generalizing beyond with
  | zero =>
    intro c l _ h
    cases h
  | succ depth ih =>
    intro c l hc h
    rw [readSelectorListF] at h
    obtain ⟨blanks, hblanks, h⟩ := bind_eq_ok_iff.1 h
    obtain ⟨complexes, hcomplexes, h⟩ := bind_eq_ok_iff.1 h
    have hb := passBlanks_leads hblanks
    obtain ⟨hleads, hrow, hlaid, hfirst⟩ :=
      laid_readComplexes (ih none) (hb.within hc) hcomplexes
    have hhead := hfirst (passBlanks_idem hblanks)
    obtain ⟨last, hlast⟩ : ∃ last, complexes.value.getLast? = some last := by
      cases hvalue : complexes.value with
      | nil =>
        rw [hvalue] at hhead
        cases hhead
      | cons first rest => exact ⟨_, List.getLast?_eq_some_getLast (List.cons_ne_nil _ _)⟩
    have hmap : (complexes.value.map ComplexOf.span).getLast? = some last.span := by
      rw [List.getLast?_map, hlast]
      rfl
    have hrow' := hrow.to_last hmap
    obtain ⟨h₁, h₂, h₃⟩ := hrow.inside _ (List.mem_of_getLast? hmap)
    have hlast' := complexesLaid_iff.1 hlaid last (List.mem_of_getLast? hlast)
    have hcuts : Span.Cuts source ⟨blanks.next.pos, last.span.stop⟩ :=
      Span.cuts_of_isAt (hb.within hc) hlast'.here.cuts.isAt_stop (by omega)
    have hend := (hb.trans hleads).end_eq
    split at h
    · rw [← pure_eq_ok_iff.1 h, hlast]
      simp only [Option.map_some, Option.getD_some]
      refine ⟨?_, hb.pos_le, by omega⟩
      rw [ListOf.Laid]
      refine ⟨⟨hcuts, hrow', hhead, ?_⟩, hlaid⟩
      rw [hlast]
      rfl
    · cases h

/-- **Every selector list that is read is laid out**, inside the text it is read from. -/
theorem laid_readSelectorList (beyond : Option Char) : LaysOut source (readSelectorList beyond) :=
  fun c l hc h => laid_readSelectorListF (c.length + 1) beyond c l hc h

end CssRune
