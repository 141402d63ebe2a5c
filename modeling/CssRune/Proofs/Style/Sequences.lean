/-
**Selectors that are read one after another.**

A text that is read as a selector in one place is read as it in another, as long as what follows
does not continue it.  This module says so for each layer of a selector list, and puts the layers
together: a compound from its simple selectors, a complex selector from its compounds, a list from
its complex selectors.

Main results:

* `ReadsCompound.cons`, `ReadsRelatives.cons`, `readsComplex_of_relatives`, `Listed.readsList` —
  **texts that are read in one place are read after one another**.
-/

import CssRune.Proofs.Style.Shapes

set_option autoImplicit false

namespace CssRune

/-! ### Simple selectors and compounds -/

section Reads

variable {args : Cursor → Except ParseError SelectorList} {text more rest : List Char}

/-- Where `rest` follows it, a text is read as a simple selector of the shape `s`. -/
def ReadsSimple (args : Cursor → Except ParseError SelectorList) (text rest : List Char)
    (s : SimpleSelector) : Prop :=
  ∀ beyond c, c.rest = text ++ rest → ∃ r, readSimple args beyond c = .ok (some r) ∧
    r.next.rest = rest ∧ r.value.bare = s

/-- Where `rest` follows it, a text is read as a compound of the shape `ss`. -/
def ReadsCompound (args : Cursor → Except ParseError SelectorList) (text rest : List Char)
    (ss : List SimpleSelector) : Prop :=
  ∀ beyond c, c.rest = text ++ rest → ∃ r, readCompound args beyond c = .ok r ∧
    r.next.rest = rest ∧ r.value.map SimpleSelector.bare = ss

/-- Where `rest` follows it, a text is read as relative selectors of the shape `rs`. -/
def ReadsRelatives (args : Cursor → Except ParseError SelectorList) (isFirst : Bool)
    (text rest : List Char) (rs : List RelativeSelector) : Prop :=
  ∀ beyond c, c.rest = text ++ rest → ∃ r, readRelatives args beyond isFirst c = .ok r ∧
    r.next.rest = rest ∧ r.value.map RelativeOf.bare = rs

/-- Where `rest` follows it, a text is read as a complex selector of the shape `x`, whatever blanks
are in front of it. -/
def ReadsComplex (args : Cursor → Except ParseError SelectorList) (text rest : List Char)
    (x : ComplexSelector) : Prop :=
  ∀ beyond c lead, Blank lead → c.rest = lead ++ (text ++ rest) →
    ∃ r, readComplex args beyond c = .ok r ∧ r.next.rest = rest ∧ r.value.bare = x

/-- A text is read as a selector list of the shape `l`; `depth` bounds the nesting of arguments. -/
def ReadsList (depth : Nat) (text : List Char) (l : SelectorList) : Prop :=
  ∀ beyond c, c.rest = text → ∃ r, readSelectorListF depth beyond c = .ok r ∧ r.bare = l

/-- A class is read where it stands. -/
theorem readsSimple_of_class (args : Cursor → Except ParseError SelectorList) {name : String}
    (h : IdentBefore name.toList rest) :
    ReadsSimple args ('.' :: name.toList) rest (.named .class_ name nowhere) := by
  intro beyond c hc
  obtain ⟨r, hr, hnext, hvalue⟩ : ∃ r, readSimple args beyond c = .ok (some r) ∧ _ :=
    readSimple_of_class h hc
  exact ⟨r, hr, hnext, by rw [hvalue, String.ofList_toList]⟩

variable {depth start : Nat} {ss : List SimpleSelector} {isFirst : Bool} {c : Cursor}
  {gap mark blanks : List Char} {kind : Option CombinatorKind} {rs : List RelativeSelector}
  {xs : List ComplexSelector}

/-- A pseudo-class with selectors in its brackets is read where it stands. -/
theorem readsSimple_of_selectors {name inner after : List Char} {l : SelectorList}
    (h : IdentBefore name ('(' :: after)) (htakes : takesSelectors (String.ofList name) = true)
    (hin : Enclosed '(' ')' inner) (hlist : ReadsList depth inner l) :
    ReadsSimple (readSelectorListF depth none) (':' :: (name ++ '(' :: (inner ++ [')']))) rest
      (.pseudoClass (String.ofList name) (some l) nowhere) := by
  intro beyond c hc
  refine readSimple_of_classWith (h.before (fun hname => by cases h.escape hname) h.breaks) hin ?_
    (hc.trans (by simp))
  intro d hd
  obtain ⟨r, hr, hbare⟩ := hlist none d hd
  refine ⟨some r, ?_, congrArg some hbare⟩
  rw [readArgument, if_pos htakes, hr]
  rfl

theorem ReadsCompound.nil (h : ∀ ch ∈ rest.head?, startsSimple ch = false) :
    ReadsCompound args [] rest [] := by
  intro beyond c hc
  rw [List.nil_append] at hc
  rw [readCompound, readSimple_eq_none (by rw [hc]; exact h)]
  exact ⟨_, rfl, hc, rfl⟩

theorem ReadsCompound.cons {s : SimpleSelector} (h : ReadsSimple args text (more ++ rest) s)
    (hmore : ReadsCompound args more rest ss) :
    ReadsCompound args (text ++ more) rest (s :: ss) := by
  intro beyond c hc
  rw [List.append_assoc] at hc
  obtain ⟨r, hr, hnext, hvalue⟩ := h beyond c hc
  obtain ⟨r', hr', hnext', hvalue'⟩ := hmore beyond r.next hnext
  rw [readCompound, hr]
  show ∃ q, (readCompound args beyond r.next >>= _) = Except.ok q ∧ _
  rw [hr']
  exact ⟨_, rfl, hnext', by rw [List.map_cons, hvalue, hvalue']⟩

/-! ### Combinators and complex selectors -/

/-- The combinator that `mark` stands for behind the blanks `gap`. -/
inductive Joins : Bool → List Char → List Char → Option CombinatorKind → Prop
  | mark {isFirst : Bool} {gap : List Char} (kind : CombinatorKind) (h : kind ≠ .descendant) :
      Joins isFirst gap kind.text.toList (some kind)
  | gap {gap : List Char} (h : gap ≠ []) : Joins false gap [] (some .descendant)
  | first {gap : List Char} : Joins true gap [] none

/-- At a simple selector there is no combinator but the blanks before it. -/
theorem readCombinator_of_startsSimple {ch : Char} {cs : List Char} (hc : c.rest = ch :: cs)
    (hch : startsSimple ch = true) :
    readCombinator isFirst start c =
      if isFirst = false ∧ start < c.pos then
        ⟨some ⟨.descendant, ⟨start, c.pos⟩⟩, c, c.length_le_self⟩
      else ⟨none, c, c.length_le_self⟩ := by
  obtain ⟨_, _, hchild, hplus, htilde, hbar⟩ := isSolid_of_startsSimple hch
  have hhead : ∀ {d : Char} {ds : List Char}, c.rest = d :: ds → ch = d := fun hr =>
    (List.cons.inj (hc.symm.trans hr)).1
  unfold readCombinator
  split
  · rename_i hr; exact absurd (hhead hr) hchild
  · rename_i hr; exact absurd (hhead hr) hplus
  · rename_i hr; exact absurd (hhead hr) htilde
  · rename_i hr; exact absurd (hhead hr) hbar
  · rfl

/-- A combinator is read where it stands. -/
theorem Joins.readCombinator (h : Joins isFirst gap mark kind) (hstart : start < c.pos ↔ gap ≠ [])
    (hc : c.rest = mark ++ text)
    (htext : mark = [] → ∃ ch cs, text = ch :: cs ∧ startsSimple ch = true) :
    (CssRune.readCombinator isFirst start c).value.map Combinator.kind = kind ∧
      (CssRune.readCombinator isFirst start c).next.rest = text := by
  cases h with
  | mark kind h =>
    obtain ⟨pos, full⟩ := c
    subst hc
    cases kind with
    | descendant => exact absurd rfl h
    | child => exact ⟨rfl, rfl⟩
    | nextSibling => exact ⟨rfl, rfl⟩
    | subsequentSibling => exact ⟨rfl, rfl⟩
    | column => exact ⟨rfl, rfl⟩
  | gap h =>
    obtain ⟨ch, cs, rfl, hch⟩ := htext rfl
    rw [readCombinator_of_startsSimple hc hch, if_pos ⟨rfl, hstart.2 h⟩]
    exact ⟨rfl, hc⟩
  | first =>
    obtain ⟨ch, cs, rfl, hch⟩ := htext rfl
    rw [readCombinator_of_startsSimple hc hch, if_neg (by simp)]
    exact ⟨rfl, hc⟩

/-- A combinator that was read is one, unless the compound is the first. -/
theorem joins_of_readCombinator {p : Pace (Option Combinator) c}
    (hp : readCombinator isFirst start c = p) (hstart : start < c.pos ↔ gap ≠ [])
    (h : ¬(isFirst = false ∧ p.value.isNone = true)) :
    ∃ mark, c.rest = mark ++ p.next.rest ∧ (mark = [] → p.next = c) ∧
      Joins isFirst gap mark (p.value.map Combinator.kind) := by
  unfold readCombinator at hp
  split at hp
  · rename_i hr
    subst hp
    exact ⟨['>'], hr, nofun, .mark .child nofun⟩
  · rename_i hr
    subst hp
    exact ⟨['+'], hr, nofun, .mark .nextSibling nofun⟩
  · rename_i hr
    subst hp
    exact ⟨['~'], hr, nofun, .mark .subsequentSibling nofun⟩
  · rename_i hr
    subst hp
    exact ⟨['|', '|'], hr, nofun, .mark .column nofun⟩
  · split at hp
    · rename_i hgap
      subst hp
      obtain ⟨rfl, hlt⟩ := hgap
      exact ⟨[], rfl, fun _ => rfl, .gap (hstart.1 hlt)⟩
    · subst hp
      cases isFirst with
      | false => exact absurd ⟨rfl, rfl⟩ h
      | true => exact ⟨[], rfl, fun _ => rfl, .first⟩

/-- A combinator and a compound are read where they stand. -/
theorem readRelative_of_joins {beyond : Option Char} (hstart : start < c.pos ↔ gap ≠ [])
    (hjoins : Joins isFirst gap mark kind) (hblanks : Blank blanks)
    (hmark : mark = [] → blanks = []) (htext : ∃ ch cs, text = ch :: cs ∧ startsSimple ch = true)
    (hcompound : ReadsCompound args text rest ss)
    (hc : c.rest = mark ++ (blanks ++ (text ++ rest))) :
    ∃ r, readRelative args beyond isFirst start c = .ok r ∧ r.next.rest = rest ∧
      r.value.bare = ⟨kind.map fun k => ⟨k, nowhere⟩, ss, nowhere⟩ := by
  obtain ⟨ch, cs, rfl, hch⟩ := htext
  obtain ⟨hsolid, _⟩ := isSolid_of_startsSimple hch
  have hne : ¬(c.rest = ['|'] ∧ beyond = some '|') := by
    rintro ⟨hbar, _⟩
    rw [hc] at hbar
    cases mark with
    | nil =>
      rw [hmark rfl] at hbar
      rw [(List.cons.inj hbar).1] at hch
      cases hch
    | cons m ms =>
      have hlength := congrArg List.length hbar
      simp only [List.length_append, List.length_cons, List.length_nil] at hlength
      omega
  obtain ⟨hkind, hnext⟩ := hjoins.readCombinator hstart hc (by
    intro hnil
    rw [hmark hnil]
    exact ⟨ch, cs ++ rest, rfl, hch⟩)
  have hsome : ¬(isFirst = false ∧ (readCombinator isFirst start c).value.isNone = true) := by
    rintro ⟨rfl, hnone⟩
    rw [Option.isNone_iff_eq_none.1 hnone] at hkind
    subst hkind
    cases hjoins
  obtain ⟨b, hb, hbnext⟩ := hblanks.passBlanks (by
    intro d hd
    cases hd
    exact hsolid) hnext
  obtain ⟨r, hr, hrnext, hvalue⟩ := hcompound beyond b.next hbnext
  have hlt : r.next.length < b.next.length := by
    rw [Cursor.length, Cursor.length, hrnext, hbnext, List.length_append, List.length_cons]
    omega
  unfold readRelative
  rw [if_neg hne]
  simp only []
  rw [if_neg hsome, hb]
  show ∃ q, (readCompound args beyond b.next >>= _) = Except.ok q ∧ _
  rw [hr]
  show ∃ q, (if h : r.next.length < b.next.length then _ else _) = Except.ok q ∧ _
  rw [dif_pos hlt]
  refine ⟨_, rfl, hrnext, ?_⟩
  rw [RelativeOf.bare, bareSimples_eq, hvalue, ← hkind, Option.map_map]
  rfl

/-- Relative selectors end before a comma and at the end. -/
theorem ReadsRelatives.nil (htext : Blank text) (hrest : ∀ ch ∈ rest.head?, ch = ',') :
    ReadsRelatives args isFirst text rest [] := by
  intro beyond c hc
  have hsolid : ∀ ch ∈ rest.head?, isSolid ch = true := by
    intro ch hch
    rw [hrest ch hch]
    rfl
  obtain ⟨b, hb, hnext⟩ := htext.passBlanks hsolid hc
  rw [readRelatives, hb]
  dsimp only [bind, Except.bind]
  split
  · exact ⟨_, rfl, hnext, rfl⟩
  · exact ⟨_, rfl, hnext, rfl⟩
  · rename_i ch hne hhead
    rw [hnext] at hhead
    exact absurd (hrest ch hhead) hne

/-- A relative selector starts with no blank and no comma. -/
theorem Joins.head (h : Joins isFirst gap mark kind) (hmark : mark = [] → blanks = [])
    (htext : ∃ ch cs, text = ch :: cs ∧ startsSimple ch = true) :
    ∃ ch cs, mark ++ (blanks ++ text) = ch :: cs ∧ isSolid ch = true ∧ ch ≠ ',' := by
  obtain ⟨ch, cs, rfl, hch⟩ := htext
  obtain ⟨hsolid, hcomma, _⟩ := isSolid_of_startsSimple hch
  cases h with
  | mark kind h =>
    cases kind with
    | descendant => exact absurd rfl h
    | child => exact ⟨'>', _, rfl, by decide, by decide⟩
    | nextSibling => exact ⟨'+', _, rfl, by decide, by decide⟩
    | subsequentSibling => exact ⟨'~', _, rfl, by decide, by decide⟩
    | column => exact ⟨'|', _, rfl, by decide, by decide⟩
  | gap _ =>
    rw [hmark rfl]
    exact ⟨ch, cs, rfl, hsolid, hcomma⟩
  | first =>
    rw [hmark rfl]
    exact ⟨ch, cs, rfl, hsolid, hcomma⟩

/-- **Relative selectors are read one after another.** -/
theorem ReadsRelatives.cons (hgap : Blank gap) (hjoins : Joins isFirst gap mark kind)
    (hblanks : Blank blanks) (hmark : mark = [] → blanks = [])
    (htext : ∃ ch cs, text = ch :: cs ∧ startsSimple ch = true)
    (hcompound : ReadsCompound args text (more ++ rest) ss)
    (hmore : ReadsRelatives args false more rest rs) :
    ReadsRelatives args isFirst (gap ++ (mark ++ (blanks ++ (text ++ more)))) rest
      (⟨kind.map fun k => ⟨k, nowhere⟩, ss, nowhere⟩ :: rs) := by
  intro beyond c hc
  have hstarts : ∃ ch cs, text ++ (more ++ rest) = ch :: cs ∧ startsSimple ch = true := by
    obtain ⟨ch, cs, rfl, hch⟩ := htext
    exact ⟨ch, _, rfl, hch⟩
  obtain ⟨ch, cs, hhead, hsolid, hcomma⟩ := hjoins.head hmark hstarts
  have hc' : c.rest = gap ++ (mark ++ (blanks ++ (text ++ (more ++ rest)))) := by
    rw [hc]
    simp
  obtain ⟨b, hb, hbnext⟩ := hgap.passBlanks (by
    rw [hhead]
    intro d hd
    cases hd
    exact hsolid) hc'
  have hstart : c.pos < b.next.pos ↔ gap ≠ [] := by
    have hupTo : c.upTo b.next = gap := Cursor.upTo_of_append (hbnext ▸ hc')
    rw [(passBlanks_leads hb).pos_eq, hupTo]
    constructor
    · rintro hlt rfl
      simp at hlt
    · intro hne
      have hpos := Text.byteLength_pos hne
      omega
  obtain ⟨r, hr, hnext, hvalue⟩ : ∃ r, readRelative args beyond isFirst c.pos b.next = .ok r ∧
      r.next.rest = more ++ rest ∧ r.value.bare = ⟨kind.map fun k => ⟨k, nowhere⟩, ss, nowhere⟩ :=
    readRelative_of_joins hstart hjoins hblanks hmark htext hcompound hbnext
  obtain ⟨r', hr', hnext', hvalue'⟩ := hmore beyond r.next hnext
  rw [readRelatives, hb]
  dsimp only [bind, Except.bind]
  have hfirst : b.next.rest.head? = some ch := by
    rw [hbnext, hhead]
    rfl
  split
  · rename_i hnone
    cases hnone.symm.trans hfirst
  · rename_i hsome
    exact absurd (Option.some.inj (hsome.symm.trans hfirst)).symm hcomma
  · rw [hr]
    show ∃ q, (readRelatives args beyond false r.next >>= _) = Except.ok q ∧ _
    rw [hr']
    exact ⟨_, rfl, hnext', by rw [List.map_cons, hvalue, hvalue']⟩

/-- **Relative selectors are read as a complex selector.** -/
theorem readsComplex_of_relatives (h : ReadsRelatives args true text rest rs) (hne : rs ≠ [])
    (htext : ∃ ch cs, text = ch :: cs ∧ isSolid ch = true) :
    ReadsComplex args text rest ⟨rs, nowhere⟩ := by
  intro beyond c lead hlead hc
  obtain ⟨b, hb, hbnext⟩ := hlead.passBlanks (by
    obtain ⟨ch, cs, rfl, hch⟩ := htext
    intro d hd
    cases hd
    exact hch) hc
  obtain ⟨r, hr, hnext, hvalue⟩ := h beyond b.next hbnext
  unfold readComplex
  rw [hb]
  show ∃ q, (readRelatives args beyond true b.next >>= _) = Except.ok q ∧ _
  rw [hr]
  dsimp only [bind, Except.bind]
  split
  · rename_i hnone
    rw [List.getLast?_eq_none_iff.1 hnone] at hvalue
    exact absurd hvalue.symm hne
  · exact ⟨_, rfl, hnext, by rw [ComplexOf.bare, bareRelatives_eq, hvalue]⟩

/-! ### Lists -/

/-- Complex selectors with commas between them, as they are spelled, and their shapes. -/
inductive Listed (args : Cursor → Except ParseError SelectorList) :
    List Char → List ComplexSelector → Prop
  | last {lead text : List Char} {x : ComplexSelector} (hlead : Blank lead)
      (htext : ∃ ch cs, text = ch :: cs ∧ isSolid ch = true) (h : ReadsComplex args text [] x) :
      Listed args (lead ++ text) [x]
  | cons {lead text more : List Char} {x : ComplexSelector} {xs : List ComplexSelector}
      (hlead : Blank lead) (htext : ∃ ch cs, text = ch :: cs ∧ isSolid ch = true)
      (h : ReadsComplex args text (',' :: more) x) (hmore : Listed args more xs) :
      Listed args (lead ++ (text ++ ',' :: more)) (x :: xs)

/-- **Complex selectors are read one after another.** -/
theorem Listed.readComplexes (h : Listed args text xs) (beyond : Option Char) (hc : c.rest = text) :
    ∃ r, CssRune.readComplexes args beyond c = .ok r ∧ r.next.rest = [] ∧
      r.value.map ComplexOf.bare = xs := by
  induction h generalizing c with
  | @last lead text x hlead _ h =>
    obtain ⟨r, hr, hnext, hvalue⟩ := h beyond c lead hlead (by rw [hc, List.append_nil])
    have hb := passBlanks_of_isSolid (c := r.next) (by rw [hnext]; nofun)
    rw [CssRune.readComplexes, hr]
    show ∃ q, (passBlanks r.next >>= _) = Except.ok q ∧ _
    rw [hb]
    dsimp only [bind, Except.bind]
    split
    · rename_i hr'
      cases hnext.symm.trans hr'
    · exact ⟨_, rfl, hnext, by rw [List.map_cons, hvalue]; rfl⟩
  | @cons lead text more x xs hlead _ h _ ih =>
    obtain ⟨r, hr, hnext, hvalue⟩ := h beyond c lead hlead hc
    have hb := passBlanks_of_isSolid (c := r.next) (by
      rw [hnext]
      intro d hd
      cases hd
      rfl)
    rw [CssRune.readComplexes, hr]
    show ∃ q, (passBlanks r.next >>= _) = Except.ok q ∧ _
    rw [hb]
    dsimp only [bind, Except.bind]
    split
    · rename_i rest hrest
      obtain rfl := (List.cons.inj (hrest.symm.trans hnext)).2
      obtain ⟨r', hr', hnext', hvalue'⟩ := ih (c := r.next.moveTo rest) rfl
      rw [hr']
      exact ⟨_, rfl, hnext', by rw [List.map_cons, hvalue, hvalue']⟩
    · rename_i hne
      exact absurd hnext (hne _)

/-- **Complex selectors with commas between them are read as a list.** -/
theorem Listed.readsList (h : Listed (readSelectorListF depth none) text xs) :
    ReadsList (depth + 1) text ⟨xs, nowhere⟩ := by
  intro beyond c hc
  -- the blanks in front are passed once for the list and once for its first selector
  obtain ⟨b, hb, t, ht, hnext⟩ : ∃ b, passBlanks c = .ok b ∧
      ∃ t, Listed (readSelectorListF depth none) t xs ∧ b.next.rest = t := by
    cases h with
    | @last lead text x hlead htext h =>
      obtain ⟨b, hb, hnext⟩ := hlead.passBlanks (by
        obtain ⟨ch, cs, rfl, hch⟩ := htext
        intro d hd
        cases hd
        exact hch) hc
      exact ⟨b, hb, _, .last .nil htext h, hnext⟩
    | @cons lead text more x xs hlead htext h hmore =>
      obtain ⟨b, hb, hnext⟩ := hlead.passBlanks (by
        obtain ⟨ch, cs, rfl, hch⟩ := htext
        intro d hd
        cases hd
        exact hch) hc
      exact ⟨b, hb, _, .cons .nil htext h hmore, hnext⟩
  obtain ⟨r, hr, hrest, hvalue⟩ := ht.readComplexes beyond hnext
  rw [readSelectorListF, hb]
  show ∃ l, (CssRune.readComplexes _ beyond b.next >>= _) = Except.ok l ∧ _
  rw [hr]
  dsimp only [bind, Except.bind]
  rw [hrest]
  exact ⟨_, rfl, by rw [ListOf.bare, bareComplexes_eq, hvalue]⟩

end Reads

end CssRune
