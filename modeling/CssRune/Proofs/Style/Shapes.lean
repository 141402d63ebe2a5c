/-
**Selectors up to the ranges they are written at.**

The same selector can be written in many places.  What it is, apart from where, is its shape; this
module says how simple selectors are spelled, and that they are read as what they spell wherever
they stand.

Main results:

* `readSimple_cases` — **a simple selector is a class, holds selectors, or is an atom**;
* `readSimple_of_class`, `readSimple_of_classWith`, `Atom.readSimple` — each of the three is read
  where it stands;
* `Atom.before` — an atom stays one where something else follows it.

How the layers above are read is `CssRune/Proofs/Style/Sequences.lean`.
-/

import CssRune.Proofs.Style.Tokens

set_option autoImplicit false

namespace CssRune

/-! ### Selectors without ranges -/

/-- The range of what is nowhere. -/
def nowhere : Span := ⟨0, 0⟩

mutual

/-- A simple selector without its ranges. -/
def SimpleSelector.bare : SimpleSelector → SimpleSelector
  | .named kind name _ => .named kind name nowhere
  | .nesting _ => .nesting nowhere
  | .pseudoClass name none _ => .pseudoClass name none nowhere
  | .pseudoClass name (some args) _ => .pseudoClass name (some args.bare) nowhere
termination_by structural s => s

/-- A selector list without its ranges. -/
def ListOf.bare : ListOf SimpleSelector → ListOf SimpleSelector
  | ⟨children, _⟩ => ⟨bareComplexes children, nowhere⟩
termination_by structural s => s

/-- Complex selectors without their ranges. -/
def bareComplexes : List (ComplexOf SimpleSelector) → List (ComplexOf SimpleSelector)
  | [] => []
  | c :: cs => c.bare :: bareComplexes cs
termination_by structural s => s

/-- A complex selector without its ranges. -/
def ComplexOf.bare : ComplexOf SimpleSelector → ComplexOf SimpleSelector
  | ⟨children, _⟩ => ⟨bareRelatives children, nowhere⟩
termination_by structural s => s

/-- Relative selectors without their ranges. -/
def bareRelatives : List (RelativeOf SimpleSelector) → List (RelativeOf SimpleSelector)
  | [] => []
  | r :: rs => r.bare :: bareRelatives rs
termination_by structural s => s

/-- A relative selector without its ranges. -/
def RelativeOf.bare : RelativeOf SimpleSelector → RelativeOf SimpleSelector
  | ⟨combinator, selectors, _⟩ =>
    ⟨combinator.map fun k => ⟨k.kind, nowhere⟩, bareSimples selectors, nowhere⟩
termination_by structural s => s

/-- Simple selectors without their ranges. -/
def bareSimples : List SimpleSelector → List SimpleSelector
  | [] => []
  | s :: ss => s.bare :: bareSimples ss
termination_by structural s => s

end

theorem bareSimples_eq (ss : List SimpleSelector) :
    bareSimples ss = ss.map SimpleSelector.bare := by
  induction ss with
  | nil => rfl
  | cons s ss ih => rw [bareSimples, ih, List.map_cons]

theorem bareRelatives_eq (rs : List RelativeSelector) :
    bareRelatives rs = rs.map RelativeOf.bare := by
  induction rs with
  | nil => rfl
  | cons r rs ih => rw [bareRelatives, ih, List.map_cons]

theorem bareComplexes_eq (cs : List ComplexSelector) :
    bareComplexes cs = cs.map ComplexOf.bare := by
  induction cs with
  | nil => rfl
  | cons c cs ih => rw [bareComplexes, ih, List.map_cons]

theorem SimpleSelector.bare_pseudoClass (name : String) (args : Option SelectorList) (span : Span) :
    (SimpleSelector.pseudoClass name args span).bare =
      .pseudoClass name (args.map ListOf.bare) nowhere := by
  cases args with
  | none => rfl
  | some args => rfl

/-! ### Where compounds start and end -/

/-- Characters that start a simple selector. -/
def startsSimple (c : Char) : Bool := ['.', '#', '[', ':', '&', '*'].contains c || startsIdent c

/-- Characters that end every compound. -/
def endsCompound (c : Char) : Bool := breaksIdent c && c != '(' && !startsSimple c

variable {c : Char} {name rest text rest' : List Char} {s : SimpleSelector}

theorem endsCompound_of_isSpace (h : Text.isSpace c = true) : endsCompound c = true := by
  simp only [Text.isSpace, Bool.or_eq_true, beq_iff_eq] at h
  rcases h with (((rfl | rfl) | rfl) | rfl) | rfl <;> decide

/-- A simple selector starts with no blank, no comma and no combinator. -/
theorem isSolid_of_startsSimple (h : startsSimple c = true) :
    isSolid c = true ∧ c ≠ ',' ∧ c ≠ '>' ∧ c ≠ '+' ∧ c ≠ '~' ∧ c ≠ '|' := by
  have hne : ∀ d, startsSimple d = false → c ≠ d := by
    rintro d hd rfl
    rw [h] at hd
    cases hd
  refine ⟨?_, hne _ (by decide), hne _ (by decide), hne _ (by decide), hne _ (by decide),
    hne _ (by decide)⟩
  cases hspace : Text.isSpace c with
  | true =>
    have hend := endsCompound_of_isSpace hspace
    rw [endsCompound, h] at hend
    simp at hend
  | false => simpa [isSolid, hspace] using hne '/' (by decide)

theorem readSimple_eq_none {args : Cursor → Except ParseError SelectorList} {beyond : Option Char}
    {c : Cursor} (h : ∀ ch ∈ c.rest.head?, startsSimple ch = false) :
    readSimple args beyond c = .ok none := by
  unfold readSimple
  split
  case h_8 ch rest _ _ _ _ _ _ _ hc =>
    have hch := h ch (by rw [hc]; rfl)
    simp only [startsSimple, Bool.or_eq_false_iff] at hch
    rw [if_neg (by simp [hch.2])]
  case h_9 => rfl
  all_goals
    rename_i hc
    rw [hc] at h
    exact absurd (h _ rfl) (by decide)

/-! ### Simple selectors as they are spelled -/

/-- What stands before the name of a selector. -/
def NamedKind.marks : NamedKind → List Char
  | .type => []
  | .id => ['#']
  | .class_ => ['.']
  | .attribute => ['[']
  | .pseudoElement => [':', ':']

/-- The text of a simple selector that is no class and holds no selectors, where `rest` follows it,
and its shape. -/
inductive Atom : List Char → List Char → SimpleSelector → Prop
  | named {kind : NamedKind} {name rest : List Char} (h : IdentBefore name rest)
      (hkind : kind = .id ∨ kind = .type ∧ (∀ c ∈ name.head?, startsIdent c = true) ∨
        kind = .pseudoElement ∧ rest.head? ≠ some '(') :
      Atom (kind.marks ++ name) rest (.named kind (String.ofList name) nowhere)
  | any {rest : List Char} : Atom ['*'] rest (.named .type "*" nowhere)
  | nesting {rest : List Char} : Atom ['&'] rest (.nesting nowhere)
  | brackets {inner rest : List Char} (h : Enclosed '[' ']' inner) :
      Atom ('[' :: (inner ++ [']'])) rest (.named .attribute (attributeName inner) nowhere)
  | elementWith {name inner rest : List Char}
      (h : IdentBefore name ('(' :: (inner ++ ')' :: rest))) (hin : Enclosed '(' ')' inner) :
      Atom (':' :: ':' :: (name ++ '(' :: (inner ++ [')']))) rest
        (.named .pseudoElement (String.ofList name) nowhere)
  | pseudoClass {name rest : List Char} (h : IdentBefore name rest)
      (hrest : rest.head? ≠ some '(') :
      Atom (':' :: name) rest (.pseudoClass (String.ofList name) none nowhere)
  | classWith {name inner rest : List Char} (h : IdentBefore name ('(' :: (inner ++ ')' :: rest)))
      (hin : Enclosed '(' ')' inner) (hname : takesSelectors (String.ofList name) = false) :
      Atom (':' :: (name ++ '(' :: (inner ++ [')']))) rest
        (.pseudoClass (String.ofList name) none nowhere)

/-- Whether the name of a simple selector ends within an escape. -/
def SimpleSelector.endsInEscape : SimpleSelector → Bool
  | .named _ name _ => Text.endsInEscape name.toList
  | .nesting _ => false
  | .pseudoClass name _ _ => Text.endsInEscape name.toList

@[simp] theorem SimpleSelector.endsInEscape_bare (s : SimpleSelector) :
    s.bare.endsInEscape = s.endsInEscape := by
  cases s with
  | named kind name span => rfl
  | nesting span => rfl
  | pseudoClass name args span =>
    rw [SimpleSelector.bare_pseudoClass]
    rfl

theorem IdentBefore.endsInEscape (h : IdentBefore name (c :: rest)) :
    Text.endsInEscape name = false := by
  cases hescape : Text.endsInEscape name with
  | false => rfl
  | true => cases h.escape hescape

theorem endsInEscape_attributeName (inner : List Char) :
    Text.endsInEscape (attributeName inner).toList = false := by
  rw [attributeName, String.toList_ofList]
  exact (afterIdent_of_isIdentChar (List.all_eq_true.1 List.all_takeWhile)).2

/-- An atom ends within an escape exactly if its name does. -/
theorem Atom.endsInEscape (h : Atom text rest s) : Text.endsInEscape text = s.endsInEscape := by
  have hclosed : ∀ (front : List Char) (c : Char), c ≠ '\\' → text = front ++ [c] →
      Text.endsInEscape text = false := by
    rintro front c hc rfl
    exact Text.endsInEscape_concat hc front
  cases h with
  | @named kind name =>
    rw [SimpleSelector.endsInEscape, String.toList_ofList]
    cases kind <;> rfl
  | any => rfl
  | nesting => rfl
  | @brackets inner =>
    rw [hclosed ('[' :: inner) ']' (by decide) rfl, SimpleSelector.endsInEscape,
      endsInEscape_attributeName]
  | @elementWith name inner _ h =>
    rw [hclosed (':' :: ':' :: (name ++ '(' :: inner)) ')' (by decide) (by simp),
      SimpleSelector.endsInEscape, String.toList_ofList, h.endsInEscape]
  | @pseudoClass name =>
    rw [SimpleSelector.endsInEscape, String.toList_ofList]
    rfl
  | @classWith name inner _ h =>
    rw [hclosed (':' :: (name ++ '(' :: inner)) ')' (by decide) (by simp),
      SimpleSelector.endsInEscape, String.toList_ofList, h.endsInEscape]

/-- Nothing follows an atom that ends within an escape. -/
theorem Atom.escape (h : Atom text rest s) (hescape : Text.endsInEscape text = true) :
    rest = [] := by
  rw [h.endsInEscape] at hescape
  cases h with
  | named h _ =>
    rw [SimpleSelector.endsInEscape, String.toList_ofList] at hescape
    exact h.escape hescape
  | any => cases hescape
  | nesting => cases hescape
  | @brackets inner =>
    rw [SimpleSelector.endsInEscape, endsInEscape_attributeName] at hescape
    cases hescape
  | elementWith h _ =>
    rw [SimpleSelector.endsInEscape, String.toList_ofList, h.endsInEscape] at hescape
    cases hescape
  | pseudoClass h _ =>
    rw [SimpleSelector.endsInEscape, String.toList_ofList] at hescape
    exact h.escape hescape
  | classWith h _ _ =>
    rw [SimpleSelector.endsInEscape, String.toList_ofList, h.endsInEscape] at hescape
    cases hescape

/-- An atom starts like a simple selector. -/
theorem Atom.head (h : Atom text rest s) : ∃ c cs, text = c :: cs ∧ startsSimple c = true := by
  cases h with
  | @named kind name _ h hkind =>
    obtain ⟨c, cs, rfl⟩ := List.exists_cons_of_ne_nil h.ne_nil
    rcases hkind with rfl | ⟨rfl, hstart⟩ | ⟨rfl, _⟩
    · exact ⟨'#', c :: cs, rfl, by decide⟩
    · exact ⟨c, cs, rfl, by simp [startsSimple, hstart c rfl]⟩
    · exact ⟨':', ':' :: c :: cs, rfl, by decide⟩
  | any => exact ⟨'*', [], rfl, by decide⟩
  | nesting => exact ⟨'&', [], rfl, by decide⟩
  | brackets => exact ⟨'[', _, rfl, by decide⟩
  | elementWith => exact ⟨':', _, rfl, by decide⟩
  | pseudoClass => exact ⟨':', _, rfl, by decide⟩
  | classWith => exact ⟨':', _, rfl, by decide⟩

/-- What may stand in the place of `rest`: something that starts in the same way, or with a
character that ends names and opens no bracket. -/
def CanFollow (rest rest' : List Char) : Prop :=
  rest'.head? = rest.head? ∨ ∀ c ∈ rest'.head?, breaksIdent c = true ∧ c ≠ '('

theorem CanFollow.breaks (h : CanFollow rest rest')
    (hrest : ∀ c ∈ rest.head?, breaksIdent c = true) :
    ∀ c ∈ rest'.head?, breaksIdent c = true := by
  intro c hc
  rcases h with hsame | hbreaks
  · exact hrest c (hsame ▸ hc)
  · exact (hbreaks c hc).1

theorem CanFollow.head_ne (h : CanFollow rest rest') (hrest : rest.head? ≠ some '(') :
    rest'.head? ≠ some '(' := by
  rcases h with hsame | hbreaks
  · rwa [hsame]
  · intro hhead
    exact (hbreaks '(' hhead).2 rfl

theorem IdentBefore.canFollow (h : IdentBefore name rest) (hrest : CanFollow rest rest')
    (hescape : Text.endsInEscape name = true → rest' = []) : IdentBefore name rest' :=
  h.before hescape (hrest.breaks h.breaks)

/-- An atom stays one where something else follows it. -/
theorem Atom.before (h : Atom text rest s) (hrest : CanFollow rest rest')
    (hescape : Text.endsInEscape text = true → rest' = []) : Atom text rest' s := by
  cases h with
  | @named kind name _ h hkind =>
    have hmarks : Text.endsInEscape (kind.marks ++ name) = Text.endsInEscape name := by
      cases kind <;> rfl
    refine .named (h.canFollow hrest (hmarks ▸ hescape)) ?_
    rcases hkind with hid | htype | ⟨helement, hparen⟩
    · exact .inl hid
    · exact .inr (.inl htype)
    · exact .inr (.inr ⟨helement, hrest.head_ne hparen⟩)
  | any => exact .any
  | nesting => exact .nesting
  | brackets h => exact .brackets h
  | elementWith h hin =>
    exact .elementWith (h.before (fun hname => by cases h.escape hname) h.breaks) hin
  | pseudoClass h hparen =>
    exact .pseudoClass (h.canFollow hrest hescape) (hrest.head_ne hparen)
  | classWith h hin hname =>
    exact .classWith (h.before (fun hname => by cases h.escape hname) h.breaks) hin hname

/-! ### Reading simple selectors -/

section Simple

variable {args : Cursor → Except ParseError SelectorList} {beyond : Option Char} {c : Cursor}
  {tail : List Char}

variable {name rest inner : List Char} {r : Step SimpleSelector c} {list : Option SelectorList}

theorem readMarked_of_identBefore (kind : NamedKind) (size : Nat) (h : IdentBefore name rest)
    (hc : c.rest.drop size = name ++ rest) :
    ∃ r, readMarked kind c size = .ok r ∧
      r.value = .named kind (String.ofList name) ⟨c.pos, r.next.pos⟩ ∧ r.next.rest = rest := by
  obtain ⟨n, hn, hvalue, hrest⟩ := h.readIdent (c := c.skip size) hc
  rw [readMarked, hn]
  refine ⟨_, rfl, ?_, hrest⟩
  rw [← hvalue]

theorem readMarked_identBefore {kind : NamedKind} {size : Nat}
    (h : readMarked kind c size = .ok r) :
    ∃ name, c.rest.drop size = name ++ r.next.rest ∧ IdentBefore name r.next.rest ∧
      r.value = .named kind (String.ofList name) ⟨c.pos, r.next.pos⟩ := by
  obtain ⟨n, hn, h⟩ := bind_eq_ok_iff.1 h
  obtain ⟨name, hrest, hident, hvalue⟩ := readIdent_identBefore hn
  cases h
  exact ⟨name, hrest, hident, by rw [hvalue]⟩

theorem readSimple_dot (hc : c.rest = '.' :: tail) :
    readSimple args beyond c = some <$> readMarked .class_ c 1 := by
  obtain ⟨pos, text⟩ := c
  subst hc
  rfl

theorem readSimple_hash (hc : c.rest = '#' :: tail) :
    readSimple args beyond c = some <$> readMarked .id c 1 := by
  obtain ⟨pos, text⟩ := c
  subst hc
  rfl

theorem readSimple_type {ch : Char} (hc : c.rest = ch :: tail) (hch : startsIdent ch = true) :
    readSimple args beyond c = some <$> readMarked .type c 0 := by
  unfold readSimple
  split
  case h_8 hr =>
    cases (List.cons.inj (hr.symm.trans hc)).1
    rw [if_pos hch]
  case h_9 hr => cases hr.symm.trans hc
  all_goals
    rename_i hr
    cases (List.cons.inj (hr.symm.trans hc)).1
    cases hch

/-- A class is read where it stands. -/
theorem readSimple_of_class (h : IdentBefore name rest) (hc : c.rest = '.' :: (name ++ rest)) :
    ∃ r, readSimple args beyond c = .ok (some r) ∧ r.next.rest = rest ∧
      r.value.bare = .named .class_ (String.ofList name) nowhere := by
  obtain ⟨r, hr, hvalue, hrest⟩ := readMarked_of_identBefore .class_ 1 h (c := c) (by rw [hc]; rfl)
  refine ⟨r, ?_, hrest, by rw [hvalue]; rfl⟩
  rw [readSimple_dot hc, hr]
  rfl

/-- Two colons and a name are read as a pseudo-element. -/
theorem readSimple_of_colons {after : List Char} (h : IdentBefore name after)
    (hparens : ∀ d : Cursor, d.rest = after → ∃ parens, readParens d = .ok parens ∧
      (parens.map fun p => p.next.rest).getD after = rest)
    (hc : c.rest = ':' :: ':' :: (name ++ after)) :
    ∃ r, readSimple args beyond c = .ok (some r) ∧ r.next.rest = rest ∧
      r.value.bare = .named .pseudoElement (String.ofList name) nowhere := by
  obtain ⟨r, hr, hvalue, hrest⟩ :=
    readMarked_of_identBefore .pseudoElement 2 h (c := c) (by rw [hc]; rfl)
  obtain ⟨parens, hparens, hafter⟩ := hparens r.next hrest
  obtain ⟨pos, text⟩ := c
  subst hc
  show ∃ s, (readMarked .pseudoElement _ 2 >>= _) = Except.ok (some s) ∧ _
  rw [hr]
  show ∃ s, (readParens r.next >>= _) = Except.ok (some s) ∧ _
  rw [hparens]
  cases parens with
  | none => exact ⟨r, rfl, hrest.trans hafter, by rw [hvalue]; rfl⟩
  | some p => exact ⟨_, rfl, hafter, by simp only [hvalue]; rfl⟩

/-- An attribute is read where it stands. -/
theorem readSimple_of_brackets (h : Enclosed '[' ']' inner)
    (hc : c.rest = '[' :: (inner ++ ']' :: rest)) :
    ∃ r, readSimple args beyond c = .ok (some r) ∧ r.next.rest = rest ∧
      r.value.bare = .named .attribute (attributeName inner) nowhere := by
  obtain ⟨pos, text⟩ := c
  subst hc
  obtain ⟨s, hs, hrest⟩ := closingBracket_of_scanBrackets (by decide)
    (c := Cursor.moveTo ⟨pos, '[' :: (inner ++ ']' :: rest)⟩ (inner ++ ']' :: rest)) rfl h
  have hupTo : (Cursor.moveTo ⟨pos, '[' :: (inner ++ ']' :: rest)⟩ (inner ++ ']' :: rest)).upTo
      s.next = inner ++ [']'] := by
    refine Cursor.upTo_of_append ?_
    rw [hrest, List.append_assoc]
    rfl
  show ∃ r, (closingBracket '[' ']' 0 _ >>= _) = Except.ok (some r) ∧ _
  rw [hs]
  refine ⟨_, rfl, hrest, ?_⟩
  rw [SimpleSelector.bare, hupTo, List.dropLast_concat]

/-- What is read from the brackets of a pseudo-class. -/
def readArgument (args : Cursor → Except ParseError SelectorList) (name : String) :
    Option Cursor → Except ParseError (Option SelectorList)
  | none => pure none
  | some inner => if takesSelectors name then some <$> args inner else pure none

/-- A colon and a name are read as a pseudo-class. -/
theorem readSimple_of_colon {after : List Char} (h : IdentBefore name after)
    (hparens : ∀ d : Cursor, d.rest = after → ∃ parens, readParens d = .ok parens ∧
      (parens.map fun p => p.next.rest).getD after = rest ∧
      ∃ l, readArgument args (String.ofList name) (parens.map Step.value) = .ok l ∧
        l.map ListOf.bare = list) (hc : c.rest = ':' :: (name ++ after)) :
    ∃ r, readSimple args beyond c = .ok (some r) ∧ r.next.rest = rest ∧
      r.value.bare = .pseudoClass (String.ofList name) list nowhere := by
  have hother : ∀ {d : Char} {ds : List Char}, c.rest = d :: ds → d = ':' := fun hr =>
    (List.cons.inj (hr.symm.trans hc)).1
  rw [readSimple.eq_def]
  split
  case h_4 tail hr =>
    -- a name does not start with a colon
    obtain ⟨ch, more, rfl⟩ := List.exists_cons_of_ne_nil h.ne_nil
    obtain rfl := (List.cons.inj (List.cons.inj (hr.symm.trans hc)).2).1
    cases h.breaks_head rfl
  case h_5 tail _ hr =>
    have htail : tail = name ++ after := (List.cons.inj (hr.symm.trans hc)).2
    have hne : ¬(tail = [] ∧ beyond = some ':') := by
      rintro ⟨hempty, _⟩
      exact h.ne_nil (List.append_eq_nil_iff.1 (htail.symm.trans hempty)).1
    obtain ⟨n, hn, hvalue, hrest⟩ := h.readIdent (c := c.moveTo tail) htail
    obtain ⟨parens, hparens, hafter, l, hl, hbare⟩ := hparens n.next hrest
    rw [if_neg hne, hn]
    show ∃ r, (readParens n.next >>= _) = Except.ok (some r) ∧ _
    rw [hparens]
    rw [← hvalue] at hl ⊢
    cases parens with
    | none =>
      cases hl
      exact ⟨_, rfl, hrest.trans hafter, congrArg (SimpleSelector.pseudoClass _ · nowhere) hbare⟩
    | some p =>
      rw [Option.map_some, readArgument] at hl
      by_cases ht : takesSelectors n.value = true
      · rw [if_pos ht] at hl
        simp only [if_pos ht]
        show ∃ r, ((some <$> args p.value) >>= _) = Except.ok (some r) ∧ _
        rw [hl]
        exact ⟨_, rfl, hafter, by rw [SimpleSelector.bare_pseudoClass, hbare]⟩
      · rw [if_neg ht] at hl
        cases hl
        simp only [if_neg ht]
        exact ⟨_, rfl, hafter, by rw [SimpleSelector.bare_pseudoClass, hbare]⟩
  case h_8 hne _ _ hr => exact absurd (hother hr) hne
  case h_9 hr => cases hr.symm.trans hc
  all_goals
    rename_i hr
    exact absurd (hother hr) (by decide)

/-- A pseudo-class with brackets is read where it stands; `list` is what is read from its
argument. -/
theorem readSimple_of_classWith (h : IdentBefore name ('(' :: (inner ++ ')' :: rest)))
    (hin : Enclosed '(' ')' inner) (hlist : ∀ d : Cursor, d.rest = inner → ∃ l,
      readArgument args (String.ofList name) (some d) = .ok l ∧ l.map ListOf.bare = list)
    (hc : c.rest = ':' :: (name ++ '(' :: (inner ++ ')' :: rest))) :
    ∃ r, readSimple args beyond c = .ok (some r) ∧ r.next.rest = rest ∧
      r.value.bare = .pseudoClass (String.ofList name) list nowhere := by
  refine readSimple_of_colon h ?_ hc
  intro d hd
  obtain ⟨p, hp, hpin, hnext⟩ := hin.readParens hd
  exact ⟨some p, hp, hnext, hlist p.value hpin⟩

/-- **Atoms are read where they stand.** -/
theorem Atom.readSimple {text : List Char} {s : SimpleSelector} (h : Atom text rest s)
    (hc : c.rest = text ++ rest) :
    ∃ r, CssRune.readSimple args beyond c = .ok (some r) ∧ r.next.rest = rest ∧
      r.value.bare = s := by
  cases h with
  | @named kind name _ h hkind =>
    rcases hkind with rfl | ⟨rfl, hstart⟩ | ⟨rfl, hparen⟩
    · obtain ⟨r, hr, hvalue, hrest⟩ :=
        readMarked_of_identBefore .id 1 h (c := c) (by rw [hc]; rfl)
      exact ⟨r, by rw [readSimple_hash hc, hr]; rfl, hrest, by rw [hvalue]; rfl⟩
    · obtain ⟨ch, more, rfl⟩ := List.exists_cons_of_ne_nil h.ne_nil
      obtain ⟨r, hr, hvalue, hrest⟩ := readMarked_of_identBefore .type 0 h (c := c) hc
      exact ⟨r, by rw [readSimple_type hc (hstart ch rfl), hr]; rfl, hrest, by rw [hvalue]; rfl⟩
    · refine readSimple_of_colons h (fun d hd => ?_) hc
      exact ⟨none, readParens_eq_none_iff.2 (hd ▸ hparen), rfl⟩
  | any =>
    obtain ⟨pos, full⟩ := c
    subst hc
    exact ⟨_, rfl, rfl, rfl⟩
  | nesting =>
    obtain ⟨pos, full⟩ := c
    subst hc
    exact ⟨_, rfl, rfl, rfl⟩
  | @brackets inner _ h => exact readSimple_of_brackets h (by rw [hc]; simp)
  | @elementWith name inner _ h hin =>
    refine readSimple_of_colons h (fun d hd => ?_) (by rw [hc]; simp)
    obtain ⟨p, hp, _, hnext⟩ := hin.readParens hd
    exact ⟨some p, hp, hnext⟩
  | @pseudoClass name _ h hrest =>
    refine readSimple_of_colon h (fun d hd => ?_) hc
    exact ⟨none, readParens_eq_none_iff.2 (hd ▸ hrest), rfl, none, rfl, rfl⟩
  | @classWith name inner _ h hin hname =>
    refine readSimple_of_classWith h hin ?_ (by rw [hc]; simp)
    intro d _
    exact ⟨none, by rw [readArgument, hname]; rfl, rfl⟩

/-- What has been read between two cursors: a class, a pseudo-class that holds selectors, or an
atom. -/
def IsSimple (args : Cursor → Except ParseError SelectorList) (c d : Cursor) (s : SimpleSelector) :
    Prop :=
  (∃ name, c.rest = '.' :: (name ++ d.rest) ∧ IdentBefore name d.rest ∧
    s = .named .class_ (String.ofList name) ⟨c.pos, d.pos⟩) ∨
  (∃ name inner list span, c.rest = ':' :: (name ++ '(' :: (inner ++ ')' :: d.rest)) ∧
    IdentBefore name ('(' :: (inner ++ ')' :: d.rest)) ∧ Enclosed '(' ')' inner ∧
    takesSelectors (String.ofList name) = true ∧
    args ⟨c.pos + Text.byteLength (':' :: (name ++ ['('])), inner⟩ = .ok list ∧
    s = .pseudoClass (String.ofList name) (some list) span) ∨
  ∃ text, c.rest = text ++ d.rest ∧ Atom text d.rest s.bare ∧ s.args? = none ∧
    ∀ name span, s ≠ .named .class_ name span

/-- What has been read between brackets is an attribute. -/
theorem isSimple_of_brackets {t : Step Unit (c.moveTo tail)} (hr : c.rest = '[' :: tail)
    (hclosed : closingBracket '[' ']' 0 (c.moveTo tail) = .ok (some t)) (span : Span) :
    IsSimple args c t.next
      (.named .attribute (attributeName ((c.moveTo tail).upTo t.next).dropLast) span) := by
  obtain ⟨inner, hin, hscan⟩ := scanBrackets_of_closingBracket hclosed
  have hrest : (c.moveTo tail).rest = (inner ++ [']']) ++ t.next.rest := by
    rw [hin, List.append_assoc]
    rfl
  refine .inr (.inr ⟨'[' :: (inner ++ [']']), hr.trans (congrArg _ hrest), ?_, rfl, nofun⟩)
  rw [SimpleSelector.bare, Cursor.upTo_of_append hrest, List.dropLast_concat]
  exact .brackets hscan

/-- What has been read after two colons is a pseudo-element, with brackets or without. -/
theorem isSimple_of_element (hr : c.rest = ':' :: ':' :: tail)
    (hmarked : readMarked .pseudoElement c 2 = .ok r) {parens : Option (Step Cursor r.next)}
    (hparens : readParens r.next = .ok parens) :
    ∃ name, (∃ span, r.value = .named .pseudoElement name span) ∧ ∀ span,
      IsSimple args c ((parens.map Step.next).getD r.next) (.named .pseudoElement name span) := by
  obtain ⟨name, hname, hident, hvalue⟩ := readMarked_identBefore hmarked
  rw [hr] at hname
  have htext : c.rest = ':' :: ':' :: (name ++ r.next.rest) :=
    hr.trans (congrArg _ (congrArg _ hname))
  refine ⟨String.ofList name, ⟨_, hvalue⟩, fun span => .inr (.inr ?_)⟩
  cases parens with
  | none =>
    exact ⟨':' :: ':' :: name, htext,
      .named hident (.inr (.inr ⟨rfl, readParens_eq_none_iff.1 hparens⟩)), rfl, nofun⟩
  | some p =>
    obtain ⟨inner, hin, _, hscan⟩ := enclosed_of_readParens hparens
    refine ⟨':' :: ':' :: (name ++ '(' :: (inner ++ [')'])), ?_, ?_, rfl, nofun⟩
    · rw [htext, hin]
      simp
    · exact .elementWith (hin ▸ hident) hscan

/-- What has been read after one colon is a pseudo-class, with an argument or without. -/
theorem isSimple_of_colon {n : Step String (c.moveTo tail)} (hr : c.rest = ':' :: tail)
    (hn : readIdent (c.moveTo tail) = .ok n) {parens : Option (Step Cursor n.next)}
    (hparens : readParens n.next = .ok parens)
    (hlist : readArgument args n.value (parens.map Step.value) = .ok list) (span : Span) :
    IsSimple args c ((parens.map Step.next).getD n.next) (.pseudoClass n.value list span) := by
  obtain ⟨name, hrest, hident, hvalue⟩ := readIdent_identBefore hn
  have htext : c.rest = ':' :: (name ++ n.next.rest) := hr.trans (congrArg _ hrest)
  rw [hvalue] at hlist ⊢
  cases parens with
  | none =>
    cases hlist
    exact .inr (.inr ⟨':' :: name, htext,
      .pseudoClass hident (readParens_eq_none_iff.1 hparens), rfl, nofun⟩)
  | some p =>
    obtain ⟨inner, hin, hcursor, hscan⟩ := enclosed_of_readParens hparens
    rw [hin] at htext hident
    rw [Option.map_some, readArgument] at hlist
    split at hlist
    · rename_i htakes
      obtain ⟨l, hl, rfl⟩ := functor_map_eq_ok_iff.1 hlist
      have hpos : n.next.pos + 1 = c.pos + Text.byteLength (':' :: (name ++ ['('])) := by
        have hcolon : ':'.utf8Size = 1 := rfl
        have hparen : '('.utf8Size = 1 := rfl
        rw [(readIdent_leads hn).1.pos_eq, Cursor.upTo_of_append hrest, Cursor.pos_moveTo_cons hr]
        simp only [Text.byteLength_cons, Text.byteLength_append, Text.byteLength_nil, hcolon,
          hparen]
        omega
      rw [hcursor, hpos] at hl
      exact .inr (.inl ⟨name, inner, l, span, htext, hident, hscan, htakes, hl, rfl⟩)
    · rename_i htakes
      cases hlist
      refine .inr (.inr ⟨':' :: (name ++ '(' :: (inner ++ [')'])), ?_,
        .classWith hident hscan (Bool.eq_false_iff.2 htakes), rfl, nofun⟩)
      exact htext.trans (by simp)

/-- **A simple selector is a class, holds selectors, or is an atom.** -/
theorem readSimple_cases {s : Step SimpleSelector c}
    (h : readSimple args beyond c = .ok (some s)) : IsSimple args c s.next s.value := by
  unfold readSimple at h
  split at h
  · -- a class
    rename_i rest hr
    obtain ⟨r, hmarked, hs⟩ := functor_map_eq_ok_iff.1 h
    cases hs
    obtain ⟨name, hname, hident, hvalue⟩ := readMarked_identBefore hmarked
    rw [hr] at hname
    exact .inl ⟨name, hr.trans (congrArg _ hname), hident, hvalue⟩
  · -- an id
    rename_i rest hr
    obtain ⟨r, hmarked, hs⟩ := functor_map_eq_ok_iff.1 h
    cases hs
    obtain ⟨name, hname, hident, hvalue⟩ := readMarked_identBefore hmarked
    rw [hr] at hname
    rw [hvalue]
    exact .inr (.inr
      ⟨'#' :: name, hr.trans (congrArg _ hname), .named hident (.inl rfl), rfl, nofun⟩)
  · -- an attribute
    rename_i rest hr
    obtain ⟨closed, hclosed, h⟩ := bind_eq_ok_iff.1 h
    cases closed with
    | none => cases h
    | some t =>
      cases h
      exact isSimple_of_brackets hr hclosed _
  · -- a pseudo-element
    rename_i rest hr
    obtain ⟨r, hmarked, h⟩ := bind_eq_ok_iff.1 h
    obtain ⟨parens, hparens, h⟩ := bind_eq_ok_iff.1 h
    obtain ⟨name, ⟨span, hvalue⟩, hsimple⟩ := isSimple_of_element hr hmarked hparens
    cases parens with
    | none =>
      rw [← Option.some.inj (pure_eq_ok_iff.1 h), hvalue]
      exact hsimple span
    | some parens =>
      rw [← Option.some.inj (pure_eq_ok_iff.1 h), hvalue]
      exact hsimple _
  · -- a pseudo-class
    rename_i rest _ hr
    split at h
    · cases h
    obtain ⟨n, hn, h⟩ := bind_eq_ok_iff.1 h
    obtain ⟨parens, hparens, h⟩ := bind_eq_ok_iff.1 h
    cases parens with
    | none =>
      cases h
      exact isSimple_of_colon hr hn hparens rfl _
    | some parens =>
      simp only [] at h
      split at h
      · rename_i htakes
        obtain ⟨list, hlist, h⟩ := bind_eq_ok_iff.1 h
        cases h
        exact isSimple_of_colon hr hn hparens ((if_pos htakes).trans hlist) _
      · rename_i htakes
        cases h
        exact isSimple_of_colon hr hn hparens (if_neg htakes) _
  · -- the nesting selector
    rename_i rest hr
    cases h
    exact .inr (.inr ⟨['&'], hr, .nesting, rfl, nofun⟩)
  · -- any type
    rename_i rest hr
    cases h
    exact .inr (.inr ⟨['*'], hr, .any, rfl, nofun⟩)
  · -- a type
    rename_i ch rest _ _ _ _ _ _ _ hr
    split at h
    · rename_i hstart
      obtain ⟨r, hmarked, hs⟩ := functor_map_eq_ok_iff.1 h
      cases hs
      obtain ⟨name, hname, hident, hvalue⟩ := readMarked_identBefore hmarked
      have hhead : ∀ d ∈ name.head?, startsIdent d = true := by
        intro d hd
        obtain ⟨ds, rfl⟩ := List.head?_eq_some_iff.1 hd
        rwa [← (List.cons.inj (hr.symm.trans hname)).1]
      rw [hvalue]
      exact .inr (.inr ⟨name, hname, .named hident (.inr (.inl ⟨rfl, hhead⟩)), rfl, nofun⟩)
    · simp at h
  · simp at h

end Simple

end CssRune
