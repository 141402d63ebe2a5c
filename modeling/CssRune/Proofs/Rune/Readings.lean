/-
**Escaped texts are read as escaped selectors.**

A selector that was read is spelled by signs: the classes outside global arguments, and the
characters between them.  Escaping classes in the signs and reading the text gives what escaping
them in the tree gives.  This is shown one layer after another, from simple selectors to lists, in
such a way that the text may be followed by something else than before.

Main definition:

* `Spells` — **signs spell the selectors between two cursors**.

Main results:

* `exists_escapesSimple`, `exists_escapesCompound` — what each reader reads is spelled by signs that
  can be escaped.

The layers above are in `CssRune/Proofs/Rune/Expansion.lean`.
-/

import CssRune.Proofs.Rune.Escapes

set_option autoImplicit false

namespace CssRune

open Text

/-! ### Signs that spell selectors -/

/-- The class that a simple selector is. -/
def SimpleSelector.class? : SimpleSelector → Option (String × Span)
  | .named .class_ name span => some (name, span)
  | _ => none

/-- The classes in selectors, except those that are global already. -/
def classesIn (ss : List SimpleSelector) : List (String × Span) :=
  (ss.flatMap (SimpleSelector.parts (· != globalPseudoClass))).filterMap SimpleSelector.class?

/-- The classes among signs are identifiers, and have the ranges that they take when the text starts
at an offset. -/
def Placed : Nat → List Sign → Prop
  | _, [] => True
  | pos, x :: signs =>
    (∀ name span, x = .class_ name span →
      span = ⟨pos, pos + Text.byteLength x.text⟩ ∧ afterIdent name.toList = []) ∧
      Placed (pos + Text.byteLength x.text) signs

/-- Whether the last of some selectors ends within an escape. -/
def endsCut (ss : List SimpleSelector) : Bool := ss.getLast?.any SimpleSelector.endsInEscape

/-- The signs are the text between two cursors and show the classes of the selectors that were read
there.  A text that ends within an escape is followed by nothing, and it does so exactly if the last
selector does. -/
structure Spells (signs : List Sign) (ss : List SimpleSelector) (c d : Cursor) : Prop where
  rest_eq : c.rest = plain signs ++ d.rest
  pos_eq : d.pos = c.pos + Text.byteLength (plain signs)
  placed : Placed c.pos signs
  classes : signs.filterMap Sign.class? = classesIn ss
  escape : Text.endsInEscape (plain signs) = true → d.rest = []
  nil : plain signs = [] → ss = []
  cut : Text.endsInEscape (plain signs) = endsCut ss

@[simp] theorem classesIn_append (ss ts : List SimpleSelector) :
    classesIn (ss ++ ts) = classesIn ss ++ classesIn ts := by
  simp [classesIn]

variable {s : SimpleSelector} {c : Cursor} {text : List Char}

theorem classesIn_singleton (h : s.args? = none) : classesIn [s] = s.class?.toList := by
  have hentered : s.entered (· != globalPseudoClass) = [] := by
    unfold SimpleSelector.entered
    split
    · cases h
    · rfl
  rw [classesIn, List.flatMap_singleton, s.parts_eq, hentered]
  cases hs : s.class? with
  | none => simp [hs]
  | some p => simp [hs]

/-- The classes of an argument count, unless they are global. -/
theorem classesIn_pseudoClass (name : String) (l : SelectorList) (span : Span) :
    classesIn [.pseudoClass name (some l) span] =
      if name = globalPseudoClass then [] else classesIn l.simples := by
  have hclass : (SimpleSelector.pseudoClass name (some l) span).class? = none := rfl
  rw [classesIn, List.flatMap_singleton, SimpleSelector.parts_eq, SimpleSelector.entered,
    List.filterMap_cons_none hclass]
  by_cases h : name = globalPseudoClass
  · simp [h]
  · simp [h, classesIn]

theorem Placed.append {pos : Nat} {xs ys : List Sign} (h : Placed pos xs)
    (h' : Placed (pos + byteLength (plain xs)) ys) : Placed pos (xs ++ ys) := by
  induction xs generalizing pos with
  | nil => exact h'
  | cons x xs ih =>
    obtain ⟨hx, hxs⟩ := h
    refine ⟨hx, ih hxs ?_⟩
    rwa [Nat.add_assoc, ← byteLength_append, ← plain_cons]

theorem placed_signsOf (pos : Nat) (text : List Char) : Placed pos (signsOf text) := by
  induction text generalizing pos with
  | nil => trivial
  | cons c text ih => exact ⟨nofun, ih _⟩

@[simp] theorem filterMap_signsOf (text : List Char) :
    (signsOf text).filterMap Sign.class? = [] := by
  induction text with
  | nil => rfl
  | cons c text ih => exact ih

/-- If the first selectors are cut off, no others follow them. -/
theorem endsCut_append {ss ts : List SimpleSelector} (h : endsCut ss = true → ts = []) :
    (endsCut ss || endsCut ts) = endsCut (ss ++ ts) := by
  cases ts with
  | nil => simp [endsCut]
  | cons t ts =>
    have hss : endsCut ss = false := by
      cases hcut : endsCut ss with
      | false => rfl
      | true => cases h hcut
    have hlast : (ss ++ t :: ts).getLast? = (t :: ts).getLast? := by
      rw [List.getLast?_append, List.getLast?_cons]
      rfl
    rw [hss, Bool.false_or, endsCut, endsCut, hlast]

theorem pos_eq_of_leads {d : Cursor} (h : c.Leads d) (hrest : c.rest = text ++ d.rest) :
    d.pos = c.pos + byteLength text := by
  rw [h.pos_eq, Cursor.upTo_of_append hrest]

namespace Spells

variable {signs more : List Sign} {ss ts : List SimpleSelector} {c d f : Cursor}

theorem refl (c : Cursor) : Spells [] [] c c := ⟨rfl, rfl, trivial, rfl, nofun, fun _ => rfl, rfl⟩

variable {text name : List Char}

theorem chars (h : c.Leads d) (hrest : c.rest = text ++ d.rest)
    (hescape : endsInEscape text = false) : Spells (signsOf text) [] c d := by
  refine ⟨by rwa [plain_signsOf], ?_, placed_signsOf _ _, filterMap_signsOf _, ?_, fun _ => rfl, ?_⟩
  · rw [plain_signsOf, pos_eq_of_leads h hrest]
  · rw [plain_signsOf, hescape]
    nofun
  · rw [plain_signsOf, hescape]
    rfl

theorem eq_nil_of_endsInEscape (h : Spells signs ss c d) (h' : Spells more ts d f)
    (hescape : endsInEscape (plain signs) = true) : plain more = [] ∧ f.rest = [] := by
  have hrest := h'.rest_eq
  rw [h.escape hescape] at hrest
  exact List.append_eq_nil_iff.1 hrest.symm

theorem endsInEscape_append (h : Spells signs ss c d) (h' : Spells more ts d f) :
    endsInEscape (plain (signs ++ more)) =
      (endsInEscape (plain signs) || endsInEscape (plain more)) := by
  rw [plain_append]
  exact endsInEscape_append_of_nil fun hescape => (h.eq_nil_of_endsInEscape h' hescape).1

/-- Texts that follow one another are spelled by the signs of both. -/
theorem trans (h : Spells signs ss c d) (h' : Spells more ts d f) :
    Spells (signs ++ more) (ss ++ ts) c f := by
  refine ⟨?_, ?_, h.placed.append (h.pos_eq ▸ h'.placed), ?_, ?_, ?_, ?_⟩
  · rw [h.rest_eq, h'.rest_eq, plain_append, List.append_assoc]
  · rw [h'.pos_eq, h.pos_eq, plain_append, byteLength_append, Nat.add_assoc]
  · rw [List.filterMap_append, h.classes, h'.classes, classesIn_append]
  · rw [h.endsInEscape_append h', Bool.or_eq_true]
    rintro (hescape | hescape)
    · exact (h.eq_nil_of_endsInEscape h' hescape).2
    · exact h'.escape hescape
  · rw [plain_append]
    intro hnil
    obtain ⟨hsigns, hmore⟩ := List.append_eq_nil_iff.1 hnil
    rw [h.nil hsigns, h'.nil hmore]
    rfl
  · rw [h.endsInEscape_append h', h.cut, h'.cut]
    refine endsCut_append fun hcut => h'.nil ?_
    rw [← h.cut] at hcut
    exact (h.eq_nil_of_endsInEscape h' hcut).1

/-- A class spells itself. -/
theorem class_ (h : c.Leads d) (hrest : c.rest = '.' :: (name ++ d.rest))
    (hident : IdentBefore name d.rest) :
    Spells [.class_ (String.ofList name) ⟨c.pos, d.pos⟩]
      [.named .class_ (String.ofList name) ⟨c.pos, d.pos⟩] c d := by
  have hplain : plain [.class_ (String.ofList name) ⟨c.pos, d.pos⟩] = '.' :: name := by
    simp [plain, Sign.text]
  have hpos : d.pos = c.pos + byteLength ('.' :: name) := pos_eq_of_leads h hrest
  refine ⟨by rw [hplain, hrest]; rfl, by rw [hplain, hpos], ⟨?_, trivial⟩, rfl, ?_, nofun, ?_⟩
  · rintro _ _ ⟨⟩
    rw [Sign.text, String.toList_ofList, hpos]
    exact ⟨rfl, hident.whole⟩
  · rw [hplain]
    exact hident.escape
  · rw [hplain, endsCut, List.getLast?_singleton, Option.any_some, SimpleSelector.endsInEscape,
      String.toList_ofList]
    exact endsInEscape_cons (by decide) name

/-- An atom is spelled by its characters. -/
theorem atom {s : SimpleSelector} (h : c.Leads d) (hrest : c.rest = text ++ d.rest)
    (hatom : Atom text d.rest s.bare) (hargs : s.args? = none) (hclass : s.class? = none) :
    Spells (signsOf text) [s] c d := by
  refine ⟨by rwa [plain_signsOf], ?_, placed_signsOf _ _, ?_, ?_, ?_, ?_⟩
  · rw [plain_signsOf, pos_eq_of_leads h hrest]
  · rw [filterMap_signsOf, classesIn_singleton hargs, hclass]
    rfl
  · rw [plain_signsOf]
    exact hatom.escape
  · rw [plain_signsOf]
    rintro rfl
    obtain ⟨_, _, hnil, _⟩ := hatom.head
    cases hnil
  · rw [plain_signsOf, hatom.endsInEscape, SimpleSelector.endsInEscape_bare]
    rfl

/-- A pseudo-class with an argument is spelled by the signs of the argument and the characters
around it. -/
theorem pseudoClass {inner : List Char} {args : Option SelectorList} {span : Span} (h : c.Leads d)
    (hrest : c.rest = ':' :: (name ++ '(' :: (inner ++ ')' :: d.rest)))
    (hident : IdentBefore name ('(' :: (inner ++ ')' :: d.rest))) (hplain : plain signs = inner)
    (hplaced : Placed (c.pos + byteLength (':' :: (name ++ ['(']))) signs)
    (hclasses : signs.filterMap Sign.class? =
      classesIn [.pseudoClass (String.ofList name) args span]) :
    Spells (signsOf (':' :: (name ++ ['('])) ++ (signs ++ [.char ')']))
      [.pseudoClass (String.ofList name) args span] c d := by
  have htext : plain (signsOf (':' :: (name ++ ['('])) ++ (signs ++ [.char ')'])) =
      (':' :: (name ++ '(' :: inner)) ++ [')'] := by
    rw [plain_append, plain_signsOf, plain_append, hplain]
    simp [plain, Sign.text]
  have hall : c.rest = (':' :: (name ++ '(' :: inner)) ++ [')'] ++ d.rest := by
    rw [hrest]
    simp
  have hends : endsInEscape ((':' :: (name ++ '(' :: inner)) ++ [')']) = false :=
    endsInEscape_concat (by decide) _
  refine ⟨by rw [htext, hall], by rw [htext, pos_eq_of_leads h hall], ?_, ?_, ?_, ?_, ?_⟩
  · refine (placed_signsOf _ _).append ?_
    rw [plain_signsOf]
    exact hplaced.append ⟨nofun, trivial⟩
  · simp [hclasses, Sign.class?]
  · rw [htext, hends]
    nofun
  · rw [htext]
    nofun
  · rw [htext, hends, endsCut, List.getLast?_singleton, Option.any_some,
      SimpleSelector.endsInEscape, String.toList_ofList, hident.endsInEscape]

end Spells

/-! ### Cutting escaped texts -/

section Cuts

variable {e : Escape} {names : List String} {signs more : List Sign}

/-- A sign that can start a compound. -/
def Sign.starts : Sign → Bool
  | char c => startsSimple c
  | class_ _ _ => true

/-- A text can be cut before a sign that is no class. -/
theorem escapeText_append (e : Escape) (names : List String) (signs : List Sign)
    (h : ∀ x ∈ more.head?, x.class? = none) :
    escapeText e names (signs ++ more) = escapeText e names signs ++ escapeText e [] more := by
  cases more with
  | nil => simp [escapeText, Escape.wrapText]
  | cons x more =>
    cases x with
    | char c => exact escapeText_append_char e names signs c more
    | class_ name span => cases h _ rfl

theorem escapeText_concat_append (e : Escape) (signs : List Sign) (c : Char) (more : List Sign) :
    escapeText e [] (signs ++ [.char c] ++ more) =
      escapeText e [] (signs ++ [.char c]) ++ escapeText e [] more := by
  rw [List.append_assoc, List.singleton_append, escapeText_append_char, escapeText_append_char]
  simp [escapeText, Escape.wrapText]

/-- A run that is open becomes a wrapper, sooner or later. -/
theorem head_escapeText_of_ne_nil (hne : names ≠ []) (signs : List Sign) :
    ∃ cs, escapeText e names signs = ':' :: cs := by
  have hwrap : ∃ cs, e.wrapText names = ':' :: cs := by
    obtain ⟨name, more, rfl⟩ := List.exists_cons_of_ne_nil hne
    exact ⟨_, rfl⟩
  induction signs generalizing names with
  | nil => exact hwrap
  | cons x signs ih =>
    obtain ⟨cs, hcs⟩ := hwrap
    cases x with
    | char c => exact ⟨_, by rw [escapeText, hcs]; rfl⟩
    | class_ name span =>
      rw [escapeText]
      split
      · obtain ⟨n, more, rfl⟩ := List.exists_cons_of_ne_nil hne
        exact ih (by simp) ⟨_, rfl⟩
      · exact ⟨_, by rw [hcs]; rfl⟩

/-- An escaped text starts with its first character, or with a class or a wrapper. -/
theorem head_escapeText (e : Escape) (x : Sign) (signs : List Sign) :
    ∃ c cs, escapeText e [] (x :: signs) = c :: cs ∧ (x = .char c ∨ c = '.' ∨ c = ':') := by
  cases x with
  | char c => exact ⟨c, _, rfl, .inl rfl⟩
  | class_ name span =>
    rw [escapeText]
    split
    · obtain ⟨cs, hcs⟩ : ∃ cs, escapeText e ([] ++ [hashedName e.hash name]) signs = ':' :: cs :=
        head_escapeText_of_ne_nil (by simp) signs
      exact ⟨':', cs, hcs, .inr (.inr rfl)⟩
    · exact ⟨'.', _, rfl, .inr (.inl rfl)⟩

theorem startsSimple_escapeText (e : Escape) {x : Sign} (hx : x.starts = true) (signs : List Sign) :
    ∃ c cs, escapeText e [] (x :: signs) = c :: cs ∧ startsSimple c = true := by
  obtain ⟨c, cs, hhead, rfl | rfl | rfl⟩ := head_escapeText e x signs
  · exact ⟨c, cs, hhead, hx⟩
  · exact ⟨'.', cs, hhead, rfl⟩
  · exact ⟨':', cs, hhead, rfl⟩

/-- What followed a selector can still follow it when it is escaped, if what ends the compound still
ends it. -/
theorem canFollow_escapeText (e : Escape) (signs : List Sign) {rest rest' : List Char}
    (hrest : ∀ c ∈ rest'.head?, endsCompound c = true) :
    CanFollow (plain signs ++ rest) (escapeText e [] signs ++ rest') := by
  cases signs with
  | nil =>
    right
    intro c hc
    have hend := hrest c hc
    simp only [endsCompound, Bool.and_eq_true, bne_iff_ne] at hend
    exact hend.1
  | cons x signs =>
    obtain ⟨c, cs, hhead, rfl | hc⟩ := head_escapeText e x signs
    · left
      rw [hhead]
      rfl
    · right
      rw [hhead]
      intro d hd
      cases hd
      rcases hc with rfl | rfl <;> decide

end Cuts

/-! ### Simple selectors -/

/-- Signs of a simple selector, which `rest` follows, are read as the escaped selector when they are
escaped, even if something else follows. -/
def EscapesSimple (signs : List Sign) (rest : List Char) (s : SimpleSelector) : Prop :=
  ∀ (e : Escape) (depth : Nat) (rest' : List Char), e.Covers signs →
    (escapeText e [] signs).length ≤ depth → CanFollow rest rest' →
    (Text.endsInEscape (plain signs) = true → rest' = []) →
    ReadsSimple (readSelectorListF depth none) (escapeText e [] signs) rest' (s.escape e).bare

/-- Signs of a selector list are read as the escaped list when they are escaped. -/
def EscapesList (signs : List Sign) (l : SelectorList) : Prop :=
  ∀ (e : Escape) (depth : Nat), e.Covers signs → (escapeText e [] signs).length < depth →
    ReadsList depth (escapeText e [] signs) (l.escape e).bare

/-- Every list that a reader of arguments reads is spelled by signs that can be escaped. -/
def EscapesArgs (source : List Char) (args : Cursor → Except ParseError SelectorList) : Prop :=
  ∀ d l, d.Within source → args d = .ok l → ∃ signs, plain signs = d.rest ∧ Placed d.pos signs ∧
    signs.filterMap Sign.class? = classesIn l.simples ∧ EscapesList signs l

theorem SimpleSelector.escape_of_args (h : s.args? = none) (e : Escape) : s.escape e = s := by
  cases s with
  | named kind name span => rfl
  | nesting span => rfl
  | pseudoClass name args span =>
    cases args with
    | none => rfl
    | some args => cases h

theorem escapeText_signsOf (e : Escape) (text : List Char) :
    escapeText e [] (signsOf text) = text := by
  have h := escapeText_signsOf_append e text []
  simpa [escapeText, Escape.wrapText] using h

theorem exists_concat_signsOf (h : text ≠ []) : ∃ front c, signsOf text = front ++ [.char c] := by
  obtain ⟨front, c, rfl⟩ := (List.eq_nil_or_concat text).resolve_left h
  exact ⟨signsOf front, c, by simp [signsOf]⟩

theorem escapesSimple_of_atom {rest : List Char} (h : Atom text rest s.bare)
    (hargs : s.args? = none) : EscapesSimple (signsOf text) rest s := by
  intro e depth rest' _ _ hrest hescape
  rw [plain_signsOf] at hescape
  rw [escapeText_signsOf, s.escape_of_args hargs]
  intro beyond c hc
  exact (h.before hrest hescape).readSimple hc

section Readers

variable {source : List Char} {depth : Nat} {beyond : Option Char} {c d : Cursor}

variable {l : SelectorList}

/-- The signs of an argument: those of its selectors, or characters only if it is global. -/
theorem exists_signs_of_args (hargs : EscapesArgs source (readSelectorListF depth none))
    (hd : d.Within source) (hl : readSelectorListF depth none d = .ok l) (name : String)
    (span : Span) :
    ∃ signs, plain signs = d.rest ∧ Placed d.pos signs ∧
      signs.filterMap Sign.class? = classesIn [.pseudoClass name (some l) span] ∧
      ∀ (e : Escape) (k : Nat), e.Covers signs → (escapeText e [] signs).length < k →
        ReadsList k (escapeText e [] signs)
          (if name = globalPseudoClass then l else l.escape e).bare := by
  obtain ⟨signs, hplain, hplaced, hclasses, hescapes⟩ := hargs d l hd hl
  by_cases hname : name = globalPseudoClass
  · -- nothing is escaped in a global argument
    refine ⟨signsOf d.rest, plain_signsOf _, placed_signsOf _ _, ?_, ?_⟩
    · rw [filterMap_signsOf, classesIn_pseudoClass, if_pos hname]
    · intro e k _ hk
      have hnone := hescapes ⟨"", [], fun _ => false⟩ k ⟨by simp, by simp, by simp⟩
      rw [escapeText_signsOf] at hk ⊢
      rw [escapeText_of_none (fun _ => rfl), hplain, ListOf.escape_of_none (fun _ => rfl)] at hnone
      rw [if_pos hname]
      exact hnone hk
  · refine ⟨signs, hplain, hplaced, ?_, ?_⟩
    · rw [hclasses, classesIn_pseudoClass, if_neg hname]
    · intro e k hcovers hk
      rw [if_neg hname]
      exact hescapes e k hcovers hk

/-- A pseudo-class that holds selectors is spelled by signs that can be escaped. -/
theorem exists_escapesSimple_of_args (hargs : EscapesArgs source (readSelectorListF depth none))
    (hc : c.Within source) (hleads : c.Leads d) {name inner : List Char}
    (hrest : c.rest = ':' :: (name ++ '(' :: (inner ++ ')' :: d.rest)))
    (hident : IdentBefore name ('(' :: (inner ++ ')' :: d.rest))) (hin : Enclosed '(' ')' inner)
    (htakes : takesSelectors (String.ofList name) = true) (hl : readSelectorListF depth none
      ⟨c.pos + byteLength (':' :: (name ++ ['('])), inner⟩ = .ok l) (span : Span) :
    ∃ front, Spells (.char ':' :: front ++ [.char ')'])
        [.pseudoClass (String.ofList name) (some l) span] c d ∧
      EscapesSimple (.char ':' :: front ++ [.char ')']) d.rest
        (.pseudoClass (String.ofList name) (some l) span) := by
  have hopen : c.rest = (':' :: (name ++ ['('])) ++ (inner ++ ')' :: d.rest) := by
    rw [hrest]
    simp
  have hinner : Cursor.Within source ⟨c.pos + byteLength (':' :: (name ++ ['('])), inner⟩ := by
    rw [Cursor.Within, hopen] at hc
    exact hc.right.left
  obtain ⟨signs, hplain, hplaced, hclasses, hescapes⟩ :=
    exists_signs_of_args hargs hinner hl (String.ofList name) span
  have hsigns : (.char ':' :: (signsOf (name ++ ['(']) ++ signs)) ++ [.char ')'] =
      signsOf (':' :: (name ++ ['('])) ++ (signs ++ [.char ')']) := by
    simp [signsOf]
  refine ⟨signsOf (name ++ ['(']) ++ signs, ?_, ?_⟩
  · rw [hsigns]
    exact .pseudoClass hleads hrest hident hplain hplaced hclasses
  · intro e k rest' hcovers hk _ _
    have hinner : e.Covers signs := hcovers.mono (by simp +contextual)
    have hescaped : escapeText e [] ((.char ':' :: (signsOf (name ++ ['(']) ++ signs)) ++
        [.char ')']) = ':' :: (name ++ '(' :: (escapeText e [] signs ++ [')'])) := by
      rw [hsigns, escapeText_signsOf_append, escapeText_append_char]
      simp [escapeText, Escape.wrapText]
    rw [hescaped] at hk ⊢
    refine readsSimple_of_selectors hident htakes (Enclosed.escapeText (hplain ▸ hin) hinner)
      (hescapes e k hinner ?_)
    simp only [List.length_cons, List.length_append] at hk
    omega

/-- **A simple selector is a class, or it is spelled by signs that can be escaped**; the signs start
and end with characters. -/
theorem exists_escapesSimple (hargs : EscapesArgs source (readSelectorListF depth none))
    (hc : c.Within source) {s : Step SimpleSelector c}
    (h : readSimple (readSelectorListF depth none) beyond c = .ok (some s)) :
    (∃ name span, s.value = .named .class_ name span ∧ IdentBefore name.toList s.next.rest ∧
      Spells [.class_ name span] [s.value] c s.next) ∨
    ∃ first front last, startsSimple first = true ∧ s.value.class? = none ∧
      (∃ more, front ++ [.char last] = .char first :: more) ∧
      Spells (front ++ [.char last]) [s.value] c s.next ∧
      EscapesSimple (front ++ [.char last]) s.next.rest s.value := by
  have hleads := (laid_readSimple (laid_readSelectorListF depth none) hc h).1
  rcases readSimple_cases h with ⟨name, hrest, hident, hvalue⟩ |
    ⟨name, inner, l, span, hrest, hident, hin, htakes, hl, hvalue⟩ |
    ⟨text, hrest, hatom, hnone, hne⟩
  · left
    refine ⟨String.ofList name, _, hvalue, by rwa [String.toList_ofList], ?_⟩
    rw [hvalue]
    exact .class_ hleads hrest hident
  · right
    obtain ⟨front, hspells, hescapes⟩ :=
      exists_escapesSimple_of_args hargs hc hleads hrest hident hin htakes hl span
    rw [hvalue]
    exact ⟨':', .char ':' :: front, ')', rfl, rfl, ⟨_, rfl⟩, hspells, hescapes⟩
  · right
    obtain ⟨first, more, rfl, hfirst⟩ := hatom.head
    obtain ⟨front, last, hlast⟩ := exists_concat_signsOf (List.cons_ne_nil first more)
    have hclass : s.value.class? = none := by
      unfold SimpleSelector.class?
      split
      · rename_i hvalue
        exact absurd hvalue (hne _ _)
      · rfl
    refine ⟨first, front, last, hfirst, hclass, ⟨signsOf more, hlast ▸ rfl⟩, ?_, ?_⟩
    · rw [← hlast]
      exact .atom hleads hrest hatom hnone hclass
    · rw [← hlast]
      exact escapesSimple_of_atom hatom hnone

end Readers

/-! ### Compounds -/

/-- Signs of a compound are read as the escaped compound when they are escaped, whatever run of
escaped classes is open and whatever ends the compound. -/
def EscapesCompound (signs : List Sign) (ss : List SimpleSelector) : Prop :=
  ∀ (e : Escape) (names : List String) (depth : Nat) (rest : List Char), e.Covers signs →
    (∀ name ∈ names, IsName name) → (escapeText e names signs).length ≤ depth →
    (∀ c ∈ rest.head?, endsCompound c = true) →
    (Text.endsInEscape (plain signs) = true → rest = []) →
    ReadsCompound (readSelectorListF depth none) (escapeText e names signs) rest
      ((escapeSimples e names ss).map SimpleSelector.bare)

section Compounds

variable {signs more : List Sign} {rest : List Char} {ss : List SimpleSelector}

theorem plain_eq_nil_iff : plain signs = [] ↔ signs = [] := by
  constructor
  · intro h
    cases signs with
    | nil => rfl
    | cons x signs => cases x <;> cases h
  · rintro rfl
    rfl

/-- A part that ends within an escape is the last one, before and after escaping. -/
theorem escape_cut {text rest' : List Char} (h : endsInEscape text = true → plain more ++ rest = [])
    (hescape : endsInEscape (text ++ plain more) = true → rest' = []) (e : Escape) :
    (endsInEscape text = true → escapeText e [] more ++ rest' = []) ∧
      (endsInEscape (plain more) = true → rest' = []) := by
  have hmore : endsInEscape text = true → plain more = [] := fun htext =>
    (List.append_eq_nil_iff.1 (h htext)).1
  rw [endsInEscape_append_of_nil hmore, Bool.or_eq_true] at hescape
  refine ⟨?_, fun hplain => hescape (.inr hplain)⟩
  intro htext
  rw [plain_eq_nil_iff.1 (hmore htext), hescape (.inl htext)]
  rfl

theorem escapesCompound_nil : EscapesCompound [] [] := by
  intro e names depth rest hcovers hnames hdepth hrest _
  have hnil : ReadsCompound (readSelectorListF depth none) [] rest [] := by
    refine ReadsCompound.nil ?_
    intro c hc
    have hend := hrest c hc
    simp only [endsCompound, Bool.and_eq_true, Bool.not_eq_true'] at hend
    exact hend.2
  have hwrapped := hnil.wrapText_append hcovers.extra hnames hdepth
  rw [List.append_nil, List.append_nil] at hwrapped
  exact hwrapped

theorem escapesCompound_class {name : String} {span : Span}
    (hident : IdentBefore name.toList (plain more ++ rest)) (hmore : EscapesCompound more ss) :
    EscapesCompound (.class_ name span :: more) (.named .class_ name span :: ss) := by
  intro e names depth rest' hcovers hnames hdepth hrest hescape
  have hcovers' : e.Covers more := hcovers.mono fun x hx => List.mem_cons_of_mem _ hx
  have hdot : endsInEscape ('.' :: name.toList) = endsInEscape name.toList :=
    endsInEscape_cons (by decide) _
  obtain ⟨hname, hescape'⟩ := escape_cut (hdot ▸ hident.escape) hescape e
  by_cases hchosen : e.chosen span = true
  · -- the class joins the run
    have hhashed :=
      isName_hashedName hcovers.hash (hcovers.names name span List.mem_cons_self hchosen)
    rw [escapeText, if_pos hchosen] at hdepth ⊢
    rw [escapeSimples, Escape.hashed?, if_pos hchosen]
    exact hmore e _ depth rest' hcovers'
      (List.forall_mem_append.2 ⟨hnames, List.forall_mem_singleton.2 hhashed⟩) hdepth hrest hescape'
  · -- the class ends the run
    rw [escapeText, if_neg hchosen] at hdepth ⊢
    rw [escapeSimples, Escape.hashed?, if_neg hchosen, List.map_append, List.map_cons]
    simp only [List.length_append, List.length_cons] at hdepth
    have hident' : IdentBefore name.toList (escapeText e [] more ++ rest') :=
      hident.canFollow (canFollow_escapeText e more hrest) (hdot ▸ hname)
    have hsimple := readsSimple_of_class (readSelectorListF depth none) hident'
    show ReadsCompound _ (e.wrapText names ++ (('.' :: name.toList) ++ escapeText e [] more)) _ _
    refine ReadsCompound.wrapText_append hcovers.extra hnames (by omega)
      (ReadsCompound.cons hsimple ?_)
    exact hmore e [] depth rest' hcovers' (by simp) (by omega) hrest hescape'

/-- What is no class ends a run and starts none. -/
theorem escapesCompound_cons {s : SimpleSelector} {front : List Sign} {last : Char}
    (hclass : s.class? = none) (hhead : ∃ first xs, front ++ [.char last] = .char first :: xs)
    (hescape : endsInEscape (plain (front ++ [.char last])) = true → plain more ++ rest = [])
    (hs : EscapesSimple (front ++ [.char last]) (plain more ++ rest) s)
    (hmore : EscapesCompound more ss) :
    EscapesCompound (front ++ [.char last] ++ more) (s :: ss) := by
  intro e names depth rest' hcovers hnames hdepth hrest hescape'
  obtain ⟨hcoversS, hcoversM⟩ : e.Covers (front ++ [.char last]) ∧ e.Covers more :=
    ⟨hcovers.mono fun x hx => List.mem_append_left _ hx,
      hcovers.mono fun x hx => List.mem_append_right _ hx⟩
  have hhashed : e.hashed? s = none := by
    unfold Escape.hashed?
    split
    · cases hclass
    · rfl
  have htext : escapeText e names (front ++ [.char last] ++ more) =
      e.wrapText names ++ (escapeText e [] (front ++ [.char last]) ++ escapeText e [] more) := by
    rw [← escapeText_concat_append]
    obtain ⟨first, xs, hxs⟩ := hhead
    rw [hxs]
    rfl
  rw [plain_append] at hescape'
  obtain ⟨hlast, hescape''⟩ := escape_cut hescape hescape' e
  rw [htext] at hdepth ⊢
  simp only [List.length_append] at hdepth
  rw [escapeSimples, hhashed, List.map_append, List.map_cons]
  exact ReadsCompound.wrapText_append hcovers.extra hnames (by omega)
    (ReadsCompound.cons
      (hs e depth _ hcoversS (by omega) (canFollow_escapeText e more hrest) hlast)
      (hmore e [] depth rest' hcoversM (by simp) (by omega) hrest hescape''))

end Compounds

/-- **A compound is spelled by signs that can be escaped.** -/
theorem exists_escapesCompound {source : List Char} {depth : Nat} {beyond : Option Char}
    (hargs : EscapesArgs source (readSelectorListF depth none)) (hc : c.Within source)
    {r : Pace (List SimpleSelector) c}
    (h : readCompound (readSelectorListF depth none) beyond c = .ok r) :
    ∃ signs, Spells signs r.value c r.next ∧ (∀ x ∈ signs.head?, x.starts = true) ∧
      EscapesCompound signs r.value := by
  fun_induction readCompound (readSelectorListF depth none) beyond c with
  | case1 c ih =>
    obtain ⟨first, hfirst, h⟩ := bind_eq_ok_iff.1 h
    cases first with
    | none =>
      cases h
      exact ⟨[], .refl c, by simp, escapesCompound_nil⟩
    | some s =>
      obtain ⟨hleads, _⟩ := laid_readSimple (laid_readSelectorListF depth none) hc hfirst
      obtain ⟨rest, hrest, h⟩ := bind_eq_ok_iff.1 h
      obtain ⟨more, hmore, _, hescapes⟩ := ih s (hleads.within hc) hrest
      cases h
      rcases exists_escapesSimple hargs hc hfirst with ⟨name, span, hvalue, hident, hspells⟩ |
        ⟨ch, front, last, hstart, hclass, ⟨xs, hxs⟩, hspells, hs⟩
      · refine ⟨.class_ name span :: more, hspells.trans hmore, ?_, ?_⟩
        · rintro x ⟨⟩
          rfl
        · rw [hmore.rest_eq] at hident
          rw [hvalue]
          exact escapesCompound_class hident hescapes
      · refine ⟨front ++ [.char last] ++ more, hspells.trans hmore, ?_, ?_⟩
        · rw [hxs]
          rintro x ⟨⟩
          exact hstart
        · have hescape := hspells.escape
          rw [hmore.rest_eq] at hs hescape
          exact escapesCompound_cons hclass ⟨ch, xs, hxs⟩ hescape hs hescapes

end CssRune
