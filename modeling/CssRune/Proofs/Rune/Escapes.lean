/-
**Escaping classes, in a tree and in a text.**

Escaping some classes of a selector can be said twice: of the tree, where every run of escaped
classes of a compound becomes one `:global` pseudo-class, and of the text, where the run is replaced
by a wrapper.  This module defines both, and shows what the wrappers do to a text: they are read as
the pseudo-class, and they neither open nor close a bracket that is open around them.

Main definitions:

* `SimpleSelector.escape`, `ComplexOf.escape`, `ListOf.escape` — **a selector with its runs of
  escaped classes wrapped**.

Main results:

* `readsSimple_wrapText` — a wrapper is read as the pseudo-class it stands for;
* `scanBrackets_escapeText` — wrappers do not disturb the search for a closing bracket;
* `ListOf.escape_of_none` — nothing changes where nothing is escaped.
-/

import CssRune.Proofs.Style.Parts
import CssRune.Proofs.Style.Sequences
import CssRune.Rune.ClassNames

set_option autoImplicit false

namespace CssRune

/-! ### Escaping in a tree -/

/-- Which classes are escaped: those at the chosen ranges, under their hashed names.  Every wrapper
holds the classes `extra` as well. -/
structure Escape where
  hash : String
  extra : List String
  chosen : Span → Bool

/-- The pseudo-class that exempts a compound of classes from scoping. -/
def globalOf (names : List String) : SimpleSelector :=
  .pseudoClass globalPseudoClass (some ⟨[⟨[⟨none, names.map (.named .class_ · nowhere), nowhere⟩],
    nowhere⟩], nowhere⟩) nowhere

namespace Escape

/-- The hashed name of a selector that is escaped. -/
def hashed? (e : Escape) : SimpleSelector → Option String
  | .named .class_ name span => if e.chosen span then some (hashedName e.hash name) else none
  | _ => none

/-- The selector that a run of escaped classes becomes; an empty run leaves nothing. -/
def wrapped (e : Escape) : List String → List SimpleSelector
  | [] => []
  | name :: names => [globalOf (name :: names ++ e.extra)]

end Escape

mutual

/-- A simple selector with the escaped classes of its argument wrapped.  What is global already
stays as it is. -/
def SimpleSelector.escape (e : Escape) : SimpleSelector → SimpleSelector
  | .named kind name span => .named kind name span
  | .nesting span => .nesting span
  | .pseudoClass name none span => .pseudoClass name none span
  | .pseudoClass name (some args) span =>
    .pseudoClass name (some (if name = globalPseudoClass then args else args.escape e)) span
termination_by structural s => s

/-- A selector list with its escaped classes wrapped. -/
def ListOf.escape (e : Escape) : ListOf SimpleSelector → ListOf SimpleSelector
  | ⟨children, span⟩ => ⟨escapeComplexes e children, span⟩
termination_by structural s => s

/-- Complex selectors with their escaped classes wrapped. -/
def escapeComplexes (e : Escape) :
    List (ComplexOf SimpleSelector) → List (ComplexOf SimpleSelector)
  | [] => []
  | c :: cs => c.escape e :: escapeComplexes e cs
termination_by structural s => s

/-- A complex selector with its escaped classes wrapped. -/
def ComplexOf.escape (e : Escape) : ComplexOf SimpleSelector → ComplexOf SimpleSelector
  | ⟨children, span⟩ => ⟨escapeRelatives e children, span⟩
termination_by structural s => s

/-- Relative selectors with their escaped classes wrapped. -/
def escapeRelatives (e : Escape) :
    List (RelativeOf SimpleSelector) → List (RelativeOf SimpleSelector)
  | [] => []
  | r :: rs => r.escape e :: escapeRelatives e rs
termination_by structural s => s

/-- A relative selector with the escaped classes of its compound wrapped. -/
def RelativeOf.escape (e : Escape) : RelativeOf SimpleSelector → RelativeOf SimpleSelector
  | ⟨combinator, selectors, span⟩ => ⟨combinator, escapeSimples e [] selectors, span⟩
termination_by structural s => s

/-- A compound with every run of escaped classes wrapped; `names` are the hashed names of the run
that has just been read. -/
def escapeSimples (e : Escape) : List String → List SimpleSelector → List SimpleSelector
  | names, [] => e.wrapped names
  | names, s :: ss =>
    match e.hashed? s with
    | some name => escapeSimples e (names ++ [name]) ss
    | none => e.wrapped names ++ s.escape e :: escapeSimples e [] ss
termination_by structural _ s => s

end

theorem escapeRelatives_eq (e : Escape) (rs : List RelativeSelector) :
    escapeRelatives e rs = rs.map (RelativeOf.escape e) := by
  induction rs with
  | nil => rfl
  | cons r rs ih => rw [escapeRelatives, ih, List.map_cons]

theorem escapeComplexes_eq (e : Escape) (cs : List ComplexSelector) :
    escapeComplexes e cs = cs.map (ComplexOf.escape e) := by
  induction cs with
  | nil => rfl
  | cons c cs ih => rw [escapeComplexes, ih, List.map_cons]

section None

variable {e : Escape}

theorem Escape.hashed?_of_none (he : ∀ s, e.chosen s = false) (s : SimpleSelector) :
    e.hashed? s = none := by
  unfold Escape.hashed?
  split
  · rw [he]
    rfl
  · rfl

theorem escapeSimples_of_none (he : ∀ s, e.chosen s = false) {ss : List SimpleSelector}
    (h : ∀ s ∈ ss, s.escape e = s) : escapeSimples e [] ss = ss := by
  induction ss with
  | nil => rfl
  | cons s ss ih =>
    obtain ⟨hs, hss⟩ := List.forall_mem_cons.1 h
    rw [escapeSimples, e.hashed?_of_none he]
    simp only [Escape.wrapped, List.nil_append, hs, ih hss]

theorem ListOf.escape_eq_self (he : ∀ s, e.chosen s = false) {l : SelectorList}
    (h : ∀ s ∈ l.simples, s.escape e = s) : l.escape e = l := by
  obtain ⟨cs, span⟩ := l
  have hcs : ∀ c ∈ cs, c.escape e = c := by
    rintro ⟨rs, span⟩ hc
    have hrs : ∀ r ∈ rs, r.escape e = r := by
      rintro ⟨combinator, ss, span⟩ hr
      have hss : ∀ s ∈ ss, s.escape e = s := by
        intro s hs
        exact h s (List.mem_flatMap.2 ⟨_, hc, List.mem_flatMap.2 ⟨_, hr, hs⟩⟩)
      rw [RelativeOf.escape, escapeSimples_of_none he hss]
    rw [ComplexOf.escape, escapeRelatives_eq, List.map_congr_left hrs, List.map_id']
  rw [ListOf.escape, escapeComplexes_eq, List.map_congr_left hcs, List.map_id']

theorem SimpleSelector.escape_of_none (he : ∀ s, e.chosen s = false) (s : SimpleSelector) :
    s.escape e = s := by
  induction s using SimpleSelector.forall_of_args with
  | step s ih =>
    cases s with
    | named kind name span => rfl
    | nesting span => rfl
    | pseudoClass name args span =>
      cases args with
      | none => rfl
      | some args =>
        rw [SimpleSelector.escape, ListOf.escape_eq_self he (ih args rfl), ite_self]

/-- **Nothing changes where nothing is escaped.** -/
theorem ListOf.escape_of_none (he : ∀ s, e.chosen s = false) (l : SelectorList) : l.escape e = l :=
  ListOf.escape_eq_self he fun s _ => s.escape_of_none he

end None

/-! ### Escaping in a text -/

/-- A part of a text of selectors: a class selector, or any other character. -/
inductive Sign where
  | char (c : Char)
  | class_ (name : String) (span : Span)

/-- The text of a sign. -/
def Sign.text : Sign → List Char
  | char c => [c]
  | class_ name _ => '.' :: name.toList

/-- The class that a sign stands for. -/
def Sign.class? : Sign → Option (String × Span)
  | char _ => none
  | class_ name span => some (name, span)

/-- The text of signs. -/
def plain (signs : List Sign) : List Char := signs.flatMap Sign.text

/-- A text without classes. -/
def signsOf (text : List Char) : List Sign := text.map Sign.char

/-- The text of a compound of classes. -/
def classText (names : List String) : List Char := names.flatMap fun name => '.' :: name.toList

/-- The text that a run of escaped classes becomes; an empty run leaves nothing. -/
def Escape.wrapText (e : Escape) : List String → List Char
  | [] => []
  | name :: names =>
    ':' :: (globalPseudoClass.toList ++ '(' :: (classText (name :: names ++ e.extra) ++ [')']))

/-- The text of signs with every run of escaped classes wrapped; `names` are the hashed names of the
run that has just been read. -/
def escapeText (e : Escape) : List String → List Sign → List Char
  | names, [] => e.wrapText names
  | names, .char c :: signs => e.wrapText names ++ c :: escapeText e [] signs
  | names, .class_ name span :: signs =>
    if e.chosen span then escapeText e (names ++ [hashedName e.hash name]) signs
    else e.wrapText names ++ '.' :: (name.toList ++ escapeText e [] signs)

@[simp] theorem plain_nil : plain [] = [] := rfl

@[simp] theorem plain_cons (x : Sign) (signs : List Sign) :
    plain (x :: signs) = x.text ++ plain signs := rfl

@[simp] theorem plain_append (xs ys : List Sign) : plain (xs ++ ys) = plain xs ++ plain ys :=
  List.flatMap_append

@[simp] theorem plain_signsOf (text : List Char) : plain (signsOf text) = text := by
  induction text with
  | nil => rfl
  | cons c text ih => exact congrArg (c :: ·) ih

/-- Other characters end a run, so a text can be cut before them. -/
theorem escapeText_append_char (e : Escape) (names : List String) (xs : List Sign) (c : Char)
    (ys : List Sign) :
    escapeText e names (xs ++ .char c :: ys) =
      escapeText e names xs ++ c :: escapeText e [] ys := by
  induction xs generalizing names with
  | nil => rfl
  | cons x xs ih =>
    cases x with
    | char d =>
      rw [List.cons_append, escapeText, ih, escapeText]
      simp
    | class_ name span =>
      rw [List.cons_append, escapeText, escapeText]
      split
      · exact ih _
      · rw [ih]
        simp

theorem escapeText_signsOf_append (e : Escape) (text : List Char) (signs : List Sign) :
    escapeText e [] (signsOf text ++ signs) = text ++ escapeText e [] signs := by
  induction text with
  | nil => rfl
  | cons c text ih =>
    show escapeText e [] (.char c :: (signsOf text ++ signs)) = _
    rw [escapeText, ih]
    rfl

theorem escapeText_of_none {e : Escape} (he : ∀ s, e.chosen s = false) (signs : List Sign) :
    escapeText e [] signs = plain signs := by
  induction signs with
  | nil => rfl
  | cons x signs ih =>
    cases x with
    | char c =>
      rw [escapeText, ih]
      rfl
    | class_ name span =>
      rw [escapeText, if_neg (by simp [he]), ih]
      rfl

/-! ### Names that can be wrapped -/

/-- A name of identifier characters. -/
def IsName (name : String) : Prop := name.toList ≠ [] ∧ ∀ c ∈ name.toList, isIdentChar c = true

/-- The hash, the classes of every wrapper and the names of the escaped classes are made of
identifier characters. -/
structure Escape.Covers (e : Escape) (signs : List Sign) : Prop where
  hash : ∀ c ∈ e.hash.toList, isIdentChar c = true
  extra : ∀ name ∈ e.extra, IsName name
  names : ∀ name span, .class_ name span ∈ signs → e.chosen span = true →
    ∀ c ∈ name.toList, isIdentChar c = true

theorem Escape.Covers.mono {e : Escape} {xs ys : List Sign} (h : e.Covers ys)
    (hsub : ∀ x ∈ xs, x ∈ ys) : e.Covers xs :=
  ⟨h.hash, h.extra, fun name span hmem => h.names name span (hsub _ hmem)⟩

/-- A hashed name is a name. -/
theorem isName_hashedName {hash name : String} (hhash : ∀ c ∈ hash.toList, isIdentChar c = true)
    (hname : ∀ c ∈ name.toList, isIdentChar c = true) : IsName (hashedName hash name) := by
  have htext : (hashedName hash name).toList = name.toList ++ '-' :: hash.toList := by
    simp [hashedName]
  rw [IsName, htext]
  refine ⟨by simp, ?_⟩
  intro c hc
  rcases List.mem_append.1 hc with hc | hc
  · exact hname c hc
  · rcases List.mem_cons.1 hc with rfl | hc
    · rfl
    · exact hhash c hc

/-! ### Wrappers and brackets -/

/-- The state of the search after a text without quotes, brackets and backslashes. -/
def BracketState.settle : BracketState → BracketState
  | escaped quote depth => quoted quote depth
  | s => s

theorem BracketState.settle_settle (s : BracketState) : s.settle.settle = s.settle := by
  cases s <;> rfl

/-- Characters of names, dots and colons. -/
def isNeutral (c : Char) : Bool := isIdentChar c || c == '.' || c == ':'

theorem BracketState.step_of_isNeutral {c : Char} (hc : isNeutral c = true) (s : BracketState) :
    s.step '(' ')' c = some s.settle := by
  have hne : ∀ d, isNeutral d = false → c ≠ d := by
    rintro d hd rfl
    rw [hc] at hd
    cases hd
  have hquote : quote? c = none :=
    quote?_eq_none_iff.2 (by simp [hne '"' (by decide), hne '\'' (by decide)])
  cases s with
  | outside depth =>
    simp [step, settle, hquote, hne '(' (by decide), hne ')' (by decide)]
  | quoted quote depth =>
    have hchar : c ≠ quote.char := by
      cases quote
      · exact hne '\'' (by decide)
      · exact hne '"' (by decide)
    simp [step, settle, hchar, hne '\\' (by decide)]
  | escaped quote depth => rfl

/-- A text without quotes, brackets and backslashes settles the search and changes nothing else. -/
theorem scanBrackets_of_isNeutral {text : List Char} (h : ∀ c ∈ text, isNeutral c = true)
    (hne : text ≠ []) (s : BracketState) : scanBrackets '(' ')' s text = some s.settle := by
  induction text generalizing s with
  | nil => exact absurd rfl hne
  | cons c text ih =>
    obtain ⟨hc, htext⟩ := List.forall_mem_cons.1 h
    rw [scanBrackets_cons_of_step (s.step_of_isNeutral hc)]
    cases text with
    | nil => rfl
    | cons d text => rw [ih htext (by simp), s.settle_settle]

theorem isNeutral_of_isName {name : String} (h : ∀ c ∈ name.toList, isIdentChar c = true) :
    ∀ c ∈ '.' :: name.toList, isNeutral c = true := by
  intro c hc
  rcases List.mem_cons.1 hc with rfl | hc
  · rfl
  · simp [isNeutral, h c hc]

theorem isNeutral_classText {names : List String} (h : ∀ name ∈ names, IsName name) :
    ∀ c ∈ classText names, isNeutral c = true := by
  intro c hc
  obtain ⟨name, hname, hc⟩ := List.mem_flatMap.1 hc
  exact isNeutral_of_isName (h name hname).2 c hc

/-- The state of the search behind a run of escaped classes. -/
def BracketState.behind (s : BracketState) : List String → BracketState
  | [] => s
  | _ :: _ => s.settle

section Wrappers

variable {e : Escape} {names : List String}

/-- Brackets around a text without quotes, brackets and backslashes do not change a settled
state. -/
theorem scanBrackets_parens {inner : List Char} (h : ∀ c ∈ inner, isNeutral c = true)
    (hne : inner ≠ []) {s : BracketState} (hs : s.settle = s) (text : List Char) :
    scanBrackets '(' ')' s ('(' :: (inner ++ ')' :: text)) = scanBrackets '(' ')' s text := by
  have hinner := scanBrackets_of_isNeutral h hne
  cases s with
  | outside depth =>
    show scanBrackets '(' ')' (.outside (depth + 1)) (inner ++ ')' :: text) = _
    rw [scanBrackets_append, hinner]
    rfl
  | quoted quote depth =>
    -- in a string brackets do not count
    have hstep : ∀ c, c = '(' ∨ c = ')' →
        BracketState.step '(' ')' (.quoted quote depth) c = some (.quoted quote depth) := by
      rintro c (rfl | rfl) <;> cases quote <;> rfl
    rw [scanBrackets_cons_of_step (hstep '(' (.inl rfl)), scanBrackets_append, hinner,
      Option.bind_some, hs, scanBrackets_cons_of_step (hstep ')' (.inr rfl))]
  | escaped quote depth => cases hs

/-- A wrapper closes the bracket that it opens. -/
theorem scanBrackets_wrapText_append (hextra : ∀ name ∈ e.extra, IsName name)
    (hnames : ∀ name ∈ names, IsName name) (s : BracketState) (text : List Char) :
    scanBrackets '(' ')' s (e.wrapText names ++ text) =
      scanBrackets '(' ')' (s.behind names) text := by
  cases names with
  | nil => rfl
  | cons name names =>
    have hclasses := isNeutral_classText (List.forall_mem_append.2 ⟨hnames, hextra⟩)
    have hne : classText (name :: names ++ e.extra) ≠ [] := by simp [classText]
    have hfront : ∀ c ∈ ':' :: globalPseudoClass.toList, isNeutral c = true :=
      List.all_eq_true.1 (by decide)
    have htext : e.wrapText (name :: names) ++ text = (':' :: globalPseudoClass.toList) ++
        '(' :: (classText (name :: names ++ e.extra) ++ ')' :: text) := by
      simp [Escape.wrapText]
    rw [htext, scanBrackets_append, scanBrackets_of_isNeutral hfront (by simp), Option.bind_some,
      scanBrackets_parens hclasses hne s.settle_settle]
    rfl

/-- **Wrappers do not disturb the search for a closing bracket**, wherever it stands. -/
theorem scanBrackets_escapeText {signs : List Sign} (h : e.Covers signs)
    (hnames : ∀ name ∈ names, IsName name) (s : BracketState) :
    scanBrackets '(' ')' s (escapeText e names signs) =
      scanBrackets '(' ')' (s.behind names) (plain signs) := by
  induction signs generalizing names s with
  | nil =>
    have hwrap := scanBrackets_wrapText_append h.extra hnames s []
    rwa [List.append_nil] at hwrap
  | cons x signs ih =>
    have hrest : e.Covers signs := h.mono fun y hy => List.mem_cons_of_mem x hy
    cases x with
    | char c =>
      rw [escapeText, scanBrackets_wrapText_append h.extra hnames, scanBrackets]
      show _ = scanBrackets '(' ')' (s.behind names) (c :: plain signs)
      rw [scanBrackets]
      exact congrArg _ (funext fun t => ih hrest (by simp) t)
    | class_ name span =>
      show _ = scanBrackets '(' ')' (s.behind names) (('.' :: name.toList) ++ plain signs)
      rw [escapeText, scanBrackets_append]
      split
      · rename_i hchosen
        have hname := h.names name span List.mem_cons_self hchosen
        rw [ih hrest (List.forall_mem_append.2
          ⟨hnames, List.forall_mem_singleton.2 (isName_hashedName h.hash hname)⟩),
          scanBrackets_of_isNeutral (isNeutral_of_isName hname) (by simp), Option.bind_some]
        cases names with
        | nil => rfl
        | cons n ns => exact congrArg (scanBrackets _ _ · _) s.settle_settle.symm
      · rw [scanBrackets_wrapText_append h.extra hnames, ← List.cons_append,
          scanBrackets_append]
        exact congrArg _ (funext fun t => ih hrest (by simp) t)

theorem Enclosed.escapeText {signs : List Sign} (h : Enclosed '(' ')' (plain signs))
    (hcovers : e.Covers signs) : Enclosed '(' ')' (CssRune.escapeText e [] signs) := by
  rw [Enclosed, scanBrackets_escapeText hcovers (by simp)]
  exact h

/-! ### Reading wrappers -/

theorem globalOf_bare (names : List String) : (globalOf names).bare = globalOf names := by
  simp [globalOf, SimpleSelector.bare, ListOf.bare, bareComplexes, ComplexOf.bare, bareRelatives,
    RelativeOf.bare, bareSimples_eq, Function.comp_def]

/-- A compound of classes is read as one. -/
theorem readsCompound_classText {args : Cursor → Except ParseError SelectorList}
    {rest : List Char} (h : ∀ name ∈ names, IsName name)
    (hrest : ∀ ch ∈ rest.head?, endsCompound ch = true) :
    ReadsCompound args (classText names) rest (names.map (.named .class_ · nowhere)) := by
  have hends : ∀ ch ∈ rest.head?, breaksIdent ch = true ∧ startsSimple ch = false := by
    intro ch hch
    have hend := hrest ch hch
    simp only [endsCompound, Bool.and_eq_true, Bool.not_eq_true'] at hend
    exact ⟨hend.1.1, hend.2⟩
  induction names with
  | nil => exact .nil fun ch hch => (hends ch hch).2
  | cons name names ih =>
    obtain ⟨⟨hne, hname⟩, hnames⟩ := List.forall_mem_cons.1 h
    show ReadsCompound args (('.' :: name.toList) ++ classText names) rest _
    have hident : IdentBefore name.toList (classText names ++ rest) := by
      refine identBefore_of_isIdentChar hne hname ?_
      intro ch hch
      cases names with
      | nil => exact (hends ch hch).1
      | cons n ns =>
        cases hch
        rfl
    exact ReadsCompound.cons (readsSimple_of_class args hident) (ih hnames)

/-- The classes of a wrapper are read as a selector list. -/
theorem readsList_classText (h : ∀ name ∈ names, IsName name) (hne : names ≠ []) (depth : Nat) :
    ReadsList (depth + 1) (classText names)
      ⟨[⟨[⟨none, names.map (.named .class_ · nowhere), nowhere⟩], nowhere⟩], nowhere⟩ := by
  have hhead : ∃ ch cs, classText names = ch :: cs ∧ startsSimple ch = true := by
    obtain ⟨name, more, rfl⟩ := List.exists_cons_of_ne_nil hne
    exact ⟨'.', _, rfl, rfl⟩
  have hcompound : ReadsCompound (readSelectorListF depth none) (classText names) ([] ++ []) _ :=
    readsCompound_classText h (by simp)
  have hrelatives := ReadsRelatives.cons .nil .first .nil (fun _ => rfl) hhead hcompound
    (ReadsRelatives.nil .nil (by simp))
  simp only [List.nil_append, List.append_nil] at hrelatives
  have hsolid : ∃ ch cs, classText names = ch :: cs ∧ isSolid ch = true := by
    obtain ⟨ch, cs, htext, hch⟩ := hhead
    exact ⟨ch, cs, htext, (isSolid_of_startsSimple hch).1⟩
  have hlisted := Listed.last .nil hsolid (readsComplex_of_relatives hrelatives (by simp) hsolid)
  exact hlisted.readsList

/-- **A wrapper is read as the pseudo-class it stands for.** -/
theorem readsSimple_wrapText (hextra : ∀ name ∈ e.extra, IsName name) {name : String}
    (hnames : ∀ n ∈ name :: names, IsName n) {depth : Nat}
    (hdepth : (e.wrapText (name :: names)).length ≤ depth) (rest : List Char) :
    ReadsSimple (readSelectorListF depth none) (e.wrapText (name :: names)) rest
      (globalOf (name :: names ++ e.extra)) := by
  have hall := List.forall_mem_append.2 ⟨hnames, hextra⟩
  have hident : IdentBefore globalPseudoClass.toList ['('] :=
    identBefore_of_isIdentChar (by decide) (List.all_eq_true.1 (by decide)) (by rintro c ⟨⟩; rfl)
  have hin : Enclosed '(' ')' (classText (name :: names ++ e.extra)) :=
    scanBrackets_of_isNeutral (isNeutral_classText hall) (by simp [classText]) _
  cases depth with
  | zero => simp [Escape.wrapText] at hdepth
  | succ k =>
    exact readsSimple_of_selectors hident (by decide) hin (readsList_classText hall (by simp) k)

/-- A wrapper in front of a compound is one more simple selector of it. -/
theorem ReadsCompound.wrapText_append (hextra : ∀ name ∈ e.extra, IsName name)
    (hnames : ∀ n ∈ names, IsName n) {depth : Nat} (hdepth : (e.wrapText names).length ≤ depth)
    {text rest : List Char} {ss : List SimpleSelector}
    (h : ReadsCompound (readSelectorListF depth none) text rest ss) :
    ReadsCompound (readSelectorListF depth none) (e.wrapText names ++ text) rest
      ((e.wrapped names).map SimpleSelector.bare ++ ss) := by
  cases names with
  | nil => exact h
  | cons name names =>
    rw [Escape.wrapped, List.map_singleton, globalOf_bare]
    exact .cons (readsSimple_wrapText hextra hnames hdepth _) h

end Wrappers

end CssRune
