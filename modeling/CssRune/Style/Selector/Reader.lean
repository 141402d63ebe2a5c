/-
**Reading selectors.**

A selector list is read from a range of the source.  The reader sees the text of the range and one
character beyond it: a `:` or `|` at the very end counts as doubled when that character repeats it,
and is then refused.
-/

import CssRune.ParseError
import CssRune.Style.Selector
import CssRune.Text.Cursor
import CssRune.Text.Quoted

set_option autoImplicit false

namespace CssRune

/-! ### Blanks, comments, identifiers -/

variable {c : Cursor} {ch quote : Char} {rest after : List Char}

/-- A comment takes some of the text. -/
theorem length_moveTo_comment (hc : c.rest = ch :: rest)
    (hr : Text.afterComment (rest.drop 1) = some after) : (c.moveTo after).length < c.length := by
  have h := Text.afterComment_length hr
  rw [List.length_drop] at h
  exact Cursor.length_moveTo_lt_of_le hc (by omega)

/-- A string takes some of the text. -/
theorem length_moveTo_quoted (hc : c.rest = ch :: rest)
    (hr : Text.afterQuoted quote rest = some after) : (c.moveTo after).length < c.length :=
  Cursor.length_moveTo_lt_of_le hc (Nat.le_of_lt (Text.afterQuoted_length hr))

theorem length_moveTo_quoted_le (hc : c.rest = ch :: rest)
    (hr : Text.afterQuoted quote rest = some after) :
    (c.moveTo after).length ≤ c.length := Nat.le_of_lt (length_moveTo_quoted hc hr)

/-- Skips blanks and comments. -/
def passBlanks (c : Cursor) : Except ParseError (Pace Unit c) :=
  match hc : c.rest with
  | [] => .ok ⟨(), c, c.length_le_self⟩
  | ch :: rest =>
    if Text.isSpace ch then do
      let r ← passBlanks c.next
      return r.after (Cursor.length_next_of_cons hc)
    else if ch = '/' ∧ rest.head? = some '*' then
      match hr : Text.afterComment (rest.drop 1) with
      | none => .error ⟨.unterminatedComment, c.pos⟩
      | some after => do
          let r ← passBlanks (c.moveTo after)
          return r.after (length_moveTo_comment hc hr)
    else .ok ⟨(), c, c.length_le_self⟩
termination_by c.length
decreasing_by
  · exact Cursor.length_next_of_cons hc
  · exact length_moveTo_comment hc hr

def isIdentChar (c : Char) : Bool := c.isAlphanum || c == '-' || c == '_' || 0x80 ≤ c.toNat

/-- Characters that can start a type selector. -/
def startsIdent (c : Char) : Bool :=
  c.isAlpha || c == '-' || c == '_' || c == '\\' || 0x80 ≤ c.toNat

/-- What follows an identifier.  A backslash takes the character after it along. -/
def afterIdent : List Char → List Char
  | [] => []
  | '\\' :: cs =>
    match cs with
    | [] => []
    | _ :: cs => afterIdent cs
  | c :: cs => if isIdentChar c then afterIdent cs else c :: cs

/-- Reads an identifier. -/
def readIdent (c : Cursor) : Except ParseError (Step String c) :=
  let after := c.moveTo (afterIdent c.rest)
  if h : after.length < c.length then .ok ⟨String.ofList (c.upTo after), after, h⟩
  else .error ⟨.identifier, c.pos⟩

/-- The cursor at the bracket that closes `open_`, when `depth` more are open.  Brackets in quoted
strings do not count. -/
def closingBracket (open_ close : Char) (depth : Nat) (c : Cursor) :
    Except ParseError (Option (Step Unit c)) :=
  match hc : c.rest with
  | [] => .ok none
  | ch :: rest =>
    if ch = '"' ∨ ch = '\'' then
      match hr : Text.afterQuoted ch rest with
      | none => .error ⟨.unterminatedString, c.pos⟩
      | some after => do
          let r ← closingBracket open_ close depth (c.moveTo after)
          return r.map (Step.after (length_moveTo_quoted_le hc hr))
    else if ch = close ∧ depth = 0 then
      .ok (some ⟨(), c.moveTo rest, Cursor.length_moveTo_lt hc⟩)
    else do
      let depth := if ch = open_ then depth + 1 else if ch = close then depth - 1 else depth
      let r ← closingBracket open_ close depth c.next
      return r.map (Step.after c.length_next_le)
termination_by c.length
decreasing_by
  · exact length_moveTo_quoted hc hr
  · exact Cursor.length_next_of_cons hc

/-! ### Simple selectors and compounds -/

/-- Pseudo-classes whose argument is a selector list. -/
def takesSelectors (name : String) : Bool :=
  ["is", "where", "not", "has", globalPseudoClass].contains name

/-- The name of an attribute selector: what its brackets start with. -/
def attributeName (inner : List Char) : String :=
  String.ofList ((inner.dropWhile Text.isSpace).takeWhile isIdentChar)

/-- Reads a class, id or pseudo-element after its `size` marks. -/
def readMarked (kind : NamedKind) (c : Cursor) (size : Nat) :
    Except ParseError (Step SimpleSelector c) := do
  let name ← readIdent (c.skip size)
  return ⟨.named kind name.value ⟨c.pos, name.next.pos⟩, name.next, name.length_next_skip_lt⟩

/-- Reads the brackets at `c`, if there are any: the text inside and the cursor after them. -/
def readParens (c : Cursor) : Except ParseError (Option (Step Cursor c)) :=
  match hc : c.rest with
  | '(' :: rest => do
      match ← closingBracket '(' ')' 0 (c.moveTo rest) with
      | none => throw ⟨.expected ')', c.pos⟩
      | some s =>
        let inner := ((c.moveTo rest).upTo s.next).dropLast
        return some ⟨⟨c.pos + 1, inner⟩, s.next, by
          have := s.shorter
          simp [Cursor.length, hc] at *
          omega⟩
  | _ => .ok none

/-- Reads a simple selector, if one starts here.  `args` reads the argument of a pseudo-class, and
`beyond` is the character after the range. -/
def readSimple (args : Cursor → Except ParseError SelectorList) (beyond : Option Char)
    (c : Cursor) : Except ParseError (Option (Step SimpleSelector c)) :=
  match hc : c.rest with
  | '.' :: _ => some <$> readMarked .class_ c 1
  | '#' :: _ => some <$> readMarked .id c 1
  | '[' :: rest => do
      match ← closingBracket '[' ']' 0 (c.moveTo rest) with
      | none => throw ⟨.expected ']', c.pos⟩
      | some s =>
        let name := attributeName ((c.moveTo rest).upTo s.next).dropLast
        return some ⟨.named .attribute name ⟨c.pos, s.next.pos⟩, s.next, by
          have := s.shorter
          simp [Cursor.length, hc] at *
          omega⟩
  | ':' :: ':' :: _ => do
      let r ← readMarked .pseudoElement c 2
      match ← readParens r.next with
      | none => return some r
      | some parens =>
        return some ⟨.named .pseudoElement
            (match r.value with | .named _ name _ => name | _ => "") ⟨c.pos, parens.next.pos⟩,
          parens.next, Nat.lt_trans parens.shorter r.shorter⟩
  | ':' :: rest =>
    if rest = [] ∧ beyond = some ':' then .error ⟨.identifier, c.pos + 2⟩
    else do
      let name ← readIdent (c.moveTo rest)
      have hname : name.next.length < c.length := by
        have := name.shorter
        simp [Cursor.length, hc] at *
        omega
      match ← readParens name.next with
      | none =>
        return some ⟨.pseudoClass name.value none ⟨c.pos, name.next.pos⟩, name.next, hname⟩
      | some parens =>
        let list ← if takesSelectors name.value then some <$> args parens.value else pure none
        return some ⟨.pseudoClass name.value list ⟨c.pos, parens.next.pos⟩, parens.next,
          Nat.lt_trans parens.shorter hname⟩
  | '&' :: rest =>
    .ok (some ⟨.nesting ⟨c.pos, c.pos + 1⟩, c.moveTo rest, by simp [Cursor.length, hc]⟩)
  | '*' :: rest =>
    .ok (some ⟨.named .type "*" ⟨c.pos, c.pos + 1⟩, c.moveTo rest, by simp [Cursor.length, hc]⟩)
  | ch :: _ =>
    if startsIdent ch then some <$> readMarked .type c 0 else .ok none
  | [] => .ok none

/-- Reads simple selectors as long as one starts. -/
def readCompound (args : Cursor → Except ParseError SelectorList) (beyond : Option Char)
    (c : Cursor) : Except ParseError (Pace (List SimpleSelector) c) := do
  match ← readSimple args beyond c with
  | none => return ⟨[], c, c.length_le_self⟩
  | some s =>
    let r ← readCompound args beyond s.next
    return ⟨s.value :: r.value, r.next, by have := s.shorter; have := r.noLonger; omega⟩
termination_by c.length
decreasing_by exact s.shorter

/-! ### Complex selectors and lists -/

/-- Reads the combinator at `c`, which comes after the blanks that start at `gap`.  A blank counts
as one between two compounds. -/
def readCombinator (isFirst : Bool) (gap : Nat) (c : Cursor) : Pace (Option Combinator) c :=
  let single (kind : CombinatorKind) (rest : List Char) (h : rest.length ≤ c.length) :
      Pace (Option Combinator) c :=
    ⟨some ⟨kind, ⟨c.pos, c.pos + 1⟩⟩, c.moveTo rest, h⟩
  match hc : c.rest with
  | '>' :: rest => single .child rest (by simp [Cursor.length, hc])
  | '+' :: rest => single .nextSibling rest (by simp [Cursor.length, hc])
  | '~' :: rest => single .subsequentSibling rest (by simp [Cursor.length, hc])
  | '|' :: '|' :: rest =>
    ⟨some ⟨.column, ⟨c.pos, c.pos + 2⟩⟩, c.moveTo rest, by simp [Cursor.length, hc]; omega⟩
  | _ =>
    if isFirst = false ∧ gap < c.pos then
      ⟨some ⟨.descendant, ⟨gap, c.pos⟩⟩, c, c.length_le_self⟩
    else ⟨none, c, c.length_le_self⟩

/-- Reads a combinator and a compound at `c`; `gap` is where the blanks before `c` start. -/
def readRelative (args : Cursor → Except ParseError SelectorList) (beyond : Option Char)
    (isFirst : Bool) (gap : Nat) (c : Cursor) : Except ParseError (Step RelativeSelector c) := do
  if c.rest = ['|'] ∧ beyond = some '|' then throw ⟨.selector, c.pos + 2⟩
  let combinator := readCombinator isFirst gap c
  if isFirst = false ∧ combinator.value.isNone then throw ⟨.selectorCharacter, c.pos⟩
  let blanks ← passBlanks combinator.next
  let compound ← readCompound args beyond blanks.next
  if h : compound.next.length < blanks.next.length then
    let start := (combinator.value.map (·.span.start)).getD blanks.next.pos
    return ⟨⟨combinator.value, compound.value, ⟨start, compound.next.pos⟩⟩, compound.next, by
      have := combinator.noLonger
      have := blanks.noLonger
      omega⟩
  else throw ⟨.selector, compound.next.pos⟩

/-- Reads relative selectors up to a comma or the end; `isFirst` says that none has been read. -/
def readRelatives (args : Cursor → Except ParseError SelectorList) (beyond : Option Char)
    (isFirst : Bool) (c : Cursor) : Except ParseError (Pace (List RelativeSelector) c) := do
  let blanks ← passBlanks c
  match blanks.next.rest.head? with
  | none | some ',' => return ⟨[], blanks.next, blanks.noLonger⟩
  | some _ =>
    let r ← readRelative args beyond isFirst c.pos blanks.next
    let rest ← readRelatives args beyond false r.next
    return ⟨r.value :: rest.value, rest.next, by
      have := blanks.noLonger
      have := r.shorter
      have := rest.noLonger
      omega⟩
termination_by c.length
decreasing_by
  have := blanks.noLonger
  have := r.shorter
  omega

/-- Reads a complex selector. -/
def readComplex (args : Cursor → Except ParseError SelectorList) (beyond : Option Char)
    (c : Cursor) : Except ParseError (Pace ComplexSelector c) := do
  let blanks ← passBlanks c
  let relatives ← readRelatives args beyond true blanks.next
  match relatives.value.getLast? with
  | none => throw ⟨.selector, relatives.next.pos⟩
  | some last =>
    return ⟨⟨relatives.value, ⟨blanks.next.pos, last.span.stop⟩⟩, relatives.next,
      Nat.le_trans relatives.noLonger blanks.noLonger⟩

/-- Reads complex selectors separated by commas. -/
def readComplexes (args : Cursor → Except ParseError SelectorList) (beyond : Option Char)
    (c : Cursor) : Except ParseError (Pace (List ComplexSelector) c) := do
  let complex ← readComplex args beyond c
  let blanks ← passBlanks complex.next
  match hc : blanks.next.rest with
  | ',' :: rest =>
    let r ← readComplexes args beyond (blanks.next.moveTo rest)
    return ⟨complex.value :: r.value, r.next, by
      have := complex.noLonger
      have := blanks.noLonger
      have := r.noLonger
      simp [Cursor.length, hc] at *
      omega⟩
  | _ =>
    return ⟨[complex.value], blanks.next, Nat.le_trans blanks.noLonger complex.noLonger⟩
termination_by c.length
decreasing_by
  have := complex.noLonger
  have := blanks.noLonger
  simp [Cursor.length, hc] at *
  omega

/-- Reads a selector list that fills the text at `c`; `depth` bounds the nesting of arguments. -/
def readSelectorListF : Nat → Option Char → Cursor → Except ParseError SelectorList
  | 0, _, c => .error ⟨.stalled, c.pos⟩
  | depth + 1, beyond, c => do
      let blanks ← passBlanks c
      let complexes ← readComplexes (readSelectorListF depth none) beyond blanks.next
      match complexes.next.rest with
      | [] =>
        let stop := (complexes.value.getLast?.map (·.span.stop)).getD blanks.next.pos
        return ⟨complexes.value, ⟨blanks.next.pos, stop⟩⟩
      | _ => throw ⟨.selectorCharacter, complexes.next.pos⟩

/-- Reads the selector list that fills the text at `c`; `beyond` is the character after it. -/
def readSelectorList (beyond : Option Char) (c : Cursor) : Except ParseError SelectorList :=
  readSelectorListF (c.length + 1) beyond c

end CssRune
