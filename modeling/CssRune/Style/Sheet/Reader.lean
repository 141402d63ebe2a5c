/-
**Reading stylesheets.**

Rules, at-rules and declarations are told apart by the first delimiter — `;`, `{` or `}` — outside
brackets, strings and comments.  Blocks of keyframe rules are stepped over without being read.

The number of nodes is not known in advance, so `readItemsF` is given a bound on the number
of steps; every step reads at least one character, and `readStyleSheet` passes the length
of the text.
-/

import CssRune.Style.Selector.Reader
import CssRune.Style.Sheet

set_option autoImplicit false

namespace CssRune

/-! ### Delimiters -/

/-- What ends a prelude or a declaration. -/
inductive Delimiter where
  | semicolon
  | openBrace
  | closeBrace
  /-- The end of the text. -/
  | none
  deriving DecidableEq, Repr

/-- The delimiter a character stands for. -/
def Delimiter.ofChar? : Char → Option Delimiter
  | ';' => some .semicolon
  | '{' => some .openBrace
  | '}' => some .closeBrace
  | _ => Option.none

/-- The next delimiter outside strings, comments and `depth` open brackets, and the cursor at it.
`beyond` is the character after the text: a comment opener that it completes cannot be passed. -/
def nextDelimiter (beyond : Option Char) (depth : Nat) (c : Cursor) :
    Except ParseError (Pace Delimiter c) :=
  match hc : c.rest with
  | [] => .ok ⟨.none, c, c.length_le_self⟩
  | ch :: rest =>
    if ch = '"' ∨ ch = '\'' then
      match hr : Text.afterQuoted ch rest with
      | none => .error ⟨.unterminatedString, c.pos⟩
      | some after => do
          let r ← nextDelimiter beyond depth (c.moveTo after)
          return r.after (length_moveTo_quoted hc hr)
    else if ch = '/' ∧ rest.head? = some '*' then
      match hr : Text.afterComment (rest.drop 1) with
      | none => .error ⟨.unterminatedComment, c.pos⟩
      | some after => do
          let r ← nextDelimiter beyond depth (c.moveTo after)
          return r.after (length_moveTo_comment hc hr)
    else if ch = '/' ∧ rest = [] ∧ beyond = some '*' then .error ⟨.stalled, c.pos⟩
    else
      match depth, Delimiter.ofChar? ch with
      | 0, some delimiter => .ok ⟨delimiter, c, c.length_le_self⟩
      | _, _ => do
          let depth :=
            if ch = '(' ∨ ch = '[' then depth + 1
            else if ch = ')' ∨ ch = ']' then depth - 1 else depth
          let r ← nextDelimiter beyond depth c.next
          return r.after (Cursor.length_next_of_cons hc)
termination_by c.length
decreasing_by
  · exact length_moveTo_quoted hc hr
  · exact length_moveTo_comment hc hr
  · exact Cursor.length_next_of_cons hc

/-! ### Blocks that are not read -/

/-- Steps over a block, from after its opening brace to after the brace that closes it; `depth`
more braces are open. -/
def passBlockFrom (beyond : Option Char) (depth : Nat) (c : Cursor) : Except ParseError Cursor := do
  let d ← nextDelimiter beyond 0 c
  match _hd : d.next.rest with
  | [] => throw ⟨.expected '}', d.next.pos⟩
  | _ :: rest =>
    match d.value, depth with
    | .openBrace, _ => passBlockFrom beyond (depth + 1) (d.next.moveTo rest)
    | .closeBrace, 0 => return d.next.moveTo rest
    | .closeBrace, depth + 1 => passBlockFrom beyond depth (d.next.moveTo rest)
    | .semicolon, _ => passBlockFrom beyond depth (d.next.moveTo rest)
    | .none, _ => throw ⟨.expected '}', d.next.pos⟩
termination_by c.length
decreasing_by
  all_goals
    have := d.noLonger
    simp [Cursor.length, _hd] at *
    omega

/-- Steps over the block at `c`. -/
def passBlock (beyond : Option Char) (c : Cursor) : Except ParseError (StyleBlock × Cursor) := do
  let after ← passBlockFrom beyond 0 c.next
  return (⟨[], ⟨c.pos, after.pos⟩⟩, after)

/-! ### Declarations -/

/-- The declaration at `c` that ends before `stop`. -/
def declarationAt (c stop : Cursor) : Except ParseError Declaration :=
  let text := c.upTo stop
  let name := text.takeWhile (· != ':')
  match text.drop name.length with
  | [] => .error ⟨.declaration, c.pos⟩
  | _ :: value =>
    let property := Text.trim name
    if property.isEmpty then .error ⟨.propertyName, c.pos⟩
    else
      let valueStart :=
        c.pos + Text.byteLength name + 1 + Text.byteLength (value.takeWhile Text.isSpace)
      let finish := c.pos + Text.byteLength (Text.trimSpaceRight text)
      .ok ⟨String.ofList property, ⟨valueStart, max finish valueStart⟩, ⟨c.pos, finish⟩⟩

/-- Reads a declaration; the semicolon after it is stepped over. -/
def readDeclaration (beyond : Option Char) (c : Cursor) :
    Except ParseError (Declaration × Cursor) := do
  let d ← nextDelimiter beyond 0 c
  let declaration ← declarationAt c d.next
  return (declaration, if d.value = .semicolon then d.next.next else d.next)

/-! ### Rules and at-rules -/

/-- The range of a text without the blanks at its ends, which starts at byte `pos`. -/
def trimmedSpan (pos : Nat) (text : List Char) : Span :=
  let start := pos + Text.byteLength (text.takeWhile Text.isSpace)
  let inner := Text.trimSpaceRight (text.dropWhile Text.isSpace)
  ⟨start, start + Text.byteLength inner⟩

/-- A reader of the nodes up to a closing brace (inside a block) or the end of the text. -/
abbrev ItemReader := Bool → Cursor → Except ParseError (List StyleNode × Cursor)

/-- Reads the block at `c` with a reader for its nodes. -/
def readBlock (items : ItemReader) (c : Cursor) : Except ParseError (StyleBlock × Cursor) := do
  let (children, close) ← items true c.next
  return (⟨children, ⟨c.pos, close.next.pos⟩⟩, close.next)

/-- Reads a rule. -/
def readRule (items : ItemReader) (beyond : Option Char) (c : Cursor) :
    Except ParseError (StyleNode × Cursor) := do
  let d ← nextDelimiter beyond 0 c
  if d.value ≠ .openBrace then throw ⟨.expected '{', d.next.pos⟩
  let prelude ← readSelectorList none ⟨c.pos, Text.trimSpaceRight (c.upTo d.next)⟩
  let (block, after) ← readBlock items d.next
  return (.rule prelude block ⟨c.pos, after.pos⟩, after)

/-- Reads the at-rule at `c`, where an `@` stands. -/
def readAtRule (items : ItemReader) (beyond : Option Char) (c : Cursor) :
    Except ParseError (StyleNode × Cursor) := do
  let name := c.next.rest.takeWhile isIdentChar
  if name.isEmpty then throw ⟨.atRuleName, c.next.pos⟩
  let afterName := c.next.skip name.length
  let d ← nextDelimiter beyond 0 afterName
  let prelude := trimmedSpan afterName.pos (afterName.upTo d.next)
  let name := String.ofList name
  let (block, after) ← match d.value with
    | .openBrace => do
        let (block, after) ←
          if name.endsWith "keyframes" then passBlock beyond d.next else readBlock items d.next
        pure (some block, after)
    | .semicolon => pure (none, d.next.next)
    | _ => pure (none, d.next)
  return (.atRule name prelude block ⟨c.pos, after.pos⟩, after)

/-- Reads the node at `c`; among the nodes of a block (when `nested`) it can be a declaration. -/
def readItem (items : ItemReader) (beyond : Option Char) (nested : Bool) (c : Cursor) :
    Except ParseError (StyleNode × Cursor) :=
  if c.rest.head? = some '@' then readAtRule items beyond c
  else do
    let d ← nextDelimiter beyond 0 c
    if nested = true ∧ d.value ≠ .openBrace then
      let (declaration, after) ← readDeclaration beyond c
      return (.declaration declaration, after)
    else readRule items beyond c

/-- Reads nodes up to the closing brace (when `nested`) or the end of the text.  The first argument
bounds the number of steps. -/
def readItemsF (beyond : Option Char) : Nat → ItemReader
  | 0, _, c => .error ⟨.stalled, c.pos⟩
  | fuel + 1, nested, c => do
      let c := (← passBlanks c).next
      match c.rest.head? with
      | none => if nested then throw ⟨.expected '}', c.pos⟩ else return ([], c)
      | some '}' => if nested then return ([], c) else throw ⟨.unexpectedBrace, c.pos⟩
      | some ';' => readItemsF beyond fuel nested c.next
      | some _ =>
        let (node, after) ← readItem (readItemsF beyond fuel) beyond nested c
        let (nodes, finish) ← readItemsF beyond fuel nested after
        return (node :: nodes, finish)

/-- Reads the stylesheet that is the text of `content` in `source`; `span` is the element it
belongs to. -/
def readStyleSheet (source : List Char) (content span : Span) : Except ParseError StyleSheet := do
  let text := Text.slice source content
  let beyond := (Text.dropBytes content.stop source).head?
  let (children, _) ← readItemsF beyond (text.length + 1) false ⟨content.start, text⟩
  return ⟨children, content, span⟩

/-- Reads the selector list that is the text of `span` in `source`. -/
def readSelectorsAt (source : List Char) (span : Span) : Except ParseError SelectorList :=
  readSelectorList (Text.dropBytes span.stop source).head? ⟨span.start, Text.slice source span⟩

end CssRune
