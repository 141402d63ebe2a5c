/-
**Reading markup.**

Markup is read in one pass from left to right.  Each reader takes a cursor and gives, with what it
has read, a cursor that is strictly further on; this is what makes the loops end.
-/

import CssRune.Markup.Braces
import CssRune.Markup.Tree
import CssRune.ParseError
import CssRune.Script.Reader
import CssRune.Text.Cursor

set_option autoImplicit false

namespace CssRune

/-! ### Expressions -/

/-- How the expressions of a component are read. -/
structure ScriptSetting where
  reader : ScriptReader
  lang : ScriptLang

/-- Reads a text that starts at an offset as an expression; it may not be blank. -/
def readExpressionAt (setting : ScriptSetting) (offset : Nat) (text : List Char) :
    Except ParseError Expression :=
  if text.all Text.isBlank then .error ⟨.expressionExpected, offset⟩
  else
    match setting.reader.expression setting.lang text with
    | some node => .ok ⟨node, offset⟩
    | none => .error ⟨.script, offset⟩

/-- Reads an expression in braces; `cs` is the text after the opening brace. -/
def readExpressionTag (setting : ScriptSetting) (c : Cursor) (cs : List Char)
    (h : c.rest = '\x7b' :: cs) : Except ParseError (Step ExpressionTag c) :=
  match hb : braced cs with
  | none => .error ⟨.expected '\x7d', c.pos⟩
  | some (inside, after) => do
      let e ← readExpressionAt setting (c.pos + 1) inside
      return ⟨⟨e, ⟨c.pos, (c.moveTo after).pos⟩⟩, c.moveTo after, by
        have := braced_length hb
        simp [Cursor.length, h]
        omega⟩

/-! ### Block tags -/

/-- The part of a block tag that is an expression, with the offset it starts at; `text` is what
follows the keyword and starts at `offset`. -/
def blockExpressionText (kind : BlockKind) (keyword : String) (offset : Nat) (text : List Char) :
    Except ParseError (Option (Nat × List Char)) :=
  match kind with
  | .closing => .ok none
  | .opening =>
    if keyword = "each" then .ok (some (offset, beforeOutside " as ".toList text))
    else if keyword = "await" then
      let then_ := beforeOutside " then ".toList text
      let catch_ := beforeOutside " catch ".toList text
      .ok (some (offset, if then_.length ≤ catch_.length then then_ else catch_))
    else if keyword = "snippet" then .ok none
    else .ok (some (offset, text))
  | .continuing =>
    if keyword = "else" then
      match text.dropWhile Text.isSpace with
      | 'i' :: 'f' :: c :: rest =>
        if Text.isSpace c then
          .ok (some (offset + Text.byteLength (text.takeWhile Text.isSpace) + 2, c :: rest))
        else .ok none
      | _ => .ok none
    else .ok none
  | .special =>
    if keyword = "const" then
      match seekOutside ['='] none 0 text with
      | none => .error ⟨.constAssignment, offset⟩
      | some rest =>
        .ok (some (offset + Text.byteLength (Text.before text rest) + 1, rest.drop 1))
    else .ok (some (offset, text))

/-- The expression of a block tag.  An opening tag needs one, unless it is `each`. -/
def readBlockExpression (setting : ScriptSetting) (kind : BlockKind) (keyword : String)
    (offset : Nat) (text : List Char) : Except ParseError (Option Expression) := do
  match ← blockExpressionText kind keyword offset text with
  | none => return none
  | some (start, text) =>
    if text.all Text.isBlank then
      if kind = .opening ∧ keyword ≠ "each" then throw ⟨.blockExpression keyword, offset⟩
      else return none
    else return some (← readExpressionAt setting start text)

/-- Reads the inside of a block tag after its sign; `offset` is where the keyword starts. -/
def readBlockTag (setting : ScriptSetting) (kind : BlockKind) (offset : Nat) (text : List Char)
    (span : Span) : Except ParseError BlockTag :=
  let keyword := text.takeWhile Char.isAlpha
  if keyword.isEmpty then .error ⟨.blockKeyword, offset⟩
  else do
    let e ← readBlockExpression setting kind (String.ofList keyword)
      (offset + Text.byteLength keyword) (text.drop keyword.length)
    return ⟨kind, String.ofList keyword, e, span⟩

/-- Reads a tag in braces among markup: a block tag when its first character says so, otherwise an
expression. -/
def readBraceNode (setting : ScriptSetting) (c : Cursor) (cs : List Char)
    (h : c.rest = '\x7b' :: cs) : Except ParseError (Step MarkupNode c) :=
  match hb : braced cs with
  | none => .error ⟨.expected '\x7d', c.pos⟩
  | some (inside, after) =>
    let span : Span := ⟨c.pos, (c.moveTo after).pos⟩
    have shorter : (c.moveTo after).length < c.length := by
      have := braced_length hb
      simp [Cursor.length, h]
      omega
    match inside.dropWhile Text.isSpace with
    | [] => (readExpressionTag setting c cs h).map (Step.map MarkupNode.expression)
    | sign :: text =>
      match BlockKind.ofSign? sign with
      | none => (readExpressionTag setting c cs h).map (Step.map MarkupNode.expression)
      | some kind => do
          let start := c.pos + 1 + Text.byteLength (inside.takeWhile Text.isSpace)
          let tag ← readBlockTag setting kind (start + 1) text span
          return ⟨.block tag, c.moveTo after, shorter⟩

/-! ### Attributes -/

/-- Whether a character can be part of the name in a shorthand. -/
def isShorthandChar (c : Char) : Bool := c.isAlphanum || c == '_' || c == '$'

/-- Reads an attribute in braces: a spread after three dots, otherwise a name that is its own
value. -/
def readBraceAttribute (setting : ScriptSetting) (c : Cursor) (cs : List Char)
    (h : c.rest = '\x7b' :: cs) : Except ParseError (Step AttributeNode c) :=
  match hb : braced cs with
  | none => .error ⟨.expected '\x7d', c.pos⟩
  | some (inside, after) =>
    let span : Span := ⟨c.pos, (c.moveTo after).pos⟩
    have shorter : (c.moveTo after).length < c.length := by
      have := braced_length hb
      simp [Cursor.length, h]
      omega
    match Text.trimLeft inside with
    | '.' :: '.' :: '.' :: text => do
        let offset := c.pos + 1 + Text.byteLength (inside.takeWhile Text.isBlank) + 3
        let e ← readExpressionAt setting offset text
        return ⟨.spread ⟨e, span⟩, c.moveTo after, shorter⟩
    | _ =>
      let name := Text.trim inside
      if name.isEmpty || !name.all isShorthandChar then .error ⟨.shorthandName, c.pos⟩
      else do
        let e ← readExpressionAt setting (c.pos + 1) inside
        let value := .expression ⟨e, span⟩
        return ⟨.plain ⟨String.ofList name, value, span⟩, c.moveTo after, shorter⟩

/-- The text between two cursors as a chunk, unless it is empty. -/
def textChunk (c later : Cursor) : List ValueChunk :=
  if later.length < c.length then [.text ⟨String.ofList (c.upTo later), ⟨c.pos, later.pos⟩⟩] else []

/-- The cursor after text that neither a stop nor an expression ends. -/
def afterChunkText (stop : Char → Bool) (c : Cursor) : Cursor :=
  c.skip (c.rest.takeWhile fun ch => !stop ch && ch != '\x7b').length

theorem length_afterChunkText_le (stop : Char → Bool) (c : Cursor) :
    (afterChunkText stop c).length ≤ c.length := c.length_skip_le _

variable {α : Type} {c : Cursor} {ch : Char} {cs closing : List Char}

/-- What is read after text is read from less than the text started with. -/
theorem length_next_chunk_lt {stop : Char → Bool} (tag : Step α (afterChunkText stop c)) :
    tag.next.length < c.length :=
  Nat.lt_of_lt_of_le tag.shorter (length_afterChunkText_le stop c)

/-- Reads text and expressions until a character stops them. -/
def readChunks (setting : ScriptSetting) (stop : Char → Bool) (c : Cursor) :
    Except ParseError (Pace (List ValueChunk) c) :=
  let d := afterChunkText stop c
  match hc : d.rest with
  | '\x7b' :: cs =>
    if stop '\x7b' then .ok ⟨textChunk c d, d, length_afterChunkText_le stop c⟩
    else do
      let tag ← readExpressionTag setting d cs hc
      let more ← readChunks setting stop tag.next
      let rest := more.after (length_next_chunk_lt tag)
      return ⟨textChunk c d ++ .expression tag.value :: rest.value, rest.next, rest.noLonger⟩
  | _ => .ok ⟨textChunk c d, d, length_afterChunkText_le stop c⟩
termination_by c.length
decreasing_by exact length_next_chunk_lt tag

/-- Reads the value of an attribute. -/
def readValue (setting : ScriptSetting) (c : Cursor) :
    Except ParseError (Step AttributeValue c) :=
  match hc : c.rest with
  | [] => .error ⟨.attributeValue, c.pos⟩
  | ch :: cs =>
    if ch = '"' ∨ ch = '\'' then do
      let r ← readChunks setting (· == ch) (c.moveTo cs)
      match hr : r.next.rest with
      | end_ :: after =>
        if end_ = ch then
          return ⟨.chunks r.value, r.next.moveTo after, by
            have := r.noLonger
            simp [Cursor.length, hc, hr] at *
            omega⟩
        else throw ⟨.unterminatedValue, c.pos⟩
      | [] => throw ⟨.unterminatedValue, c.pos⟩
    else if hb : ch = '\x7b' then do
      let tag ← readExpressionTag setting c cs (by rw [hc, hb])
      return tag.map .expression
    else do
      let r ← readChunks setting (fun ch => Text.isSpace ch || ch == '>') c
      if h : r.next.length < c.length then return ⟨.chunks r.value, r.next, h⟩
      else throw ⟨.attributeValue, r.next.pos⟩

/-- What follows the name of an attribute. -/
def afterAttributeName : List Char → List Char
  | [] => []
  | c :: cs =>
    if Text.isSpace c || c == '=' || c == '>' || c == '"' || c == '\'' || c == '\x7b' then c :: cs
    else if c = '/' ∧ cs.head? = some '>' then c :: cs
    else afterAttributeName cs

/-- Reads the value after the name of an attribute; blanks before a missing equals sign stay. -/
def readOptionalValue (setting : ScriptSetting) (c : Cursor) :
    Except ParseError (Pace AttributeValue c) :=
  match hc : c.skipSpace.rest with
  | '=' :: cs => do
      let d := (c.skipSpace.moveTo cs).skipSpace
      let v ← readValue setting d
      return ⟨v.value, v.next, by
        have h₁ := v.shorter
        have h₂ := Cursor.length_skipSpace_le (c.skipSpace.moveTo cs)
        have h₃ := Cursor.length_skipSpace_le c
        simp only [d, Cursor.length_moveTo] at h₁ h₂
        rw [Cursor.length, hc, List.length_cons] at h₃
        omega⟩
  | _ => .ok ⟨.absent, c, c.length_le_self⟩

/-- The words between bars. -/
def splitBars : List Char → List (List Char)
  | [] => [[]]
  | c :: cs =>
    match splitBars cs with
    | [] => [[c]]
    | word :: words => if c = '|' then [] :: word :: words else (c :: word) :: words

/-- The expression that is the value of a directive. -/
def directiveValue (value : AttributeValue) (start : Nat) :
    Except ParseError (Option ExpressionTag) :=
  match value with
  | .absent => .ok none
  | .expression tag => .ok (some tag)
  | .chunks [.expression tag] => .ok (some tag)
  | .chunks _ => .error ⟨.directiveValue, start⟩

/-- A directive from what stands after its colon. -/
def directiveOf (kind : DirectiveKind) (rest : List Char) (value : AttributeValue) (span : Span) :
    Except ParseError AttributeNode :=
  match splitBars rest with
  | [] => .error ⟨.directiveName, span.start⟩
  | name :: modifiers =>
    if name.isEmpty then .error ⟨.directiveName, span.start⟩
    else do
      let v ← directiveValue value span.start
      return .directive ⟨kind, String.ofList name, modifiers.map String.ofList, v, span⟩

/-- An attribute or a directive, as its name says. -/
def attributeOf (name : List Char) (value : AttributeValue) (span : Span) :
    Except ParseError AttributeNode :=
  let plain : AttributeNode := .plain ⟨String.ofList name, value, span⟩
  match name.dropWhile (· ≠ ':') with
  | [] => .ok plain
  | _ :: rest =>
    match DirectiveKind.ofWord? (String.ofList (name.takeWhile (· ≠ ':'))) with
    | some kind => directiveOf kind rest value span
    | none => .ok plain

/-- Reads an attribute that starts with its name. -/
def readAttribute (setting : ScriptSetting) (c : Cursor) :
    Except ParseError (Step AttributeNode c) :=
  let d := c.moveTo (afterAttributeName c.rest)
  if h : d.length < c.length then do
    let v ← readOptionalValue setting d
    let a ← attributeOf (c.upTo d) v.value ⟨c.pos, v.next.pos⟩
    return ⟨a, v.next, by have := v.noLonger; omega⟩
  else .error ⟨.attributeName, c.pos⟩

/-- Reads an attribute at a character that ends no tag. -/
def readOneAttribute (setting : ScriptSetting) (c : Cursor) (ch : Char) (cs : List Char)
    (hc : c.rest = ch :: cs) : Except ParseError (Step AttributeNode c) :=
  if hb : ch = '\x7b' then readBraceAttribute setting c cs (hb ▸ hc) else readAttribute setting c

/-- The end of a tag takes some of the text. -/
theorem length_tagEnd_lt (hc : c.skipSpace.rest = ch :: cs) :
    (c.skipSpace.moveTo cs).length < c.length :=
  Nat.lt_of_lt_of_le (Cursor.length_moveTo_lt hc) c.length_skipSpace_le

/-- The end of a tag that closes itself takes some of the text. -/
theorem length_selfClosing_lt (hc : c.skipSpace.rest = ch :: cs) :
    (c.skipSpace.moveTo (cs.drop 1)).length < c.length := by
  refine Nat.lt_of_lt_of_le (Cursor.length_moveTo_lt_of_le hc ?_) c.length_skipSpace_le
  rw [List.length_drop]
  exact Nat.sub_le _ _

/-- An attribute after blanks takes some of the text. -/
theorem length_next_attribute_lt (a : Step α c.skipSpace) :
    a.next.length < c.length := Nat.lt_of_lt_of_le a.shorter c.length_skipSpace_le

/-- Reads the attributes of an opening tag up to its end; the flag tells whether the tag closes
itself. -/
def readAttributes (setting : ScriptSetting) (name : String) (c : Cursor) :
    Except ParseError (Step (List AttributeNode × Bool) c) :=
  let d := c.skipSpace
  match hc : d.rest with
  | [] => .error ⟨.endInTag name, d.pos⟩
  | ch :: cs =>
    if ch = '>' then .ok ⟨([], false), d.moveTo cs, length_tagEnd_lt hc⟩
    else if ch = '/' ∧ cs.head? = some '>' then
      .ok ⟨([], true), d.moveTo (cs.drop 1), length_selfClosing_lt hc⟩
    else do
      let a ← readOneAttribute setting d ch cs hc
      let more ← readAttributes setting name a.next
      return (more.after (Nat.le_of_lt (length_next_attribute_lt a))).map fun v =>
        (a.value :: v.1, v.2)
termination_by c.length
decreasing_by exact length_next_attribute_lt a

/-! ### Tags -/

/-- Characters of the name of an element. -/
def isTagChar (c : Char) : Bool :=
  c.isAlphanum || c == '-' || c == '_' || c == ':' || c == '.' || 0x80 ≤ c.toNat

/-- An opening tag. -/
structure OpeningTag where
  name : String
  attributes : List AttributeNode
  selfClosing : Bool
  start : Nat

/-- Reads an opening tag; `cs` is the text after its angle bracket. -/
def readOpeningTag (setting : ScriptSetting) (c : Cursor) (cs : List Char)
    (h : c.rest = '<' :: cs) : Except ParseError (Step OpeningTag c) :=
  if cs.head?.any Char.isAlpha then do
    let name := String.ofList (cs.takeWhile isTagChar)
    let d := c.moveTo (cs.dropWhile isTagChar)
    let r ← readAttributes setting name d
    return ⟨⟨name, r.value.1, r.value.2, c.pos⟩, r.next, by
      have h₁ := r.shorter
      have h₂ := (List.dropWhile_sublist (l := cs) isTagChar).length_le
      simp only [d, Cursor.length_moveTo] at h₁
      simp only [Cursor.length, h, List.length_cons] at *
      omega⟩
  else .error ⟨.elementName, c.pos + 1⟩

/-- Reads a closing tag; `cs` is the text after its angle bracket and slash. -/
def readClosingTag (c : Cursor) (cs : List Char) (h : c.rest = '<' :: '/' :: cs) :
    Except ParseError (Step String c) :=
  match hr : (cs.dropWhile isTagChar).dropWhile Text.isSpace with
  | '>' :: after =>
    .ok ⟨String.ofList (cs.takeWhile isTagChar), c.moveTo after, by
      have h₁ := (List.dropWhile_sublist (l := cs) isTagChar).length_le
      have h₂ := (List.dropWhile_sublist (l := cs.dropWhile isTagChar) Text.isSpace).length_le
      rw [hr] at h₂
      simp only [Cursor.length, Cursor.rest_moveTo, h, List.length_cons] at *
      omega⟩
  | _ => .error ⟨.expected '>', c.pos⟩

/-! ### Contents that are not markup -/

/-- The content of an element and what follows its closing tag. -/
structure RawContent where
  text : String
  span : Span

/-- Raw content and its closing tag take some of the text. -/
theorem length_raw_lt {piece after : List Char} (hf : Text.find piece c.rest = some closing)
    (hd : closing.dropWhile (fun c => decide (c ≠ '>')) = ch :: after) :
    (c.moveTo after).length < c.length := by
  have h₁ := Text.find_length_le hf
  have h₂ := (List.dropWhile_sublist (l := closing) fun c => decide (c ≠ '>')).length_le
  rw [hd, List.length_cons] at h₂
  rw [Cursor.length_moveTo, Cursor.length]
  omega

/-- Reads up to the closing tag of an element whose content is not markup. -/
def readRaw (name : String) (c : Cursor) : Except ParseError (Step RawContent c) :=
  match hf : Text.find ("</" ++ name).toList c.rest with
  | none => .error ⟨.leftOpen name, c.pos⟩
  | some closing =>
    match hd : closing.dropWhile (· ≠ '>') with
    | [] => .error ⟨.expected '>', (c.moveTo closing).pos⟩
    | _ :: after =>
      let d := c.moveTo closing
      .ok ⟨⟨String.ofList (c.upTo d), ⟨c.pos, d.pos⟩⟩, c.moveTo after, length_raw_lt hf hd⟩

/-- The text between two cursors as a node, unless it is empty. -/
def textNode (c later : Cursor) : List MarkupNode :=
  if later.length < c.length then [.text ⟨String.ofList (c.upTo later), ⟨c.pos, later.pos⟩⟩] else []

/-- The cursor after text up to an expression, or up to `closing`. -/
def afterAreaText (closing : List Char) (c : Cursor) : Cursor :=
  c.skip ((Text.before c.rest closing).takeWhile (· ≠ '\x7b')).length

theorem length_next_area_lt (s : Step α (afterAreaText closing c)) : s.next.length < c.length :=
  Nat.lt_of_lt_of_le s.shorter (c.length_skip_le _)

theorem length_next_area_le (s : Step α (afterAreaText closing c)) : s.next.length ≤ c.length :=
  Nat.le_of_lt (length_next_area_lt s)

/-- Reads the content of a text area, text and expressions, with its closing tag; `start` is where
the content starts. -/
def readTextarea (setting : ScriptSetting) (start : Nat) (c : Cursor) :
    Except ParseError (Step (List MarkupNode) c) :=
  match Text.find "</textarea".toList c.rest with
  | none => .error ⟨.leftOpen "textarea", start⟩
  | some closing =>
    let d := afterAreaText closing c
    match hc : d.rest with
    | '\x7b' :: cs => do
        let tag ← readExpressionTag setting d cs hc
        let more ← readTextarea setting start tag.next
        return (more.after (length_next_area_le tag)).map fun nodes =>
          textNode c d ++ .expression tag.value :: nodes
    | '<' :: '/' :: cs => do
        let tag ← readClosingTag d cs hc
        return ⟨textNode c d, tag.next, length_next_area_lt tag⟩
    | _ => .error ⟨.leftOpen "textarea", start⟩
termination_by c.length
decreasing_by exact length_next_area_lt tag

/-! ### Nodes -/

/-- Elements that have neither content nor a closing tag. -/
def voidElements : List String :=
  ["area", "base", "br", "col", "embed", "hr", "img", "input", "link", "meta", "param", "source",
    "track", "wbr"]

/-- Elements whose content is not markup. -/
def rawElements : List String := ["script", "style"]

/-- Reads a comment; `cs` is the text after `<!--`. -/
def readComment (c : Cursor) (cs : List Char) (h : c.rest = '<' :: '!' :: '-' :: '-' :: cs) :
    Except ParseError (Step MarkupNode c) :=
  match hf : Text.find "-->".toList cs with
  | none => .error ⟨.unterminatedComment, c.pos⟩
  | some closing =>
    let after := c.moveTo (closing.drop 3)
    .ok ⟨.comment ⟨String.ofList (Text.before cs closing), ⟨c.pos, after.pos⟩⟩, after, by
      have := Text.find_length_le hf
      simp only [after, Cursor.length, Cursor.rest_moveTo, h, List.length_cons, List.length_drop]
      omega⟩

/-- Reads a declaration such as a document type, which is kept as a comment; `cs` is the text after
`<!`. -/
def readDeclarationTag (c : Cursor) (cs : List Char) (h : c.rest = '<' :: '!' :: cs) :
    Except ParseError (Step MarkupNode c) :=
  match hd : cs.dropWhile (· ≠ '>') with
  | [] => .error ⟨.expected '>', c.pos⟩
  | _ :: rest =>
    let after := c.moveTo rest
    .ok ⟨.comment ⟨String.ofList (cs.takeWhile (· ≠ '>')), ⟨c.pos, after.pos⟩⟩, after, by
      have := (List.dropWhile_sublist (l := cs) fun c => decide (c ≠ '>')).length_le
      rw [hd] at this
      simp only [after, Cursor.length, Cursor.rest_moveTo, h, List.length_cons] at *
      omega⟩

/-- Reads text up to the next angle bracket or brace; the first character belongs to it. -/
def readText (c : Cursor) (ch : Char) (cs : List Char) (h : c.rest = ch :: cs) :
    Step MarkupNode c :=
  let after := c.moveTo (cs.dropWhile fun ch => ch != '<' && ch != '\x7b')
  ⟨.text ⟨String.ofList (c.upTo after), ⟨c.pos, after.pos⟩⟩, after, by
    have := (List.dropWhile_sublist (l := cs) fun ch => ch != '<' && ch != '\x7b').length_le
    simp only [after, Cursor.length, Cursor.rest_moveTo, h, List.length_cons] at *
    omega⟩

/-- Reads what an element holds, up to the end of its closing tag, with a reader for children. -/
def readBodyWith (setting : ScriptSetting) (tag : OpeningTag) (c : Cursor)
    (children : Unit → Except ParseError (Step (List MarkupNode) c)) :
    Except ParseError (Pace (List MarkupNode) c) :=
  if tag.selfClosing || voidElements.contains tag.name then .ok ⟨[], c, c.length_le_self⟩
  else if tag.name = "textarea" then do
    let r ← readTextarea setting c.pos c
    return ⟨r.value, r.next, Nat.le_of_lt r.shorter⟩
  else if rawElements.contains tag.name then do
    let r ← readRaw tag.name c
    let nodes := if r.value.span.isEmpty then [] else [.text ⟨r.value.text, r.value.span⟩]
    return ⟨nodes, r.next, Nat.le_of_lt r.shorter⟩
  else do
    let r ← children ()
    return ⟨r.value, r.next, Nat.le_of_lt r.shorter⟩

/-- The element made of a tag and what it holds. -/
def elementOf (tag : OpeningTag) (children : List MarkupNode) (stop : Nat) : MarkupNode :=
  .element tag.name tag.attributes children tag.selfClosing ⟨tag.start, stop⟩

/-- Reads a node other than an element, if one starts here. -/
def readLeaf (setting : ScriptSetting) (c : Cursor) :
    Except ParseError (Option (Step MarkupNode c)) :=
  match h : c.rest with
  | [] => .ok none
  | '<' :: '!' :: '-' :: '-' :: cs => (readComment c cs h).map some
  | '<' :: '!' :: cs => (readDeclarationTag c cs h).map some
  | '<' :: _ => .ok none
  | '\x7b' :: cs => (readBraceNode setting c cs h).map some
  | ch :: cs => .ok (some (readText c ch cs h))

/-- Reads the children of an element and its closing tag. -/
def readChildren (setting : ScriptSetting) (parent : String) (c : Cursor) :
    Except ParseError (Step (List MarkupNode) c) := do
  match ← readLeaf setting c with
  | some leaf =>
    have := leaf.shorter
    let more ← readChildren setting parent leaf.next
    return ⟨leaf.value :: more.value, more.next, by have := more.shorter; omega⟩
  | none =>
    match h : c.rest with
    | '<' :: '/' :: cs =>
      let tag ← readClosingTag c cs h
      if tag.value = parent then return ⟨[], tag.next, tag.shorter⟩
      else throw ⟨.notOpen tag.value, c.pos⟩
    | '<' :: cs =>
      let tag ← readOpeningTag setting c cs h
      have := tag.shorter
      let body ← readBodyWith setting tag.value tag.next
        (fun _ => readChildren setting tag.value.name tag.next)
      have := body.noLonger
      let more ← readChildren setting parent body.next
      return ⟨elementOf tag.value body.value body.next.pos :: more.value, more.next, by
        have := more.shorter
        omega⟩
    | _ => throw ⟨.leftOpen parent, c.pos⟩
termination_by c.length
decreasing_by all_goals omega

end CssRune
