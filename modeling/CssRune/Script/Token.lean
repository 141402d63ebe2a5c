/-
**Tokens of scripts.**

A script is read token by token, and the reader of the grammar asks for each token when it needs
it: only the grammar knows whether a slash divides or opens a regular expression, and whether a
closing brace ends a block or resumes a template.  A closing angle bracket is always a token of its
own; the grammar joins it to an operator where one can stand.
-/

import CssRune.Script.Name
import CssRune.Script.StringLiteral
import CssRune.Text.Cursor
import CssRune.Text.Quoted

set_option autoImplicit false

namespace CssRune

namespace Script

/-- A token. -/
inductive Token where
  | eof
  /-- Text that no token starts with, or a literal that is left open. -/
  | invalid
  /-- A name or a keyword; `escaped` when an escape spells part of it. -/
  | name (text : String) (escaped : Bool)
  /-- A name after `#`. -/
  | privateName (text : String)
  | number
  | bigint
  | string (value : String)
  /-- A piece of a template: `closed` by its backtick or open for an expression, and `valid` when
  its escapes are. -/
  | template (closed valid : Bool)
  | regex
  | sign (text : String)
  deriving DecidableEq, Repr

/-! ### Blanks and comments -/

def isLineEnd (c : Char) : Bool := c == '\n' || c == '\r' || c == '\u2028' || c == '\u2029'

/-- Whether a character is a blank inside a line. -/
def isInlineBlank (c : Char) : Bool :=
  c == ' ' || c == '\t' || c == '\x0b' || c == '\x0c' || c == '\u0085' || c == '\u00a0' ||
    c == '\u1680' || ('\u2000' ≤ c && c ≤ '\u200b') || c == '\u202f' || c == '\u205f' ||
    c == '\u3000' || c == '\ufeff'

/-- Skips blanks and comments; tells whether a line ended on the way.  Nothing when a comment is
left open. -/
def passBlanks (newline : Bool) (cs : List Char) : Option (Bool × List Char) :=
  match cs with
  | '/' :: '/' :: cs => passBlanks newline (cs.dropWhile fun c => !isLineEnd c)
  | '/' :: '*' :: cs =>
    match _h : Text.afterComment cs with
    | none => none
    | some rest =>
      passBlanks (newline || (cs.take (cs.length - rest.length)).any isLineEnd) rest
  | c :: cs =>
    if isLineEnd c then passBlanks true cs
    else if isInlineBlank c then passBlanks newline cs
    else some (newline, c :: cs)
  | [] => some (newline, [])
termination_by cs.length
decreasing_by
  · have := (List.dropWhile_sublist (l := cs) fun c => !isLineEnd c).length_le
    simp only [List.length_cons]
    omega
  · have := Text.afterComment_length _h
    simp only [List.length_cons]
    omega
  · simp
  · simp

/-! ### Names -/

/-- The character of an escape in a name and the length of the escape after `\u`. -/
def readNameEscape (cs : List Char) : Option (Char × Nat) :=
  match readUnicode cs with
  | some (.char c, n) => some (c, n)
  | _ => none

/-- The characters of a name, whether some were escaped, and what follows; nothing when an escape
gives a character that a name cannot have there. -/
def readName (first : Bool) (cs : List Char) : Option (List Char × Bool × List Char) :=
  match cs with
  | [] => some ([], false, [])
  | c :: cs =>
    if c = '\\' then
      match cs with
      | 'u' :: cs =>
        match readNameEscape cs with
        | none => none
        | some (c, n) =>
          if (if first then isNameStart c else isNamePart c) then
            (readName false (cs.drop n)).map fun r => (c :: r.1, true, r.2.2)
          else none
      | _ => none
    else if isNamePart c then (readName false cs).map fun r => (c :: r.1, r.2.1, r.2.2)
    else some ([], false, c :: cs)
termination_by cs.length
decreasing_by
  · simp
    omega
  · simp

/-! ### Numbers -/

/-- Whether digits and separators alternate properly: a separator stands between two digits. -/
def separatorsFit : List Char → Bool
  | [] => false
  | ['_'] => false
  | '_' :: _ => false
  | [_] => true
  | _ :: '_' :: cs => separatorsFit cs
  | _ :: cs => separatorsFit cs

/-- The length of a run of digits with separators. -/
def digitRun (ok : Char → Bool) (cs : List Char) : Option Nat :=
  let run := cs.takeWhile fun c => ok c || c == '_'
  if separatorsFit run then some run.length else none

/-- The length of an exponent, zero when there is none. -/
def exponentRun (cs : List Char) : Option Nat :=
  match cs with
  | e :: cs =>
    if e = 'e' ∨ e = 'E' then
      match cs with
      | '+' :: cs => (digitRun Char.isDigit cs).map (· + 2)
      | '-' :: cs => (digitRun Char.isDigit cs).map (· + 2)
      | cs => (digitRun Char.isDigit cs).map (· + 1)
    else some 0
  | [] => some 0

/-- The length of a fraction with its point, zero when there is none. -/
def fractionRun (cs : List Char) : Option Nat :=
  match cs with
  | '.' :: c :: cs =>
    if c.isDigit ∨ c = '_' then (digitRun Char.isDigit (c :: cs)).map (· + 1) else some 1
  | ['.'] => some 1
  | _ => some 0

/-- Fraction and exponent. -/
def tailRun (cs : List Char) : Option Nat := do
  let f ← fractionRun cs
  let e ← exponentRun (cs.drop f)
  return f + e

/-- A number in a base given by a letter after the zero. -/
def basedNumber (ok : Char → Bool) (cs : List Char) : Option (Token × Nat) := do
  let n ← digitRun ok cs
  match cs.drop n with
  | 'n' :: _ => return (.bigint, n + 3)
  | _ => return (.number, n + 2)

/-- A number and its length, whatever follows it. -/
def numberRun (cs : List Char) : Option (Token × Nat) :=
  match cs with
  | '0' :: 'x' :: cs => basedNumber (fun c => (Text.hexDigit? c).isSome) cs
  | '0' :: 'X' :: cs => basedNumber (fun c => (Text.hexDigit? c).isSome) cs
  | '0' :: 'o' :: cs => basedNumber isOctal cs
  | '0' :: 'O' :: cs => basedNumber isOctal cs
  | '0' :: 'b' :: cs => basedNumber (fun c => c == '0' || c == '1') cs
  | '0' :: 'B' :: cs => basedNumber (fun c => c == '0' || c == '1') cs
  | '0' :: '_' :: _ => none
  | '0' :: 'n' :: _ => some (.bigint, 2)
  | '0' :: c :: cs =>
    if c.isDigit then
      let run := (c :: cs).takeWhile Char.isDigit
      if run.all isOctal then some (.number, run.length + 1)
      else do
        let t ← tailRun ((c :: cs).drop run.length)
        return (.number, run.length + 1 + t)
    else (tailRun (c :: cs)).map fun n => (.number, n + 1)
  | '.' :: cs => (tailRun ('.' :: cs)).map fun n => (.number, n)
  | cs => do
      let n ← digitRun Char.isDigit cs
      match cs.drop n with
      | 'n' :: _ => return (.bigint, n + 1)
      | rest =>
        let t ← tailRun rest
        return (.number, n + t)

/-- A number that is not followed by a name or a digit. -/
def readNumber (cs : List Char) : Option (Token × Nat) := do
  let r ← numberRun cs
  match cs.drop r.2 with
  | c :: _ => if isNameStart c || c.isDigit then none else return r
  | [] => return r

/-! ### Signs -/

/-- Signs that are tokens, longer ones before their beginnings. -/
def signs : List String :=
  ["...", "===", "!==", "**=", "<<=", "&&=", "||=", "??=", "=>", "==", "!=", "<=", "++", "--", "<<",
    "&&", "||", "??", "?.", "+=", "-=", "*=", "/=", "%=", "&=", "|=", "^=", "**", "\x7b", "\x7d",
    "(", ")", "[", "]", ";", ",", "<", ">", "+", "-", "*", "/", "%", "&", "|", "^", "!", "~", "?",
    ":", "=", ".", "@"]

/-- The sign at the start of a text; a question mark and a point before a digit are two. -/
def readSign (cs : List Char) : Option String :=
  match cs with
  | '?' :: '.' :: c :: _ => if c.isDigit then some "?" else some "?."
  | cs => signs.find? fun s => s.toList.isPrefixOf cs

/-! ### Pieces of templates and regular expressions -/

/-- Whether an escape is allowed in a template without a tag. -/
def isTemplateEscape : List Char → Bool
  | '0' :: c :: _ => !c.isDigit
  | 'x' :: cs => (Text.hexOf? 2 cs).isSome
  | 'u' :: cs => (readUnicode cs).isSome
  | c :: _ => !(c.isDigit && c != '0')
  | [] => true

/-- Whether all escapes in a piece of a template are allowed without a tag. -/
def templateEscapesFit : List Char → Bool
  | [] => true
  | '\\' :: cs =>
    match cs with
    | [] => true
    | c :: cs => isTemplateEscape (c :: cs) && templateEscapesFit cs
  | _ :: cs => templateEscapesFit cs

/-- A piece of a template: whether it is closed, whether its escapes are allowed without a tag, and
what follows. -/
def readTemplate (cs : List Char) : Option (Bool × Bool × List Char) :=
  (Text.afterTemplate cs).map fun r =>
    (r.1, templateEscapesFit (cs.take (cs.length - r.2.length)), r.2)

/-- What follows the closing slash of a regular expression. -/
def afterRegex (inClass : Bool) : List Char → Option (List Char)
  | [] => none
  | ['\\'] => none
  | '\\' :: c :: cs => if isLineEnd c then none else afterRegex inClass cs
  | c :: cs =>
    if isLineEnd c then none
    else if c = '/' ∧ !inClass then some cs
    else afterRegex (if c = '[' then true else if c = ']' then false else inClass) cs

/-- Whether a character can stand among the flags of a regular expression. -/
def isFlagLetter (c : Char) : Bool := c.isAlphanum || c == '$' || c == '_'

/-- Whether the flags are known and none stands twice. -/
def flagsFit (cs : List Char) : Bool :=
  cs.all (fun c => "dgimsuvy".toList.contains c) && decide cs.Nodup

/-! ### The next token -/

/-- A token, where it stands, what follows, and whether a line ended before it. -/
structure Lexeme where
  token : Token
  start : Cursor
  next : Cursor
  newline : Bool
  deriving DecidableEq, Repr

/-- The token at the start of a text without trivia, and what follows it. -/
def readToken (cs : List Char) : Token × List Char :=
  match cs with
  | [] => (.eof, [])
  | c :: rest =>
    if isNameStart c || c == '\\' then
      match readName true cs with
      | some (text, escaped, rest) => (.name (String.ofList text) escaped, rest)
      | none => (.invalid, [])
    else if c.isDigit || (c == '.' && rest.head?.any Char.isDigit) then
      match readNumber cs with
      | some (token, n) => (token, cs.drop n)
      | none => (.invalid, [])
    else if c == '"' || c == '\'' then
      match readQuoted c rest with
      | some (points, rest) => (.string (Point.text points), rest)
      | none => (.invalid, [])
    else if c == '\x60' then
      match readTemplate rest with
      | some (closed, valid, rest) => (.template closed valid, rest)
      | none => (.invalid, [])
    else if c == '#' then
      match rest with
      | d :: _ =>
        if isNameStart d || d == '\\' then
          match readName true rest with
          | some (text, _, rest) => (.privateName (String.ofList text), rest)
          | none => (.invalid, [])
        else (.invalid, [])
      | [] => (.invalid, [])
    else
      match readSign cs with
      | some s => (.sign s, cs.drop s.length)
      | none => (.invalid, [])

/-- The next token after a cursor. -/
def lex (c : Cursor) : Lexeme :=
  match passBlanks false c.rest with
  | none => ⟨.invalid, c, c.moveTo [], false⟩
  | some (newline, cs) =>
    let start := c.moveTo cs
    let r := readToken cs
    ⟨r.1, start, start.moveTo r.2, newline⟩

/-- The regular expression that starts where a slash was read. -/
def lexRegex (x : Lexeme) : Lexeme :=
  match afterRegex false (x.start.rest.drop 1) with
  | none => { x with token := .invalid }
  | some rest =>
    let flags := rest.takeWhile isFlagLetter
    let token := if flagsFit flags then Token.regex else .invalid
    { x with token := token, next := x.start.moveTo (rest.drop flags.length) }

/-- The piece of a template that goes on after a closing brace. -/
def lexTemplate (x : Lexeme) : Lexeme :=
  match readTemplate (x.start.rest.drop 1) with
  | none => { x with token := .invalid }
  | some (closed, valid, rest) =>
    { x with token := .template closed valid, next := x.start.moveTo rest }

/-- A closing angle bracket joined to the operator it starts. -/
def lexAngles (x : Lexeme) : Lexeme :=
  if x.token = .sign ">" then
    match [">>>=", ">>>", ">>=", ">>", ">="].find? fun s => s.toList.isPrefixOf x.start.rest with
    | some s => { x with token := .sign s, next := x.start.moveTo (x.start.rest.drop s.length) }
    | none => x
  else x

/-- The first character of a sign split off as a token of its own. -/
def splitSign (x : Lexeme) (first : String) : Lexeme :=
  { x with token := .sign first, next := x.start.moveTo (x.start.rest.drop first.length) }

end Script

end CssRune
