/-
**Reading JSON.**

A text is read as one value with nothing but blanks around it.  Nesting has no limit and numbers no
range.
-/

import CssRune.Json
import CssRune.Text.Hex
import CssRune.Text.Units

set_option autoImplicit false

namespace CssRune

namespace Json

/-- Whether a character may stand between tokens. -/
def isBlank (c : Char) : Bool := c == ' ' || c == '\n' || c == '\t' || c == '\r'

def skipBlanks (cs : List Char) : List Char := cs.dropWhile isBlank

/-! ### Strings -/

/-- One piece of a string: a character, or a number that an escape gives. -/
inductive Piece where
  | char (c : Char)
  | code (n : Nat)
  deriving DecidableEq, Repr

/-- What a one-letter escape stands for. -/
def escaped? (c : Char) : Option Char :=
  if c = '"' || c = '\\' || c = '/' then some c
  else if c = 'b' then some '\x08'
  else if c = 'f' then some '\x0c'
  else if c = 'n' then some '\n'
  else if c = 'r' then some '\r'
  else if c = 't' then some '\t'
  else none

/-- The pieces of a string up to its closing quote, and the text after that. -/
def readPieces : List Char → Option (List Piece × List Char)
  | [] => none
  | '\\' :: 'u' :: a :: b :: c :: d :: cs => do
      let n ← Text.hexNumber? [a, b, c, d]
      let (ps, rest) ← readPieces cs
      return (.code n :: ps, rest)
  | '\\' :: c :: cs => do
      let e ← escaped? c
      let (ps, rest) ← readPieces cs
      return (.char e :: ps, rest)
  | c :: cs =>
    if c = '"' then some ([], cs)
    else if c = '\\' || c.toNat < 32 then none
    else do
      let (ps, rest) ← readPieces cs
      return (.char c :: ps, rest)

/-- The text of a list of pieces; two numbers may make a pair of surrogates. -/
def textOf? : List Piece → Option (List Char)
  | [] => some []
  | .char c :: ps => (textOf? ps).map (c :: ·)
  | .code n :: .code m :: ps =>
    if Text.isHighSurrogate n then
      if Text.isLowSurrogate m then (textOf? ps).map (Text.ofPair n m :: ·) else none
    else if Text.isLowSurrogate n then none
    else (textOf? (.code m :: ps)).map (Char.ofNat n :: ·)
  | .code n :: ps =>
    if Text.isHighSurrogate n || Text.isLowSurrogate n then none
    else (textOf? ps).map (Char.ofNat n :: ·)

/-- A string after its opening quote, and the text after it; nothing in place of a string that is no
text. -/
def readString (cs : List Char) : Option (Option String × List Char) :=
  (readPieces cs).map fun r => ((textOf? r.1).map String.ofList, r.2)

/-! ### Numbers -/

/-- One or more digits, and the text after them. -/
def readDigits (cs : List Char) : Option (List Char × List Char) :=
  let digits := cs.takeWhile Char.isDigit
  if digits.isEmpty then none else some (digits, cs.dropWhile Char.isDigit)

/-- The digits before the point; a zero stands alone. -/
def readWhole : List Char → Option (List Char × List Char)
  | '0' :: cs => if cs.head?.any Char.isDigit then none else some (['0'], cs)
  | cs => readDigits cs

/-- A point with digits, or nothing. -/
def readFraction : List Char → Option (List Char × List Char)
  | '.' :: cs => (readDigits cs).map fun r => ('.' :: r.1, r.2)
  | cs => some ([], cs)

/-- An exponent, or nothing. -/
def readExponent : List Char → Option (List Char × List Char)
  | [] => some ([], [])
  | e :: cs =>
    if e = 'e' || e = 'E' then
      match cs with
      | s :: ds =>
        if s = '+' || s = '-' then (readDigits ds).map fun r => (e :: s :: r.1, r.2)
        else (readDigits (s :: ds)).map fun r => (e :: r.1, r.2)
      | [] => none
    else some ([], e :: cs)

/-- A number without its sign. -/
def readUnsigned (cs : List Char) : Option (List Char × List Char) := do
  let (whole, cs) ← readWhole cs
  let (fraction, cs) ← readFraction cs
  let (exponent, cs) ← readExponent cs
  return (whole ++ fraction ++ exponent, cs)

/-- A number, and the text after it. -/
def readNumber : List Char → Option (Json × List Char)
  | '-' :: cs => (readUnsigned cs).map fun r => (number (String.ofList ('-' :: r.1)), r.2)
  | cs => (readUnsigned cs).map fun r => (number (String.ofList r.1), r.2)

/-! ### Values -/

/-- The value that members make up; one without a name that is text breaks the whole. -/
def ofMembers (members : List (Option String × Json)) : Json :=
  match members.mapM fun m => m.1.map fun name => (name, m.2) with
  | some members => object members
  | none => broken

mutual

/-- A value at the start of a text, and the text after it. -/
def readValue : Nat → List Char → Option (Json × List Char)
  | 0, _ => none
  | fuel + 1, cs =>
    match skipBlanks cs with
    | [] => none
    | 'n' :: 'u' :: 'l' :: 'l' :: cs => some (null, cs)
    | 't' :: 'r' :: 'u' :: 'e' :: cs => some (bool true, cs)
    | 'f' :: 'a' :: 'l' :: 's' :: 'e' :: cs => some (bool false, cs)
    | '"' :: cs => (readString cs).map fun r => ((r.1.map string).getD broken, r.2)
    | '[' :: cs =>
      match skipBlanks cs with
      | ']' :: cs => some (array [], cs)
      | cs => (readItems fuel cs).map fun r => (array r.1, r.2)
    | '\x7b' :: cs =>
      match skipBlanks cs with
      | '\x7d' :: cs => some (object [], cs)
      | cs => (readMembers fuel cs).map fun r => (ofMembers r.1, r.2)
    | cs => readNumber cs

/-- The items of an array, and the text after its bracket. -/
def readItems : Nat → List Char → Option (List Json × List Char)
  | 0, _ => none
  | fuel + 1, cs => do
      let (j, cs) ← readValue fuel cs
      match skipBlanks cs with
      | ',' :: cs => do
          let (js, cs) ← readItems fuel cs
          return (j :: js, cs)
      | ']' :: cs => return ([j], cs)
      | _ => none

/-- The members of an object, and the text after its brace. -/
def readMembers : Nat → List Char → Option (List (Option String × Json) × List Char)
  | 0, _ => none
  | fuel + 1, cs => do
      let '"' :: cs := skipBlanks cs | none
      let (name, cs) ← readString cs
      let ':' :: cs := skipBlanks cs | none
      let (j, cs) ← readValue fuel cs
      match skipBlanks cs with
      | ',' :: cs => do
          let (ms, cs) ← readMembers fuel cs
          return ((name, j) :: ms, cs)
      | '\x7d' :: cs => return ([(name, j)], cs)
      | _ => none

end

/-- Reads a text as one value.  Every two steps take a character at least, so the fuel lasts. -/
def read (text : String) : Option Json := do
  let cs := text.toList
  let (j, rest) ← readValue (2 * cs.length + 2) cs
  if (skipBlanks rest).isEmpty then return j else none

end Json

end CssRune
