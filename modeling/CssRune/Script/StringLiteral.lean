/-
**String literals of scripts.**

A literal is a quote, characters and backslash escapes, and the same quote again.  Reading it gives
the text it stands for.  Escapes may name half of a surrogate pair; a half without its partner has
no character of its own and is written as U+FFFD followed by four hexadecimal digits, in a text
where U+FFFD itself is written the same way.

Main results:

* `Script.readQuoted_plain` — a literal without escapes stands for its own characters.
-/

import CssRune.Text.Hex
import CssRune.Text.Units

set_option autoImplicit false

namespace CssRune

namespace Script

/-- One unit of a decoded string. -/
inductive Point where
  | char (c : Char)
  /-- A surrogate without its partner. -/
  | lone (value : Nat)
  deriving DecidableEq, Repr

namespace Point

/-- Whether the unit is a surrogate without its partner. -/
def isLone : Point → Bool
  | char _ => false
  | lone _ => true

/-- The unit in a text without lone surrogates. -/
def plain : Point → List Char
  | char c => [c]
  | lone _ => []

/-- U+FFFD followed by four hexadecimal digits. -/
def mark (value : Nat) : List Char := '\ufffd' :: Text.padded 4 (Text.inBase 16 value)

/-- The unit in a text with lone surrogates. -/
def marked : Point → List Char
  | char c => if c = '\ufffd' then mark 0xfffd else [c]
  | lone value => mark value

/-- The text a list of units stands for. -/
def text (points : List Point) : String :=
  String.ofList (points.flatMap (if points.any isLone then marked else plain))

end Point

/-! ### Numbers in escapes -/

/-- The unit of a number of at most `0x10ffff`. -/
def pointOf (n : Nat) : Point :=
  if Text.isHighSurrogate n || Text.isLowSurrogate n then .lone n else .char (Char.ofNat n)

/-- A number in braces, with the length of digits and braces. -/
def readBraced (cs : List Char) : Option (Nat × Nat) :=
  let digits := cs.takeWhile (· ≠ '\x7d')
  if digits.length < cs.length then
    match Text.hexNumber? digits with
    | some n => if n ≤ 0x10ffff then some (n, digits.length + 2) else none
    | none => none
  else none

/-- What follows `\u`: a number in braces, four digits, or four digits twice that make a pair. -/
def readUnicode (cs : List Char) : Option (Point × Nat) :=
  match cs with
  | '\x7b' :: cs => (readBraced cs).map fun r => (pointOf r.1, r.2)
  | cs =>
    match Text.hexOf? 4 cs with
    | none => none
    | some high =>
      match cs.drop 4 with
      | '\\' :: 'u' :: more =>
        match Text.hexOf? 4 more with
        | some low =>
          if Text.isHighSurrogate high && Text.isLowSurrogate low then
            some (.char (Text.ofPair high low), 10)
          else some (pointOf high, 4)
        | none => some (pointOf high, 4)
      | _ => some (pointOf high, 4)

def isOctal (c : Char) : Bool := '0' ≤ c && c ≤ '7'

/-- At most three octal digits, of which the first is at most 3, or at most two. -/
def readOctal (cs : List Char) : Point × Nat :=
  let most := match cs with
    | c :: _ => if c ≤ '3' then 3 else 2
    | [] => 0
  let digits := (cs.take most).takeWhile isOctal
  (.char (Char.ofNat (Text.ofBase 8 digits)), digits.length)

/-! ### Escapes -/

/-- What an escape stands for and how many characters it has after its backslash. -/
def readEscape (cs : List Char) : Option (List Point × Nat) :=
  match cs with
  | [] => none
  | '\r' :: '\n' :: _ => some ([], 2)
  | '\n' :: _ => some ([], 1)
  | '\r' :: _ => some ([], 1)
  | '\u2028' :: _ => some ([], 1)
  | '\u2029' :: _ => some ([], 1)
  | 'b' :: _ => some ([.char '\x08'], 1)
  | 'f' :: _ => some ([.char '\x0c'], 1)
  | 'n' :: _ => some ([.char '\n'], 1)
  | 'r' :: _ => some ([.char '\r'], 1)
  | 't' :: _ => some ([.char '\t'], 1)
  | 'v' :: _ => some ([.char '\x0b'], 1)
  | 'x' :: cs => (Text.hexOf? 2 cs).map fun n => ([pointOf n], 3)
  | 'u' :: cs => (readUnicode cs).map fun r => ([r.1], r.2 + 1)
  | c :: cs =>
    if isOctal c then
      let r := readOctal (c :: cs)
      some ([r.1], r.2)
    else some ([.char c], 1)

/-! ### Literals -/

/-- The units up to the closing quote and the text after it.  A line feed or a carriage return
leaves the literal open. -/
def readQuoted (quote : Char) (cs : List Char) : Option (List Point × List Char) :=
  match cs with
  | [] => none
  | c :: cs =>
    if c = '\\' then
      match readEscape cs with
      | none => none
      | some (points, n) => (readQuoted quote (cs.drop n)).map fun r => (points ++ r.1, r.2)
    else if c = '\n' ∨ c = '\r' then none
    else if c = quote then some ([], cs)
    else (readQuoted quote cs).map fun r => (.char c :: r.1, r.2)
termination_by cs.length
decreasing_by
  all_goals simp only [List.length_cons, List.length_drop]
  all_goals omega

/-- A literal without escapes stands for its own characters. -/
theorem readQuoted_plain {quote : Char} {cs : List Char} (rest : List Char) (hq : quote ≠ '\\')
    (hn : quote ≠ '\n' ∧ quote ≠ '\r')
    (h : ∀ c ∈ cs, c ≠ '\\' ∧ c ≠ '\n' ∧ c ≠ '\r' ∧ c ≠ quote) :
    readQuoted quote (cs ++ quote :: rest) = some (cs.map Point.char, rest) := by
  induction cs with
  | nil => simp [readQuoted, hq, hn.1, hn.2]
  | cons c cs ih =>
    obtain ⟨h1, h2, h3, h4⟩ := h c (by simp)
    rw [List.cons_append, readQuoted]
    simp [h1, h2, h3, h4, ih fun c hc => h c (by simp [hc])]

end Script

end CssRune
