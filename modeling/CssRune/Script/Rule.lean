/-
**Rules of the script grammar.**

A rule reads tokens from a state and gives a value and the state after it.  A rule that does not
apply fails; a text that can be read on but is wrong only marks the state as faulty.  Rules that
look ahead or try one reading before another start from the same state again.

The rules call each other in circles.  They are therefore written against `Script.Rules`,
which gives for each `Script.Goal` the rule that reads it; the circle is closed in
`CssRune/Script/Grammar.lean`, with a bound on its depth.
-/

import CssRune.Script.Reader
import CssRune.Script.Token

set_option autoImplicit false

namespace CssRune

namespace Script

/-- What is allowed at a place of a script. -/
structure Context where
  /-- Whether `in` is an operator. -/
  operatorIn : Bool
  yields : Bool
  awaits : Bool
  returns : Bool
  /-- Whether declarations need no bodies and no values. -/
  ambient : Bool
  /-- Whether an opening bracket ends the expression of a decorator. -/
  decorating : Bool
  conditionalTypes : Bool
  deriving DecidableEq, Repr

/-- Where reading stands. -/
structure ReadState where
  lang : ScriptLang
  current : Lexeme
  /-- Where the token before the current one ended. -/
  previous : Nat
  faulty : Bool
  context : Context

abbrev Rule (α : Type) := StateT ReadState Option α

/-! ### The current token -/

def token : Rule Token := return (← get).current.token

/-- Where the current token starts. -/
def here : Rule Nat := return (← get).current.start.pos

def onNewLine : Rule Bool := return (← get).current.newline

def typed : Rule Bool := return (← get).lang == .typeScript

/-- What is allowed here. -/
def context : Rule Context := return (← get).context

/-- Marks the text as wrong without giving up. -/
def fault : Rule Unit := modify fun s => { s with faulty := true }

/-- Marks the text as wrong if the condition holds. -/
def faultIf (wrong : Bool) : Rule Unit := if wrong then fault else pure ()

def load (x : Lexeme) (s : ReadState) : ReadState :=
  { s with current := x, faulty := s.faulty || x.token == .invalid }

def advance : Rule Unit :=
  modify fun s => load (lex s.current.next) { s with previous := s.current.next.pos }

/-- Reads the current token anew. -/
def relex (f : Lexeme → Lexeme) : Rule Unit := modify fun s => load (f s.current) s

def isAt (sign : String) : Rule Bool := return (← token) == .sign sign

def isAtAny (signs : List String) : Rule Bool := do
  match ← token with
  | .sign s => return signs.contains s
  | _ => return false

/-- Moves past a sign if it is the current token. -/
def eat (sign : String) : Rule Bool := do
  if ← isAt sign then
    advance
    return true
  return false

/-- Moves past a sign that has to be the current token. -/
def expect (sign : String) : Rule Unit := do
  unless ← eat sign do failure

/-- The word of a token that is a name, and otherwise the empty text. -/
def Token.word : Token → String
  | .name text _ => text
  | _ => ""

/-- Whether the token is a word spelled with an escape. -/
def Token.isEscaped : Token → Bool
  | .name _ escaped => escaped
  | _ => false

/-- The word of the current token. -/
def word : Rule String := return (← token).word

def isAtWord (w : String) : Rule Bool := return (← word) == w

/-- Moves past a keyword; it may not be spelled with an escape. -/
def advanceWord : Rule Unit := do
  faultIf (← token).isEscaped
  advance

/-- Moves past a word if it is the current token. -/
def eatWord (w : String) : Rule Bool := do
  if ← isAtWord w then
    advanceWord
    return true
  return false

/-- Moves past a word that has to be the current token. -/
def expectWord (w : String) : Rule Unit := do
  unless ← eatWord w do failure

/-! ### Nodes -/

/-- A node from an offset to the end of the last token. -/
def finish (kind : Kind) (start : Nat) (children : List Node) : Rule Node :=
  return .mk kind ⟨start, (← get).previous⟩ children

def leaf (kind : Kind) : Rule Node := do
  let start ← here
  advance
  finish kind start []

/-! ### Trying and repeating -/

/-- Tries a rule; when it fails, nothing was read. -/
def attempt {α : Type} (p : Rule α) : Rule (Option α) := fun s =>
  match p s with
  | some (a, s) => some (some a, s)
  | none => some (none, s)

/-- Looks ahead with a rule; nothing is read. -/
def ahead {α : Type} (p : Rule α) : Rule (Option α) := fun s => some ((p s).map (·.1), s)

/-- Looks ahead with a test, which is false when it fails. -/
def foresees (p : Rule Bool) : Rule Bool := return (← ahead p).getD false

/-- Looks at the token after the current one. -/
def nextToken (f : Token → Bool → Bool) : Rule Bool :=
  foresees do
    advance
    return f (← token) (← onNewLine)

/-- Applies a rule where other things are allowed. -/
def within {α : Type} (f : Context → Context) (p : Rule α) : Rule α := do
  let outer ← context
  modify fun s => { s with context := f outer }
  let a ← p
  modify fun s => { s with context := outer }
  return a

/-- A number of repetitions that no reading of the remaining text exceeds. -/
def bound : Rule Nat := return (← get).current.start.length + 2

/-- Applies a rule until it gives nothing, at most a number of times. -/
def collectF {α : Type} (p : Rule (Option α)) : Nat → Rule (List α)
  | 0 => failure
  | n + 1 => do
      match ← p with
      | none => return []
      | some a => return a :: (← collectF p n)

/-- Applies a rule until it gives nothing. -/
def collect {α : Type} (p : Rule (Option α)) : Rule (List α) := do collectF p (← bound)

/-- Extends a value until nothing extends it, at most a number of times. -/
def iterateF {α : Type} (f : α → Rule (Option α)) : Nat → α → Rule α
  | 0, _ => failure
  | n + 1, a => do
      match ← f a with
      | none => return a
      | some b => iterateF f n b

/-- Extends a value until nothing extends it. -/
def iterate {α : Type} (f : α → Rule (Option α)) (a : α) : Rule α := do iterateF f (← bound) a

/-- Items with commas between them and perhaps after the last one, up to a closing sign, which is
not read: the items, and whether a comma ended them.  At most a number of items is read. -/
def commaListF {α : Type} (close : String) (item : Rule α) : Nat → Rule (List α × Bool)
  | 0 => failure
  | n + 1 => do
      if ← isAt close then return ([], true)
      let a ← item
      if ← eat "," then
        let r ← commaListF close item n
        return (a :: r.1, r.2)
      unless ← isAt close do failure
      return ([a], false)

/-- Items with commas between them and perhaps after the last one, up to a closing sign, which is
not read. -/
def commaList {α : Type} (close : String) (item : Rule α) : Rule (List α × Bool) := do
  commaListF close item (← bound)

/-- A list between two signs. -/
def bracketed {α : Type} (opening closing : String) (item : Rule α) : Rule (List α) := do
  expect opening
  let r ← commaList closing item
  expect closing
  return r.1

/-! ### Words and names -/

/-- Words that are never names of bindings. -/
def reservedWords : List String :=
  ["break", "case", "catch", "class", "const", "continue", "debugger", "default", "delete", "do",
    "else", "enum", "export", "extends", "false", "finally", "for", "function", "if", "import",
    "in", "instanceof", "new", "null", "return", "super", "switch", "this", "throw", "true", "try",
    "typeof", "var", "void", "while", "with"]

/-- Whether a token can name a binding. -/
def Token.isBinding : Token → Bool
  | .name text _ => !reservedWords.contains text
  | _ => false

/-- Whether a token can be the name of a property. -/
def Token.isPropertyName : Token → Bool
  | .name _ _ => true
  | .string _ => true
  | .number => true
  | .bigint => true
  | .privateName _ => true
  | _ => false

/-- The name of a binding or a reference to one. -/
def bindingName : Rule Node := do
  let t ← token
  unless t.isBinding do failure
  let c ← context
  faultIf (t.word == "await" && c.awaits || t.word == "yield" && c.yields)
  leaf (.identifier t.word)

/-- Any word, as a name of a property. -/
def labelName : Rule Node := do
  match ← token with
  | .name text _ => leaf (.label text)
  | _ => failure

def stringLiteral : Rule Node := do
  match ← token with
  | .string value => leaf (.string value)
  | _ => failure

/-- The end of a statement: a semicolon, or a place where one may be left out. -/
def endStatement : Rule Unit := do
  unless ← eat ";" do
    unless (← isAt "\x7d") || (← token) == .eof || (← onNewLine) do failure

/-! ### Recursion -/

/-- The points where the grammar is recursive. -/
inductive Goal where
  /-- An assignment or anything that binds tighter; without `arrowType` an arrow function has no
  type after its parameters unless a colon follows it. -/
  | assignment (arrowType : Bool)
  | expression
  /-- A binary expression whose operators bind tighter than `level`. -/
  | binary (level : Nat)
  | unary
  /-- An operand with its members and calls. -/
  | operand
  /-- The callee of `new`: an operand with its members. -/
  | callee
  | type
  | binding
  /-- A statement; `single` where a declaration is not allowed. -/
  | statement (single : Bool)

/-- For each goal the rule that reads it. -/
abbrev Rules := Goal → Rule Node

/-- An expression without a comma. -/
def Rules.value (r : Rules) : Rule Node := r (.assignment true)

/-- An expression without a comma in brackets, where `in` is an operator. -/
def Rules.inner (r : Rules) : Rule Node :=
  within (fun c => { c with operatorIn := true, decorating := false }) r.value

end Script

end CssRune
