/-
**Reading scripts.**

The rules of the grammar are tied together here.  Each round through the grammar uses one unit of
fuel; a text of `n` characters needs no more than a few rounds per character, so that the amount
computed from its length is enough for every text.
-/

import CssRune.Script.Grammar.Statements

set_option autoImplicit false

namespace CssRune

namespace Script

/-- One round through the grammar. -/
def step (r : Rules) : Rules
  | .assignment arrowType => assignmentRule r arrowType
  | .expression => expressionRule r
  | .binary level => binaryRule r level
  | .unary => unaryRule r
  | .operand => operandRule r
  | .callee => calleeRule r
  | .type => typeRule r
  | .binding => bindingTarget r
  | .statement single => statementRule r single

/-- The grammar with a bound on its depth. -/
def run : Nat → Rules
  | 0, _ => failure
  | n + 1, goal => step (run n) goal

/-- More rounds than a text needs. -/
def enoughRounds (text : List Char) : Nat := 8 * text.length + 64

/-- What is allowed at the top of a module. -/
def topContext : Context :=
  { operatorIn := true, yields := false, awaits := true, returns := false, ambient := false,
    decorating := false, conditionalTypes := true }

/-- Where reading starts. -/
def initialState (lang : ScriptLang) (text : List Char) : ReadState :=
  load (lex ⟨0, text⟩)
    { lang := lang, current := ⟨.eof, ⟨0, text⟩, ⟨0, text⟩, false⟩, previous := 0, faulty := false,
      context := topContext }

/-- The expression at the start of a text.  What follows it is left unread, except for the one
token after it. -/
def readExpression (lang : ScriptLang) (text : List Char) : Option Node :=
  match run (enoughRounds text) .expression (initialState lang text) with
  | some (e, s) => if s.faulty || e.hasStrayDefault then none else some e
  | none => none

/-! ### Whole scripts -/

/-- Whether a statement is nothing but a string. -/
def isDirective (n : Node) : Bool :=
  match n with
  | .mk .expressionStatement _ [.mk (.string _) _ _] => true
  | _ => false

/-- The text without a first line that names an interpreter. -/
def skipHashbang (text : List Char) : List Char :=
  match text with
  | '#' :: '!' :: rest => rest.dropWhile fun c => !isLineEnd c
  | text => text

/-- All statements of a script. -/
def programRule (r : Rules) : Rule (List Node) :=
  collect do
    if (← token) == .eof then return none
    return some (← r (.statement false))

/-- A text that is a whole script. -/
def readProgram (lang : ScriptLang) (text : List Char) : Option Program :=
  let start := (⟨0, text⟩ : Cursor).moveTo (skipHashbang text)
  let state := load (lex start) (initialState lang text)
  let state := { state with faulty := (lex start).token == .invalid }
  match programRule (run (enoughRounds text)) state with
  | some (body, s) =>
    if s.faulty || Node.anyStrayDefault body then none
    else some ⟨body.takeWhile isDirective, body.dropWhile isDirective⟩
  | none => none

end Script

/-- The reader given by the grammar. -/
def ScriptReader.grammar : ScriptReader := ⟨Script.readExpression, Script.readProgram⟩

end CssRune
