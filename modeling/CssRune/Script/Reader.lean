/-
**Readers of scripts.**

Components hold expressions and scripts.  What the library needs of a reader for them is little: an
expression at the start of a text, and a whole script.  It is stated here as a structure, so that
everything built on it can be reasoned about for any reader; the reader that is used is
`ScriptReader.grammar`.
-/

import CssRune.Script.Tree

set_option autoImplicit false

namespace CssRune

/-- The languages of scripts. -/
inductive ScriptLang where
  | javaScript
  | typeScript
  deriving DecidableEq, Repr

/-- A reader of expressions and scripts; ranges are relative to the text that is read. -/
structure ScriptReader where
  /-- The expression at the start of a text. -/
  expression : ScriptLang → List Char → Option Script.Node
  /-- A text that is a whole script. -/
  program : ScriptLang → List Char → Option Script.Program

end CssRune
