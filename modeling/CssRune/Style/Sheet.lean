/-
**Stylesheets.**

A stylesheet is a list of rules and at-rules; their blocks may hold rules, at-rules and
declarations.  Preludes of rules are selector lists; preludes of at-rules and values of
declarations are kept as ranges.
-/

import CssRune.Style.Selector

set_option autoImplicit false

namespace CssRune

/-- A property and the range of its value. -/
structure Declaration where
  property : String
  value : Span
  span : Span
  deriving DecidableEq, Repr

/-- What stands between braces. -/
structure BlockOf (ν : Type) where
  children : List ν
  span : Span

/-- A rule, an at-rule or a declaration. -/
inductive StyleNode where
  | rule (prelude : SelectorList) (block : BlockOf StyleNode) (span : Span)
  /-- An at-rule ends with a block or without one. -/
  | atRule (name : String) (prelude : Span) (block : Option (BlockOf StyleNode)) (span : Span)
  | declaration (d : Declaration)

abbrev StyleBlock := BlockOf StyleNode

def StyleNode.span : StyleNode → Span
  | rule _ _ span => span
  | atRule _ _ _ span => span
  | declaration d => d.span

/-- A stylesheet: `content` is the text that was read, `span` the element that holds it. -/
structure StyleSheet where
  children : List StyleNode
  content : Span
  span : Span

end CssRune
