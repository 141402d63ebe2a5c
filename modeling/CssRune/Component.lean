/-
**Components.**

A component is markup with at most one script for each instance, one for the module and one
stylesheet.
-/

import CssRune.Markup.Tree
import CssRune.Script.Reader
import CssRune.Style.Sheet

set_option autoImplicit false

namespace CssRune

/-- When a script runs. -/
inductive ScriptContext where
  /-- For each instance of the component. -/
  | instance_
  /-- Once for the module. -/
  | module_
  deriving DecidableEq, Repr

/-- A script element: `content` is the range of the script, `span` that of the element.  Ranges in
the program are relative to the content. -/
structure ScriptBlock where
  context : ScriptContext
  lang : ScriptLang
  program : Script.Program
  content : Span
  span : Span

/-- Where the statements of a script stand in the component. -/
def ScriptBlock.statementSpans (s : ScriptBlock) : List Span :=
  s.program.statements.map fun n => n.span.shift s.content.start

/-- A component. -/
structure Component where
  source : String
  fragment : List MarkupNode
  instanceScript : Option ScriptBlock
  moduleScript : Option ScriptBlock
  style : Option StyleSheet

/-- The scripts of a component, that of the instances first. -/
def Component.scripts (c : Component) : List ScriptBlock :=
  c.instanceScript.toList ++ c.moduleScript.toList

end CssRune
