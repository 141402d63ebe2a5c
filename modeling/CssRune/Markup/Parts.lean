/-
**What markup says about classes.**

Of the markup of a component only few things refer to classes: the text in `class` attributes,
`class:` directives, and expressions.  They are listed here in source order, for each expression
with whether it belongs to the value of a `class` attribute.  The statements of scripts are listed
after them, as expressions that belong to no attribute.
-/

import CssRune.Component

set_option autoImplicit false

namespace CssRune

/-- A piece of markup that can refer to classes. -/
inductive MarkupPart where
  /-- Text in the value of a `class` attribute. -/
  | classText (t : TextNode)
  /-- A `class:` directive with the class it names. -/
  | toggle (name : String) (span : Span)
  /-- An expression; `inClass` when it belongs to the value of a `class` attribute. -/
  | expression (inClass : Bool) (e : Expression)

/-- The parts of a piece of a value. -/
def ValueChunk.parts (inClass : Bool) : ValueChunk → List MarkupPart
  | text t => if inClass then [.classText t] else []
  | expression tag => [.expression inClass tag.expression]

/-- The parts of a value. -/
def AttributeValue.parts (inClass : Bool) : AttributeValue → List MarkupPart
  | absent => []
  | expression tag => [.expression inClass tag.expression]
  | chunks cs => cs.flatMap (ValueChunk.parts inClass)

/-- The parts of an attribute. -/
def AttributeNode.parts : AttributeNode → List MarkupPart
  | plain a => a.value.parts (a.name == "class")
  | spread s => [.expression false s.expression]
  | directive d =>
    (if d.kind = .class_ then [.toggle d.name d.span] else []) ++
      d.value.toList.map fun tag => .expression false tag.expression

mutual

/-- The parts of a node, in source order. -/
def MarkupNode.parts : MarkupNode → List MarkupPart
  | .element _ attributes children _ _ =>
    attributes.flatMap AttributeNode.parts ++ partsOfNodes children
  | .text _ => []
  | .comment _ => []
  | .expression tag => [.expression false tag.expression]
  | .block tag => tag.expression.toList.map (.expression false)

def partsOfNodes : List MarkupNode → List MarkupPart
  | [] => []
  | n :: ns => n.parts ++ partsOfNodes ns

end

/-- The directives and statements of a script as expressions. -/
def ScriptBlock.parts (s : ScriptBlock) : List MarkupPart :=
  (s.program.directives ++ s.program.statements).map fun n => .expression false ⟨n, s.content.start⟩

/-- The parts of a component: those of its markup, then those of its scripts. -/
def Component.parts (c : Component) : List MarkupPart :=
  partsOfNodes c.fragment ++ c.scripts.flatMap ScriptBlock.parts

end CssRune
