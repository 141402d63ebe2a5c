/-
**Markup.**

Markup is a list of nodes: elements with attributes and children, text, comments, expressions in
braces and block tags.  Blocks are kept flat: the tags that open, continue and close a block are
siblings.
-/

import CssRune.Script.Tree

set_option autoImplicit false

namespace CssRune

/-- An expression and the offset its text starts at; ranges in its tree are relative to that. -/
structure Expression where
  node : Script.Node
  offset : Nat

def Expression.span (e : Expression) : Span := e.node.span.shift e.offset

/-- An expression in braces; the range includes the braces. -/
structure ExpressionTag where
  expression : Expression
  span : Span

/-- A piece of text. -/
structure TextNode where
  data : String
  span : Span
  deriving DecidableEq, Repr

/-! ### Attributes -/

/-- A piece of the value of an attribute. -/
inductive ValueChunk where
  | text (t : TextNode)
  | expression (tag : ExpressionTag)

/-- The value of an attribute. -/
inductive AttributeValue where
  /-- The attribute has no value. -/
  | absent
  | expression (tag : ExpressionTag)
  /-- Text and expressions, with quotes around them or without. -/
  | chunks (cs : List ValueChunk)

/-- The value if it is a single piece of text. -/
def AttributeValue.staticText? : AttributeValue → Option TextNode
  | chunks [.text t] => some t
  | _ => none

/-- An attribute with a name. -/
structure Attribute where
  name : String
  value : AttributeValue
  span : Span

/-- An expression whose members are attributes. -/
structure SpreadAttribute where
  expression : Expression
  span : Span

/-- What a directive is for. -/
inductive DirectiveKind where
  | class_
  | style
  | on
  | bind
  | use
  | transition
  | in_
  | out
  | animate
  | let_
  deriving DecidableEq, Repr

/-- The kind of directive that starts with a word. -/
def DirectiveKind.ofWord? : String → Option DirectiveKind
  | "class" => some .class_
  | "style" => some .style
  | "on" => some .on
  | "bind" => some .bind
  | "use" => some .use
  | "transition" => some .transition
  | "in" => some .in_
  | "out" => some .out
  | "animate" => some .animate
  | "let" => some .let_
  | _ => none

/-- An attribute whose name starts with the word of a directive and a colon. -/
structure Directive where
  kind : DirectiveKind
  name : String
  modifiers : List String
  value : Option ExpressionTag
  span : Span

/-- What can stand in an opening tag. -/
inductive AttributeNode where
  | plain (a : Attribute)
  | spread (s : SpreadAttribute)
  | directive (d : Directive)

def AttributeNode.span : AttributeNode → Span
  | plain a => a.span
  | spread s => s.span
  | directive d => d.span

/-- The value of the first plain attribute with a name. -/
def attribute? (attributes : List AttributeNode) (name : String) : Option Attribute :=
  attributes.findSome? fun
    | .plain a => if a.name = name then some a else none
    | _ => none

/-! ### Nodes -/

/-- The flavour of a block tag, given by the sign after its brace. -/
inductive BlockKind where
  /-- `#` -/
  | opening
  /-- `:` -/
  | continuing
  /-- `/` -/
  | closing
  /-- `@` -/
  | special
  deriving DecidableEq, Repr

/-- The kind of block tag that a sign announces. -/
def BlockKind.ofSign? : Char → Option BlockKind
  | '#' => some .opening
  | ':' => some .continuing
  | '/' => some .closing
  | '@' => some .special
  | _ => none

/-- A tag of a block, or a special tag. -/
structure BlockTag where
  kind : BlockKind
  keyword : String
  expression : Option Expression
  span : Span

/-- A node of markup. -/
inductive MarkupNode where
  | element (name : String) (attributes : List AttributeNode) (children : List MarkupNode)
      (selfClosing : Bool) (span : Span)
  | text (t : TextNode)
  | comment (t : TextNode)
  | expression (tag : ExpressionTag)
  | block (tag : BlockTag)

/-- Where a node is written. -/
def MarkupNode.span : MarkupNode → Span
  | element _ _ _ _ span => span
  | text t => t.span
  | comment t => t.span
  | expression tag => tag.span
  | block tag => tag.span

/-- Whether an element's name is that of a component: it starts with a capital letter or has a
point. -/
def isComponentName (name : String) : Bool :=
  name.toList.head?.any Char.isUpper || name.toList.contains '.'

end CssRune
