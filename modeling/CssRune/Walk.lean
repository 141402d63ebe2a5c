/-
**Walking over components.**

A walk shows the sites of a component to a visitor, each site before what it holds.  Every node of
the two trees is a site, from a whole fragment down to an expression and from a whole stylesheet
down to a simple selector.  The visitor gets a site with the state that was passed down to it, and
answers with the state for what the site holds, or with nothing if that is to be left out.
-/

import CssRune.Component

set_option autoImplicit false

namespace CssRune

/-- The kinds of sites. -/
inductive SiteKind where
  | fragment
  | node
  | element
  | plainAttribute
  | spread
  | directive
  | text
  | comment
  | expressionTag
  | blockTag
  | expression
  | stylesheet
  | styleNode
  | rule
  | atRule
  | block
  | declaration
  | selectorList
  | complexSelector
  | relativeSelector
  | selector
  deriving DecidableEq, Repr

/-- What a visitor is shown.  A node of markup or of a stylesheet is shown as such and then as what
it is. -/
inductive Site where
  | fragment (nodes : List MarkupNode)
  | node (n : MarkupNode)
  | element (name : String) (attributes : List AttributeNode) (children : List MarkupNode)
      (selfClosing : Bool) (span : Span)
  | plainAttribute (a : Attribute)
  | spread (a : SpreadAttribute)
  | directive (d : Directive)
  | text (t : TextNode)
  | comment (t : TextNode)
  | expressionTag (tag : ExpressionTag)
  | blockTag (tag : BlockTag)
  | expression (e : Expression)
  | stylesheet (sheet : StyleSheet)
  | styleNode (n : StyleNode)
  | rule (prelude : SelectorList) (block : StyleBlock) (span : Span)
  | atRule (name : String) (prelude : Span) (block : Option StyleBlock) (span : Span)
  | block (b : StyleBlock)
  | declaration (d : Declaration)
  | selectorList (l : SelectorList)
  | complexSelector (c : ComplexSelector)
  | relativeSelector (r : RelativeSelector)
  | selector (x : SimpleSelector)

namespace Site

/-- What kind of site it is. -/
def kind : Site → SiteKind
  | .fragment _ => .fragment
  | .node _ => .node
  | .element _ _ _ _ _ => .element
  | .plainAttribute _ => .plainAttribute
  | .spread _ => .spread
  | .directive _ => .directive
  | .text _ => .text
  | .comment _ => .comment
  | .expressionTag _ => .expressionTag
  | .blockTag _ => .blockTag
  | .expression _ => .expression
  | .stylesheet _ => .stylesheet
  | .styleNode _ => .styleNode
  | .rule _ _ _ => .rule
  | .atRule _ _ _ _ => .atRule
  | .block _ => .block
  | .declaration _ => .declaration
  | .selectorList _ => .selectorList
  | .complexSelector _ => .complexSelector
  | .relativeSelector _ => .relativeSelector
  | .selector _ => .selector

/-- Where a site is written.  A fragment has no range; that of an expression is the empty one where
its text starts. -/
def span : Site → Option Span
  | .fragment _ => none
  | .node n => some n.span
  | .element _ _ _ _ span => some span
  | .plainAttribute a => some a.span
  | .spread a => some a.span
  | .directive d => some d.span
  | .text t => some t.span
  | .comment t => some t.span
  | .expressionTag tag => some tag.span
  | .blockTag tag => some tag.span
  | .expression e => some ⟨e.offset, e.offset⟩
  | .stylesheet sheet => some sheet.span
  | .styleNode n => some n.span
  | .rule _ _ span => some span
  | .atRule _ _ _ span => some span
  | .block b => some b.span
  | .declaration d => some d.span
  | .selectorList l => some l.span
  | .complexSelector c => some c.span
  | .relativeSelector r => some r.span
  | .selector x => some x.span

end Site

/-- A visitor: from the state passed down to it and a site, the state for what the site holds, or
nothing if that is left out. -/
abbrev Visitor (m : Type → Type) (σ : Type) := σ → Site → m (Option σ)

section

variable {m : Type → Type} [Monad m] {σ : Type}

/-- Shows a site and, unless it is left out, walks over what it holds. -/
def walkInto (visit : Visitor m σ) (s : σ) (site : Site) (inside : σ → m Unit) : m Unit := do
  match ← visit s site with
  | some s => inside s
  | none => pure ()

def walkLeaf (visit : Visitor m σ) (s : σ) (site : Site) : m Unit :=
  walkInto visit s site fun _ => pure ()

def walkAll {α : Type} (walk : α → m Unit) : List α → m Unit
  | [] => pure ()
  | a :: as => do
      walk a
      walkAll walk as

/-! ### Markup -/

/-- Shows an expression; its tree is not walked. -/
def walkExpression (visit : Visitor m σ) (s : σ) (e : Expression) : m Unit :=
  walkLeaf visit s (.expression e)

/-- Walks over an expression in braces. -/
def walkExpressionTag (visit : Visitor m σ) (s : σ) (tag : ExpressionTag) : m Unit :=
  walkInto visit s (.expressionTag tag) fun s => walkExpression visit s tag.expression

/-- Walks over a piece of a value. -/
def walkChunk (visit : Visitor m σ) (s : σ) : ValueChunk → m Unit
  | .text t => walkLeaf visit s (.text t)
  | .expression tag => walkExpressionTag visit s tag

/-- Walks over a value. -/
def walkValue (visit : Visitor m σ) (s : σ) : AttributeValue → m Unit
  | .absent => pure ()
  | .expression tag => walkExpressionTag visit s tag
  | .chunks cs => walkAll (walkChunk visit s) cs

/-- Walks over an attribute. -/
def walkAttributeNode (visit : Visitor m σ) (s : σ) : AttributeNode → m Unit
  | .plain a => walkInto visit s (.plainAttribute a) fun s => walkValue visit s a.value
  | .spread a => walkInto visit s (.spread a) fun s => walkExpression visit s a.expression
  | .directive d =>
    walkInto visit s (.directive d) fun s => walkAll (walkExpressionTag visit s) d.value.toList

/-- Walks over a block tag. -/
def walkBlockTag (visit : Visitor m σ) (s : σ) (tag : BlockTag) : m Unit :=
  walkInto visit s (.blockTag tag) fun s => walkAll (walkExpression visit s) tag.expression.toList

mutual

/-- Walks over a node. -/
def walkMarkupNode (visit : Visitor m σ) (s : σ) : MarkupNode → m Unit
  | .element name attributes children selfClosing span =>
    walkInto visit s (.node (.element name attributes children selfClosing span)) fun s =>
      walkInto visit s (.element name attributes children selfClosing span) fun s => do
        walkAll (walkAttributeNode visit s) attributes
        walkInto visit s (.fragment children) fun s => walkMarkupNodes visit s children
  | .text t => walkInto visit s (.node (.text t)) fun s => walkLeaf visit s (.text t)
  | .comment t => walkInto visit s (.node (.comment t)) fun s => walkLeaf visit s (.comment t)
  | .expression tag =>
    walkInto visit s (.node (.expression tag)) fun s => walkExpressionTag visit s tag
  | .block tag => walkInto visit s (.node (.block tag)) fun s => walkBlockTag visit s tag
termination_by structural n => n

/-- Walks over a list of nodes. -/
def walkMarkupNodes (visit : Visitor m σ) (s : σ) : List MarkupNode → m Unit
  | [] => pure ()
  | n :: ns => do
      walkMarkupNode visit s n
      walkMarkupNodes visit s ns
termination_by structural l => l

end

/-- Walks over the markup of a component. -/
def walkMarkup (visit : Visitor m σ) (s : σ) (nodes : List MarkupNode) : m Unit :=
  walkInto visit s (.fragment nodes) fun s => walkMarkupNodes visit s nodes

/-! ### Stylesheets -/

mutual

/-- Walks over a simple selector and its argument. -/
def walkSimple (visit : Visitor m σ) (s : σ) : SimpleSelector → m Unit
  | .named kind name span => walkLeaf visit s (.selector (.named kind name span))
  | .nesting span => walkLeaf visit s (.selector (.nesting span))
  | .pseudoClass name none span => walkLeaf visit s (.selector (.pseudoClass name none span))
  | .pseudoClass name (some args) span =>
    walkInto visit s (.selector (.pseudoClass name (some args) span)) fun s =>
      walkList visit s args
termination_by structural x => x

/-- Walks over a selector list. -/
def walkList (visit : Visitor m σ) (s : σ) : ListOf SimpleSelector → m Unit
  | ⟨children, span⟩ =>
    walkInto visit s (.selectorList ⟨children, span⟩) fun s => walkComplexes visit s children
termination_by structural x => x

/-- Walks over complex selectors. -/
def walkComplexes (visit : Visitor m σ) (s : σ) : List (ComplexOf SimpleSelector) → m Unit
  | [] => pure ()
  | c :: cs => do
      walkComplex visit s c
      walkComplexes visit s cs
termination_by structural x => x

/-- Walks over a complex selector. -/
def walkComplex (visit : Visitor m σ) (s : σ) : ComplexOf SimpleSelector → m Unit
  | ⟨children, span⟩ =>
    walkInto visit s (.complexSelector ⟨children, span⟩) fun s => walkRelatives visit s children
termination_by structural x => x

/-- Walks over relative selectors. -/
def walkRelatives (visit : Visitor m σ) (s : σ) : List (RelativeOf SimpleSelector) → m Unit
  | [] => pure ()
  | r :: rs => do
      walkRelative visit s r
      walkRelatives visit s rs
termination_by structural x => x

/-- Walks over a relative selector. -/
def walkRelative (visit : Visitor m σ) (s : σ) : RelativeOf SimpleSelector → m Unit
  | ⟨combinator, selectors, span⟩ =>
    walkInto visit s (.relativeSelector ⟨combinator, selectors, span⟩) fun s =>
      walkSimples visit s selectors
termination_by structural x => x

/-- Walks over simple selectors. -/
def walkSimples (visit : Visitor m σ) (s : σ) : List SimpleSelector → m Unit
  | [] => pure ()
  | x :: xs => do
      walkSimple visit s x
      walkSimples visit s xs
termination_by structural x => x

end

mutual

/-- Walks over a node of a stylesheet. -/
def walkStyleNode (visit : Visitor m σ) (s : σ) : StyleNode → m Unit
  | .rule prelude block span =>
    walkInto visit s (.styleNode (.rule prelude block span)) fun s =>
      walkInto visit s (.rule prelude block span) fun s => do
        walkList visit s prelude
        walkBlock visit s block
  | .atRule name prelude none span =>
    walkInto visit s (.styleNode (.atRule name prelude none span)) fun s =>
      walkLeaf visit s (.atRule name prelude none span)
  | .atRule name prelude (some block) span =>
    walkInto visit s (.styleNode (.atRule name prelude (some block) span)) fun s =>
      walkInto visit s (.atRule name prelude (some block) span) fun s => walkBlock visit s block
  | .declaration d =>
    walkInto visit s (.styleNode (.declaration d)) fun s => walkLeaf visit s (.declaration d)
termination_by structural x => x

/-- Walks over a block. -/
def walkBlock (visit : Visitor m σ) (s : σ) : BlockOf StyleNode → m Unit
  | ⟨children, span⟩ =>
    walkInto visit s (.block ⟨children, span⟩) fun s => walkStyleNodes visit s children
termination_by structural x => x

/-- Walks over a list of nodes of a stylesheet. -/
def walkStyleNodes (visit : Visitor m σ) (s : σ) : List StyleNode → m Unit
  | [] => pure ()
  | n :: ns => do
      walkStyleNode visit s n
      walkStyleNodes visit s ns
termination_by structural x => x

end

/-- Walks over a stylesheet. -/
def walkStyleSheet (visit : Visitor m σ) (s : σ) (sheet : StyleSheet) : m Unit :=
  walkInto visit s (.stylesheet sheet) fun s => walkStyleNodes visit s sheet.children

end

/-! ### Logs -/

/-- A site in a log, with the state that was passed down to it. -/
structure WalkEvent (σ : Type) where
  site : Site
  state : σ

/-- Walks that keep a log and may fail. -/
abbrev Logging (ε σ : Type) := ExceptT ε (StateM (List (WalkEvent σ)))

/-- What a log is about: the kinds of sites that are logged, and the state that such a site passes
down. -/
structure LogRules (σ : Type) where
  logs : SiteKind → Bool
  pass : σ → Site → σ

namespace LogRules

variable {ε σ : Type}

/-- The state for what a site holds: a site that is not logged passes down the state it has. -/
def down (rules : LogRules σ) (s : σ) (site : Site) : σ :=
  if rules.logs site.kind then rules.pass s site else s

/-- The visitor that logs sites by some rules.  It leaves out what sites of some kinds hold, and it
fails over an event instead of logging it when the log has `limit` events. -/
def visitor (rules : LogRules σ) (prunes : SiteKind → Bool) (limit : Option Nat)
    (fault : WalkEvent σ → ε) : Visitor (Logging ε σ) σ :=
  fun s site => do
    if rules.logs site.kind then
      let log ← get
      if limit.any (· ≤ log.length) then throw (fault ⟨site, s⟩)
      set (log ++ [⟨site, s⟩])
    return if prunes site.kind then none else some (rules.down s site)

end LogRules

/-- The kinds of sites that a report lists: those that say something by themselves. -/
def SiteKind.isReported : SiteKind → Bool
  | .fragment | .element | .plainAttribute | .directive | .text | .comment | .expression => true
  | .rule | .declaration | .selector => true
  | _ => false

/-- The rules of a report: sites are listed with the number of listed sites around them. -/
def reportRules : LogRules Nat where
  logs := SiteKind.isReported
  pass depth _ := depth + 1

/-- What a walk with a log did: the log, and whether each of the two walks came to its end. -/
structure WalkReport where
  events : List (WalkEvent Nat)
  markupDone : Bool
  styleDone : Bool

def isDone : Except Unit Unit → Bool
  | .ok _ => true
  | .error _ => false

/-- Walks over the markup and then over the stylesheet with one log; the second walk starts even if
the first was stopped. -/
def Component.walk (c : Component) (pruned : List SiteKind) (limit : Option Nat) : WalkReport :=
  let visit := reportRules.visitor pruned.contains limit fun _ => ()
  let (markup, log) := (walkMarkup visit 0 c.fragment).run.run []
  let (style, log) := (walkAll (walkStyleSheet visit 0) c.style.toList).run.run log
  ⟨log, isDone markup, isDone style⟩

end CssRune
