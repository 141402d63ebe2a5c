/-
**Selectors.**

A selector list holds complex selectors, a complex selector holds relative selectors (a combinator
and a compound), and a compound holds simple selectors.  Some pseudo-classes take a selector list
as their argument, which makes the type recursive.
-/

import CssRune.Span

set_option autoImplicit false

namespace CssRune

/-- How a compound relates to the one before it. -/
inductive CombinatorKind where
  | descendant
  | child
  | nextSibling
  | subsequentSibling
  | column
  deriving DecidableEq, Repr

/-- How a combinator is written; the descendant combinator is any blank. -/
def CombinatorKind.text : CombinatorKind → String
  | descendant => " "
  | child => ">"
  | nextSibling => "+"
  | subsequentSibling => "~"
  | column => "||"

/-- A combinator and where it is written. -/
structure Combinator where
  kind : CombinatorKind
  span : Span
  deriving DecidableEq, Repr

/-- A compound with the combinator in front of it. -/
structure RelativeOf (σ : Type) where
  combinator : Option Combinator
  selectors : List σ
  span : Span

/-- Compounds joined by combinators. -/
structure ComplexOf (σ : Type) where
  children : List (RelativeOf σ)
  span : Span

/-- Complex selectors separated by commas. -/
structure ListOf (σ : Type) where
  children : List (ComplexOf σ)
  span : Span

/-- The simple selectors that are no more than a name. -/
inductive NamedKind where
  | type
  | id
  | class_
  | attribute
  | pseudoElement
  deriving DecidableEq, Repr

/-- A simple selector. -/
inductive SimpleSelector where
  /-- A type, id, class, attribute or pseudo-element. -/
  | named (kind : NamedKind) (name : String) (span : Span)
  /-- A pseudo-class; the argument is kept when it is a selector list. -/
  | pseudoClass (name : String) (args : Option (ListOf SimpleSelector)) (span : Span)
  /-- The nesting selector `&`. -/
  | nesting (span : Span)

abbrev RelativeSelector := RelativeOf SimpleSelector
abbrev ComplexSelector := ComplexOf SimpleSelector
abbrev SelectorList := ListOf SimpleSelector

namespace SimpleSelector

def span : SimpleSelector → Span
  | named _ _ span => span
  | pseudoClass _ _ span => span
  | nesting span => span

end SimpleSelector

/-- The pseudo-class that exempts its argument from scoping. -/
def globalPseudoClass : String := "global"

end CssRune
