/-
**Trees of scripts.**

Only a part of what a script says matters here: its calls, its object literals and its string
literals, and where they stand.  A tree therefore has one kind of node with a list of children in
source order; the kinds that carry meaning are told apart, and so are those on which the grammar
itself depends.  Ranges are relative to the text that was read.
-/

import CssRune.Span

set_option autoImplicit false

namespace CssRune

namespace Script

/-- How a property of an object literal is written. -/
inductive PropertyForm where
  /-- A key, a colon and a value. -/
  | pair
  /-- A name that is key and value in one. -/
  | shorthand
  /-- A method, a getter or a setter. -/
  | method
  deriving DecidableEq, Repr

/-- What a node is. -/
inductive Kind where
  /-- A name that refers to a binding. -/
  | identifier (name : String)
  /-- A name that is a property key. -/
  | label (name : String)
  | string (value : String)
  /-- A number, a truth value, `null` or a regular expression. -/
  | literal
  | array
  | object
  /-- A property; its children are its key and its value. -/
  | property (form : PropertyForm) (computed : Bool)
  /-- A shorthand property with a default, which only a pattern can have. -/
  | shorthandDefault
  | spread
  /-- A missing element of an array. -/
  | hole
  | paren
  /-- A member of an object, named or computed. -/
  | member
  /-- A call; its children are the callee, type arguments, and `arguments` arguments. -/
  | call (arguments : Nat)
  /-- An optional chain. -/
  | chain
  /-- An assignment with `=`. -/
  | assignment
  /-- `??` when `coalescing`, otherwise `&&` or `||`. -/
  | logical (coalescing : Bool)
  | unary
  | await
  /-- An expression followed by a claim on its type. -/
  | assertion
  /-- An expression after a type in angle brackets. -/
  | cast
  /-- An expression with type arguments. -/
  | instantiation
  /-- An expression that is a statement. -/
  | expressionStatement
  | other
  deriving DecidableEq, Repr

inductive Node where
  | mk (kind : Kind) (span : Span) (children : List Node)

namespace Node

def kind : Node → Kind
  | mk kind _ _ => kind

def span : Node → Span
  | mk _ span _ => span

/-- The parts of a node, in source order. -/
def children : Node → List Node
  | mk _ _ children => children

/-- Whether a node refers to a binding by name. -/
def isIdentifier (n : Node) : Bool :=
  match n.kind with
  | .identifier _ => true
  | _ => false

end Node

structure Program where
  directives : List Node
  statements : List Node

end Script

end CssRune
