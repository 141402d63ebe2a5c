/-
**Rune calls.**

A rune call is a call whose callee is the name of the rune.  It takes one string literal that lists
classes.
-/

import CssRune.Rune.Fault
import CssRune.Script.Tree

set_option autoImplicit false

namespace CssRune

namespace Script

namespace Node

/-- The text of the one argument a rune call takes. -/
def classList (arguments : List Node) : Except RuneFault String :=
  match arguments with
  | [mk (.string value) _ _] => .ok value
  | [mk .literal _ _] => .error .argumentType
  | _ => .error .argumentCount

/-- The classes a rune call lists or what is wrong with it; nothing if the node is no rune call. -/
def calledClasses? : Node → Option (Except RuneFault String)
  | mk (.call count) _ (callee :: rest) =>
    if callee.kind = .identifier runeName then
      some (classList (rest.drop (rest.length - count)))
    else none
  | _ => none

end Node

end Script

/-- A rune call: where it stands in the component, and the classes it lists or what is wrong with
it. -/
structure RuneCall where
  span : Span
  classes : Except RuneFault String

namespace Script

namespace Node

mutual

/-- The rune calls of a tree that are in no other one, in source order.  The text of the tree starts
at `offset`. -/
def runeCalls (offset : Nat) : Node → List RuneCall
  | mk kind span children =>
    match (mk kind span children).calledClasses? with
    | some classes => [⟨span.shift offset, classes⟩]
    | none => runeCallsOfAll offset children

/-- The rune calls of a list of trees that are in no other one. -/
def runeCallsOfAll (offset : Nat) : List Node → List RuneCall
  | [] => []
  | n :: ns => n.runeCalls offset ++ runeCallsOfAll offset ns

end

end Node

end Script

end CssRune
