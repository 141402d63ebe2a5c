/-
**Assignment targets.**

What stands before an assignment is first read as an expression.  Whether it can be assigned to, and
what it is as a pattern, is decided afterwards.
-/

import CssRune.Script.Tree

set_option autoImplicit false

namespace CssRune

namespace Script

namespace Node

/-- Whether an expression is a name or a member, perhaps in parentheses or with a type. -/
def isSimpleTarget : Node → Bool
  | mk (.identifier _) _ _ => true
  | mk .member _ _ => true
  | mk .paren _ [e] => e.isSimpleTarget
  | mk .assertion _ (e :: _) => e.isSimpleTarget
  | mk .cast _ [_, e] => e.isSimpleTarget
  | _ => false

mutual

/-- An expression as a target of `=`. -/
def asTarget? : Node → Option Node
  | mk .array span items => (asElements? items).map (mk .other span)
  | mk .object span items => (asProperties? items).map (mk .other span)
  | n => if n.isSimpleTarget then some n else none

/-- An element of a pattern, perhaps with a default. -/
def asElement? : Node → Option Node
  | mk .assignment span children => some (mk .assignment span children)
  | mk .array span items => (asElements? items).map (mk .other span)
  | mk .object span items => (asProperties? items).map (mk .other span)
  | n => if n.isSimpleTarget then some n else none

/-- The elements of an array pattern; what takes the rest is the last. -/
def asElements? : List Node → Option (List Node)
  | [] => some []
  | [mk .spread span [e]] => e.asTarget?.map fun t => [mk .other span [t]]
  | mk .hole span children :: items => (asElements? items).map (mk .hole span children :: ·)
  | n :: items =>
    match n.asElement?, asElements? items with
    | some t, some ts => some (t :: ts)
    | _, _ => none

/-- The properties of an object pattern; what takes the rest is the last. -/
def asProperties? : List Node → Option (List Node)
  | [] => some []
  | [mk .spread span [e]] => if e.isSimpleTarget then some [mk .other span [e]] else none
  | mk (.property .pair _) span [key, value] :: items =>
    match value.asElement?, asProperties? items with
    | some t, some ts => some (mk .other span [key, t] :: ts)
    | _, _ => none
  | mk (.property .shorthand _) span children :: items =>
    (asProperties? items).map (mk .other span children :: ·)
  | mk .shorthandDefault span children :: items =>
    (asProperties? items).map (mk .other span children :: ·)
  | _ => none

end

mutual

/-- Whether an object literal in the tree has a default that only a pattern can have. -/
def hasStrayDefault : Node → Bool
  | mk kind _ children => kind == .shorthandDefault || anyStrayDefault children

/-- Whether one of the trees has such a default. -/
def anyStrayDefault : List Node → Bool
  | [] => false
  | n :: ns => n.hasStrayDefault || anyStrayDefault ns

end

end Node

end Script

end CssRune
