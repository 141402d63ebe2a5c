/-
**Which classes a component refers to.**

A component refers to a class through a rune call, or natively: by text in a `class` attribute, by a
`class:` directive, or by a string or an object key in an expression that belongs to a `class`
attribute.  Inside rune calls and inside object literals nothing is native.
-/

import CssRune.Markup.Parts
import CssRune.Rune.Call
import CssRune.Rune.ClassSet
import CssRune.Text.Words

set_option autoImplicit false

namespace CssRune

/-- A class that is referred to, and where. -/
inductive Reference where
  | rune (name : String) (span : Span)
  | native (name : String) (span : Span)
  deriving DecidableEq, Repr

/-- The native references of the words of a text, all at one place. -/
def nativeWords (text : String) (span : Span) : List Reference :=
  (Text.words text.toList).map fun name => .native name span

namespace Script

namespace Node

/-- The classes that the key of a property names: a name itself, or the words of a string. -/
def keyReferences (offset : Nat) : Node → List Reference
  | mk (.property _ false) _ (key :: _) =>
    match key.kind with
    | .label name => [.native name (key.span.shift offset)]
    | .string value => nativeWords value (key.span.shift offset)
    | _ => []
  | _ => []

mutual

/-- The references of a tree, in source order; the text of the tree starts at `offset`.  `inClass`
tells whether strings and keys count. -/
def references (offset : Nat) (inClass : Bool) : Node → Except RuneError (List Reference)
  | mk kind span children =>
    match (mk kind span children).calledClasses? with
    | some (.error fault) => .error ⟨fault, span.shift offset⟩
    | some (.ok classes) => do
        let names := (Text.words classes.toList).map fun name =>
          Reference.rune name (span.shift offset)
        return names ++ (← referencesOfAll offset false children)
    | none =>
      match kind with
      | .object => do
          let keys := if inClass then children.flatMap (keyReferences offset) else []
          return keys ++ (← referencesOfAll offset false children)
      | .string value => do
          let words := if inClass then nativeWords value (span.shift offset) else []
          return words ++ (← referencesOfAll offset inClass children)
      | _ => referencesOfAll offset inClass children

/-- The references of a list of trees. -/
def referencesOfAll (offset : Nat) (inClass : Bool) :
    List Node → Except RuneError (List Reference)
  | [] => .ok []
  | n :: ns => do
      let first ← n.references offset inClass
      return first ++ (← referencesOfAll offset inClass ns)

end

end Node

end Script

/-- The references of a part of markup. -/
def MarkupPart.references : MarkupPart → Except RuneError (List Reference)
  | classText t =>
    .ok ((Text.wordSpans t.span.start t.data.toList).map fun w => .native w.1 w.2)
  | toggle name span => .ok [.native name span]
  | expression inClass e => e.node.references e.offset inClass

/-- The references of a list of parts; the first fault among them wins. -/
def referencesOfParts : List MarkupPart → Except RuneError (List Reference)
  | [] => .ok []
  | p :: ps => do
      let first ← p.references
      return first ++ (← referencesOfParts ps)

/-- The classes named by runes and those used natively. -/
structure Usage where
  runes : ClassSet
  natives : ClassSet

/-- Records a reference. -/
def Usage.add (u : Usage) : Reference → Usage
  | .rune name span => { u with runes := u.runes.insert name span }
  | .native name span => { u with natives := u.natives.insert name span }

/-- The usage that a list of references makes up. -/
def Usage.ofReferences (references : List Reference) : Usage :=
  references.foldl Usage.add ⟨ClassSet.empty, ClassSet.empty⟩

/-- How a component refers to classes. -/
def Component.usage (c : Component) : Except RuneError Usage :=
  (referencesOfParts c.parts).map Usage.ofReferences

/-- How the usage places a class. -/
def Usage.placement (u : Usage) (name : String) : Placement :=
  if u.runes.contains name then if u.natives.contains name then .mixed else .rune else .native

end CssRune
