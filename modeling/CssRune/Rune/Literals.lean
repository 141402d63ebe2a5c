/-
**Applying runes to their calls.**

Every rune call is replaced by a string literal of the hashed names of the classes it lists.  A rune
call inside another one disappears with it.
-/

import CssRune.Rune.ClassNames
import CssRune.Rune.ApplyError
import CssRune.Rune.Usage

set_option autoImplicit false

namespace CssRune

/-- The rune calls of a part of markup that are in no other one. -/
def MarkupPart.runeCalls : MarkupPart → List RuneCall
  | expression _ e => e.node.runeCalls e.offset
  | _ => []

/-- The rune calls of a component that are in no other one: those of the markup, then those of the
scripts. -/
def Component.runeCalls (c : Component) : List RuneCall := c.parts.flatMap MarkupPart.runeCalls

/-- The hashed names of a list of classes.  A class without one is reported where a rune named it
last. -/
def hashedNames (runes : ClassSet) (names : ClassNames) :
    List String → Except RuneError (List String)
  | [] => .ok []
  | name :: rest =>
    match names.get? name with
    | none => .error ⟨.undefinedClass name, (runes.get? name).getD ⟨0, 0⟩⟩
    | some hashed => do return hashed :: (← hashedNames runes names rest)

/-- The literal that replaces a call: the hashed names of the classes it lists, and the sentinel
class if they are to be more specific. -/
def literal (runes : ClassSet) (names : ClassNames) (specific : Bool) (classes : String) :
    Except RuneError String := do
  let hashed ← hashedNames runes names (Text.words classes.toList)
  let all := hashed ++ if specific then [sentinelClass] else []
  return "\"" ++ " ".intercalate all ++ "\""

/-- Replaces one call. -/
def applyToCall (runes : ClassSet) (names : ClassNames) (specific : Bool) (b : EditBuffer)
    (call : RuneCall) : Except ApplyError EditBuffer :=
  match call.classes with
  | .error fault => .error (.rune ⟨fault, call.span⟩)
  | .ok classes => do
      let text ← ofRuneCheck (literal runes names specific classes)
      ofEdit (b.overwrite call.span text)

/-- Replaces a list of calls. -/
def applyToAll (runes : ClassSet) (names : ClassNames) (specific : Bool) :
    EditBuffer → List RuneCall → Except ApplyError EditBuffer
  | b, [] => .ok b
  | b, call :: rest => do
      let b ← applyToCall runes names specific b call
      applyToAll runes names specific b rest

/-- Replaces all rune calls of a component. -/
def applyToCalls (component : Component) (runes : ClassSet) (names : ClassNames) (specific : Bool)
    (b : EditBuffer) : Except ApplyError EditBuffer :=
  applyToAll runes names specific b component.runeCalls

end CssRune
