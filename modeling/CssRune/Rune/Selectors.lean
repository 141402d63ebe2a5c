/-
**Applying runes to selectors.**

Every complex selector of a rule that names a class of a rune is replaced.  Where no class is used
both ways, its rune classes are wrapped in place; otherwise it is replaced by all its variants.
-/

import CssRune.Report.MixedUse
import CssRune.Rune.ClassNames
import CssRune.Rune.Placement
import CssRune.Rune.ApplyError
import CssRune.Rune.Usage
import CssRune.Rune.Variants
import CssRune.Style.Selector.Parts

set_option autoImplicit false

namespace CssRune

/-! ### Selectors of rules -/

/-- The complex selectors of a list, each with the range of the list. -/
def SelectorList.withList (l : SelectorList) : List (Span × ComplexSelector) :=
  l.children.map fun c => (l.span, c)

mutual

/-- The complex selectors of rules in a node, in source order, each with the range of its list. -/
def StyleNode.selectors : StyleNode → List (Span × ComplexSelector)
  | .rule prelude block _ => SelectorList.withList prelude ++ block.selectors
  | .atRule _ _ none _ => []
  | .atRule _ _ (some block) _ => block.selectors
  | .declaration _ => []
termination_by structural n => n

/-- The complex selectors of rules in a block. -/
def BlockOf.selectors : BlockOf StyleNode → List (Span × ComplexSelector)
  | ⟨children, _⟩ => selectorsOfNodes children
termination_by structural b => b

/-- The complex selectors of rules in a list of nodes. -/
def selectorsOfNodes : List StyleNode → List (Span × ComplexSelector)
  | [] => []
  | n :: ns => n.selectors ++ selectorsOfNodes ns
termination_by structural l => l

end

/-! ### Occurrences -/

/-- The occurrence of a simple selector.  Classes are placed by how the component refers to them,
types, ids and attributes are native, and all else does not count. -/
def occurrence? (usage : Usage) : SimpleSelector → Option Occurrence
  | .named .class_ name span => some ⟨name, span, usage.placement name, true⟩
  | .named .pseudoElement _ _ => none
  | .named _ name span => some ⟨name, span, .native, false⟩
  | _ => none

/-- The occurrences in a complex selector, except those in an argument that is global already. -/
def occurrences (usage : Usage) (c : ComplexSelector) : List Occurrence :=
  (c.parts (· != globalPseudoClass)).filterMap (occurrence? usage)

def runeOccurrences (os : List Occurrence) : List Occurrence := os.filter (·.placement.isRune)

/-! ### Replacing -/

/-- What applying runes to a stylesheet depends on. -/
structure StyleSetting where
  hash : String
  /-- The file that warnings name. -/
  filename : String
  /-- Whether selectors that combine both kinds of classes are warned about. -/
  warnsSelectors : Bool
  /-- Whether a sentinel class makes wrappers more specific. -/
  specific : Bool

/-- What every wrapper ends with. -/
def StyleSetting.suffix (s : StyleSetting) : String :=
  if s.specific then "." ++ sentinelClass else ""

/-- What has been done to a stylesheet so far. -/
structure StyleState where
  buffer : EditBuffer
  names : ClassNames
  warnings : List String

/-- The selector that an occurrence becomes. -/
def targetOf (hash : String) (o : Occurrence) : Target :=
  ⟨o.span, hashedName hash o.name, o.placement == .mixed⟩

/-- Whether a selector combines classes that are used both ways. -/
def combines (os : List Occurrence) : Bool :=
  os.any (fun o => o.isClass && o.placement == .native) ||
    (os.any (·.placement == .mixed) && 1 < os.length)

/-- What replaces a complex selector: wrappers in place, or all variants.  The number is that of the
variants. -/
def replacements (source : List Char) (c : ComplexSelector) (targets : List Target)
    (suffix : String) : Except RuneError (List Run × Option Nat) :=
  if targets.any (·.mixed) then do
    let vs ← variants source c.span targets suffix
    return ([⟨c.span, ", ".intercalate vs⟩], some vs.length)
  else .ok (wrappedRuns targets (targets.map fun _ => true) suffix, none)

/-- Puts the replacements into a buffer. -/
def overwriteAll (b : EditBuffer) : List Run → Except EditError EditBuffer
  | [] => .ok b
  | r :: rs => do
      let b ← b.overwrite r.span r.text
      overwriteAll b rs

/-- Replaces one complex selector; `list` is the range of the list it belongs to. -/
def applyToSelector (usage : Usage) (setting : StyleSetting) (source : String) (s : StyleState)
    (list : Span) (c : ComplexSelector) : Except ApplyError StyleState := do
  let os := occurrences usage c
  let runes := runeOccurrences os
  if runes.isEmpty then return s
  ofRuneCheck (checkPlacement os list)
  let names :=
    runes.foldl (fun names o => names.add o.name (hashedName setting.hash o.name)) s.names
  let (runs, count) ← ofRuneCheck
    (replacements source.toList c (runes.map (targetOf setting.hash)) setting.suffix)
  let warnings :=
    if setting.warnsSelectors && combines os then
      [Report.expandedSelector setting.filename source c.span count]
    else []
  let buffer ← ofEdit (overwriteAll s.buffer runs)
  return ⟨buffer, names, s.warnings ++ warnings⟩

/-- Replaces a list of complex selectors. -/
def applyToSelectors (usage : Usage) (setting : StyleSetting) (source : String) :
    StyleState → List (Span × ComplexSelector) → Except ApplyError StyleState
  | s, [] => .ok s
  | s, (list, c) :: rest => do
      let s ← applyToSelector usage setting source s list c
      applyToSelectors usage setting source s rest

/-- Replaces the selectors of the stylesheet of a component. -/
def applyToStyle (component : Component) (usage : Usage) (setting : StyleSetting)
    (buffer : EditBuffer) : Except ApplyError StyleState :=
  match component.style with
  | none => .ok ⟨buffer, ClassNames.empty, []⟩
  | some sheet =>
    applyToSelectors usage setting component.source ⟨buffer, ClassNames.empty, []⟩
      (selectorsOfNodes sheet.children)

end CssRune
