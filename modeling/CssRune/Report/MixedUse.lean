/-
**Warnings about classes used both ways.**
-/

import CssRune.Report.Excerpt
import CssRune.Rune.ClassSet

set_option autoImplicit false

namespace CssRune

namespace Report

/-- The warning for one class: where a rune names it and where it is used natively. -/
def mixedUseWarning (filename content name : String) (rune used : Span) : String :=
  let runeExcerpt := excerpt filename content rune 3
  let usedExcerpt := excerpt "" content used 3
  s!"[css rune]: The class \"{name}\" is used directly and with the $css rune. "
    ++ "Consider using the $css rune for all classes.\n\n"
    ++ runeExcerpt.text ++ runeExcerpt.caption "used with $css rune" ++ "\n"
    ++ usedExcerpt.text ++ usedExcerpt.caption "used without $css rune" ++ "\n\n"
    ++ "You can suppress this warning by setting the `mixedUseWarnings` option to `false`.\n\n"

/-- One warning per class that is named by a rune and used natively, in the order of the rune
references. -/
def mixedUse (filename content : String) (runes used : ClassSet) : List String :=
  runes.sorted.filterMap fun entry =>
    (used.get? entry.1).map fun span => mixedUseWarning filename content entry.1 entry.2 span

/-- The warning for a complex selector that combines classes used both ways; `expanded` is the
number of selectors it was expanded into. -/
def expandedSelector (filename content : String) (span : Span) (expanded : Option Nat) : String :=
  let selector := String.ofList (Text.slice content.toList span)
  let expansion := match expanded with
    | some count => s!" It was expanded into {count} selectors to match both usages."
    | none => ""
  s!"[css rune]: The selector \"{selector}\" combines classes used with and without the $css rune."
    ++ expansion ++ "\n\n" ++ (excerpt filename content span 3).text ++ "\n\n"
    ++ "You can suppress this warning by setting the `mixedUseWarnings` option to "
    ++ "`\"use\"` or `false`.\n"

end Report

end CssRune
