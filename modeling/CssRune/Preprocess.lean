/-
**Preprocessing a component.**

A component is read, its references to classes are collected, the selectors of its stylesheet and
its rune calls are edited in one buffer, and the buffer is rendered.  Any fault ends the
work; a component without rune calls stays as it is.
-/

import CssRune.Component.Reader
import CssRune.Edit.Segments
import CssRune.Options
import CssRune.Rune.Literals
import CssRune.Rune.Selectors

set_option autoImplicit false

namespace CssRune

/-- Why a component is refused. -/
inductive PreprocessError where
  /-- It cannot be read. -/
  | parse (e : ParseError)
  /-- A rune is used wrongly. -/
  | rune (e : RuneError)
  /-- Two edits are in conflict. -/
  | internal (e : EditError)
  deriving DecidableEq, Repr

/-- A failure to apply runes as one of preprocessing. -/
def ApplyError.toPreprocess : ApplyError → PreprocessError
  | rune e => .rune e
  | edit e => .internal e

/-- What is said about a component that cannot be read. -/
def ParseError.report (e : ParseError) : String :=
  e.fault.message ++ s!" (at offset {e.offset})\n\nThe component failed to be parsed."

/-- What is said about a refused component. -/
def PreprocessError.message (filename source : String) : PreprocessError → String
  | parse e => e.report
  | rune e => Report.diagnostic filename source e.fault.message e.span (some e.fault.detail)
  | internal e => "internal error: " ++ e.message

/-- A component with its runes applied. -/
structure Preprocessed where
  code : String
  /-- Nothing when the component uses no rune. -/
  map : Option SourceMap
  names : ClassNames
  warnings : List String

/-- The first reserved class that a rune names is refused. -/
def refuseReserved (runes : ClassSet) : List String → Except RuneError Unit
  | [] => .ok ()
  | name :: rest =>
    match runes.get? name with
    | some span => .error ⟨.reservedClass name, span⟩
    | none => refuseReserved runes rest

/-- What applying runes to the stylesheet of a component depends on. -/
def Options.styleSetting (o : Options) (filename source : String) : StyleSetting :=
  ⟨o.hasher.hash (filename ++ source), filename, o.level.warnsSelectors, o.specific⟩

/-- Applies the runes of a component whose usage is known. -/
def applyRunes (options : Options) (filename : String) (component : Component) (usage : Usage) :
    Except ApplyError (EditBuffer × StyleState) := do
  if options.specific then ofRuneCheck (refuseReserved usage.runes reservedClasses)
  let style ← applyToStyle component usage (options.styleSetting filename component.source)
    (EditBuffer.ofSource component.source)
  let buffer ← applyToCalls component usage.runes style.names options.specific style.buffer
  return (buffer, style)

/-- Preprocesses a component. -/
def preprocess (scripts : ScriptReader) (options : Options) (filename source : String) :
    Except PreprocessError Preprocessed := do
  let component ← (Component.read scripts source).mapError .parse
  let usage ← component.usage.mapError .rune
  if usage.runes.isEmpty then return ⟨source, none, ClassNames.empty, []⟩
  let warnings :=
    if options.level.isEnabled then Report.mixedUse filename source usage.runes usage.natives
    else []
  let (buffer, style) ←
    (applyRunes options filename component usage).mapError ApplyError.toPreprocess
  return ⟨buffer.render, some (buffer.sourceMap filename), style.names, warnings ++ style.warnings⟩

end CssRune
