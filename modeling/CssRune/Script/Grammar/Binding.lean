/-
**Bindings: patterns and parameters.**
-/

import CssRune.Script.Rule

set_option autoImplicit false

namespace CssRune

namespace Script

/-- The key of a property, and whether it is computed. -/
def propertyName (r : Rules) : Rule (Node × Bool) := do
  match ← token with
  | .name text _ => return (← leaf (.label text), false)
  | .string value => return (← leaf (.string value), false)
  | .number => return (← leaf .literal, false)
  | .bigint => return (← leaf .literal, false)
  | .sign "[" =>
    advance
    let key ← r.inner
    expect "]"
    return (key, true)
  | _ => failure

/-- A type after a colon, where types are allowed. -/
def typeAnnotation (r : Rules) : Rule (List Node) := do
  if (← typed) && (← isAt ":") then
    advance
    return [← within (fun c => { c with conditionalTypes := true }) (r .type)]
  return []

/-- A default after an equals sign. -/
def defaultValue (r : Rules) : Rule (List Node) := do
  if ← eat "=" then return [← r.inner]
  return []

/-- A pattern with its default. -/
def bindingElement (r : Rules) : Rule Node := do
  let start ← here
  let target ← r .binding
  let value ← defaultValue r
  finish .other start (target :: value)

/-- What takes the remaining elements; it has to be the last. -/
def restElement (r : Rules) (close : String) : Rule Node := do
  let start ← here
  expect "..."
  let target ← r .binding
  unless ← isAt close do failure
  finish .other start [target]

/-- An element of an array pattern; a missing one before a comma. -/
def arrayBindingItem (r : Rules) : Rule Node := do
  if ← isAt "," then finish .hole (← here) []
  else if ← isAt "..." then restElement r "]"
  else bindingElement r

/-- A property of an object pattern. -/
def objectBindingItem (r : Rules) : Rule Node := do
  if ← isAt "..." then restElement r "\x7d"
  else
    let start ← here
    let shorthand := (← token).isBinding
    let (key, _) ← propertyName r
    if ← eat ":" then
      let element ← bindingElement r
      finish .other start [key, element]
    else
      unless shorthand do failure
      let value ← defaultValue r
      finish .other start (key :: value)

/-- A name or a pattern that binds names. -/
def bindingTarget (r : Rules) : Rule Node := do
  let start ← here
  if ← isAt "[" then
    let items ← bracketed "[" "]" (arrayBindingItem r)
    finish .other start items
  else if ← isAt "\x7b" then
    let items ← bracketed "\x7b" "\x7d" (objectBindingItem r)
    finish .other start items
  else bindingName

/-! ### Decorators -/

/-- An expression after `@`. -/
def decorator (r : Rules) : Rule Node := do
  let start ← here
  expect "@"
  let e ← within (fun c => { c with decorating := true }) (r .operand)
  finish .other start [e]

def decorators (r : Rules) : Rule (List Node) :=
  collect do
    if ← isAt "@" then return some (← decorator r)
    return none

/-! ### Parameters -/

/-- Words that make a parameter a property of its class. -/
def parameterModifiers : List String := ["public", "private", "protected", "readonly", "override"]

/-- Skips the words that make a parameter a property. -/
def skipParameterModifiers : Rule Unit := do
  let _ ← collect do
    if (← typed) && parameterModifiers.contains (← word) &&
        (← nextToken fun t _ => t.isBinding || t == .sign "[" || t == .sign "\x7b") then
      advanceWord
      return some ()
    return none
  return ()

/-- One parameter. -/
def parameter (r : Rules) : Rule Node := do
  let start ← here
  let decorated ← decorators r
  skipParameterModifiers
  if ← eat "..." then
    let target ← r .binding
    let type ← typeAnnotation r
    unless ← isAt ")" do failure
    finish .other start (decorated ++ target :: type)
  else if (← typed) && (← isAtWord "this") then
    advance
    let type ← typeAnnotation r
    finish .other start (decorated ++ type)
  else
    let target ← r .binding
    if ← typed then
      let _ ← eat "?"
    let type ← typeAnnotation r
    let value ← defaultValue r
    finish .other start (decorated ++ target :: type ++ value)

def parameters (r : Rules) : Rule (List Node) := bracketed "(" ")" (parameter r)

end Script

end CssRune
