/-
**Functions and classes.**
-/

import CssRune.Script.Grammar.Types

set_option autoImplicit false

namespace CssRune

namespace Script

def statements (r : Rules) : Rule (List Node) :=
  collect do
    if ← isAt "\x7d" then return none
    return some (← r (.statement false))

/-- Statements in braces. -/
def block (r : Rules) : Rule Node := do
  let start ← here
  expect "\x7b"
  let body ← statements r
  expect "\x7d"
  finish .other start body

/-! ### Functions -/

/-- What is allowed in a function. -/
def inFunction (async generator : Bool) (c : Context) : Context :=
  { c with
    operatorIn := true, yields := generator, awaits := async, returns := true, decorating := false,
    conditionalTypes := true }

/-- A function after its name: parameters, the type of the result, and the body.  Where types are
allowed, a declaration may do without a body. -/
def functionRest (r : Rules) (start : Nat) (async generator bodyless : Bool) : Rule Node :=
  within (inFunction async generator) do
    let head ← signature r
    if ← isAt "\x7b" then
      let body ← block r
      finish .other start (head ++ [body])
    else
      unless bodyless && (← typed) do failure
      endStatement
      finish .other start head

/-- `function` with what stands before and after it. -/
def functionRule (r : Rules) (bodyless : Bool) : Rule Node := do
  let start ← here
  let async ← eatWord "async"
  expectWord "function"
  let generator ← eat "*"
  if (← token).isBinding then
    let _ ← within (fun c => { c with yields := generator, awaits := async }) bindingName
  functionRest r start async generator bodyless

/-- Whether `async` stands before `function` on the same line. -/
def isAsyncFunction : Rule Bool := do
  if ← isAtWord "async" then nextToken fun t newline => t.word == "function" && !newline
  else return false

/-! ### Classes -/

/-- Words that may stand before a member of a class. -/
def memberModifiers (types : Bool) : List String :=
  if types then
    ["static", "async", "accessor", "public", "private", "protected", "readonly", "override",
      "abstract", "declare"]
  else ["static", "async", "accessor"]

/-- The words before a member of a class. -/
def modifiers : Rule (List String) := do
  let words := memberModifiers (← typed)
  collect do
    let w ← word
    if words.contains w &&
        (← nextToken fun t newline => t.followsModifier && (w == "static" || !newline)) then
      advanceWord
      return some w
    return none

/-- The name of a member of a class, and whether it is computed. -/
def memberName (r : Rules) : Rule (Node × Bool) := do
  match ← token with
  | .privateName text =>
    faultIf (text == "constructor")
    return (← leaf .other, false)
  | _ => propertyName r

/-- A field of a class after its name. -/
def fieldRest (r : Rules) (start : Nat) (key : Node) : Rule Node := do
  if ← typed then
    unless ← eat "?" do
      let _ ← eat "!"
  let type ← typeAnnotation r
  let value ← within (fun c => { c with yields := false, awaits := false, returns := false })
    (defaultValue r)
  endStatement
  finish .other start (key :: type ++ value)

/-- Whether a member can be read as a getter or a setter. -/
def isAccessor : Rule Bool := do
  if (← isAtWord "get") || (← isAtWord "set") then
    nextToken fun t _ => t.isPropertyName || t == .sign "["
  else return false

/-- A member of a class. -/
def classMember (r : Rules) : Rule Node := do
  let start ← here
  let decorated ← decorators r
  if (← isAtWord "static") && (← nextToken fun t _ => t == .sign "\x7b") then
    advanceWord
    let body ← within (fun c =>
      { c with operatorIn := true, yields := false, awaits := true, returns := false }) (block r)
    finish .other start [body]
  else
    let words ← modifiers
    let async := words.contains "async"
    if ← isAccessor then
      advanceWord
      let (key, _) ← memberName r
      let body ← functionRest r (← here) false false true
      finish .other start (decorated ++ [key, body])
    else if (← isAt "[") && (← typed) && (← isIndexSignature) then
      let index ← indexSignature r
      endStatement
      finish .other start [index]
    else
      let generator ← eat "*"
      let (key, computed) ← memberName r
      let named := fun (name : String) =>
        !computed && (match key.kind with
          | .label text => text == name
          | .string text => text == name
          | _ => false)
      let optional ← if ← typed then foresees do
          expect "?"
          isAtAny ["(", "<"]
        else pure false
      if optional then advance
      if async || generator || (← isAt "(") || ((← typed) && (← isAt "<")) then
        faultIf (named "constructor" && !words.contains "static" && (async || generator))
        faultIf (named "prototype" && words.contains "static")
        let body ← functionRest r (← here) async generator true
        finish .other start (decorated ++ [key, body])
      else
        faultIf (named "constructor" || named "prototype" && words.contains "static")
        let field ← fieldRest r start key
        finish .other start (decorated ++ [field])

/-- The members of a class in braces. -/
def classBody (r : Rules) : Rule (List Node) := do
  expect "\x7b"
  let members ← collect do
    let _ ← collect do
      if ← eat ";" then return some ()
      return none
    if ← isAt "\x7d" then return none
    return some (← classMember r)
  expect "\x7d"
  return members

/-- What a class extends. -/
def heritage (r : Rules) : Rule (List Node) := do
  if ← eatWord "extends" then
    let parent ← r .operand
    let arguments ← if (← typed) && (← isAtAny ["<", "<<"]) then typeArguments r else pure []
    return parent :: arguments
  return []

/-- The interfaces a class claims to have. -/
def interfaces (r : Rules) : Rule (List Node) := do
  if (← typed) && (← isAtWord "implements") then
    advanceWord
    let first ← typeReference r
    let others ← collect do
      if ← eat "," then return some (← typeReference r)
      return none
    return first :: others
  return []

/-- A class; `start` is where its decorators or modifiers begin. -/
def classRule (r : Rules) (start : Nat) (decorated : List Node) : Rule Node := do
  expectWord "class"
  let t ← token
  if t.isBinding && !((← typed) && t.word == "implements") then
    let _ ← bindingName
  let types ← typeParameters r
  let parent ← heritage r
  let claims ← interfaces r
  let members ← classBody r
  finish .other start (decorated ++ types ++ parent ++ claims ++ members)

end Script

end CssRune
