/-
**Statements and declarations.**
-/

import CssRune.Script.Grammar.Expressions

set_option autoImplicit false

namespace CssRune

namespace Script

/-! ### Variables -/

/-- A declared variable: whether it has a value, whether it is a pattern, and its node. -/
structure Declarator where
  hasValue : Bool
  isPattern : Bool
  node : Node

/-- One variable with its type and its value. -/
def declarator (r : Rules) : Rule Declarator := do
  let start ← here
  let isPattern := !(← token).isBinding
  let target ← r .binding
  if ← typed then
    let _ ← eat "!"
  let type ← typeAnnotation r
  let value ← if ← eat "=" then pure [← r.value] else pure []
  return ⟨!value.isEmpty, isPattern, ← finish .other start (target :: type ++ value)⟩

/-- Variables with commas between them. -/
def declarators (r : Rules) : Rule (List Declarator) := do
  let first ← declarator r
  let others ← collect do
    if ← eat "," then return some (← declarator r)
    return none
  return first :: others

/-- Constants and patterns need values, except where declarations have no values at all. -/
def checkValues (constant : Bool) (ds : List Declarator) : Rule Unit := do
  unless (← context).ambient do
    faultIf (ds.any fun d => !d.hasValue && (constant || d.isPattern))

/-- A declaration of variables; the words before the variables were read already. -/
def variableList (r : Rules) (start : Nat) (constant : Bool) : Rule Node := do
  let ds ← declarators r
  checkValues constant ds
  endStatement
  finish .other start (ds.map (·.node))

/-- Whether `let` is a name here and not the start of a declaration. -/
def isLetName (single : Bool) : Rule Bool :=
  nextToken fun t _ => match t with
    | .sign s =>
      assignmentOperators.contains s || (operatorLevel t).isSome || s == "." || s == "(" ||
        s == ";" || s == ">" || single && s != "["
    | .name w _ => w == "in" || w == "instanceof" || single
    | _ => single

/-- Whether `using`, perhaps after `await`, starts a declaration. -/
def isUsing : Rule Bool := do
  if ← isAtWord "using" then nextToken fun t newline => t.isBinding && t.word != "of" && !newline
  else if ← isAtWord "await" then
    foresees do
      advance
      unless (← isAtWord "using") && !(← onNewLine) do return false
      advance
      return (← token).isBinding && !(← onNewLine)
  else return false

/-! ### Modules -/

/-- Attributes of what is imported. -/
def importAttributes (r : Rules) : Rule (List Node) := do
  if (← isAtWord "with") || ((← isAtWord "assert") && !(← onNewLine)) then
    advance
    bracketed "\x7b" "\x7d" do
      let start ← here
      let (key, _) ← propertyName r
      expect ":"
      let value ← stringLiteral
      finish .other start [key, value]
  else return []

/-- The name of something a module exports: a word or a string. -/
def moduleName : Rule Node := do
  match ← token with
  | .string value => leaf (.string value)
  | _ => labelName

/-- Skips `type` before a name of an import or an export. -/
def skipTypeWord : Rule Unit := do
  if (← isAtWord "type") && (← nextToken fun t _ => match t with
      | .string _ => true
      | .name w _ => w != "as"
      | _ => false) then
    faultIf !(← typed)
    advance

/-- One imported name. -/
def importSpecifier : Rule Node := do
  let start ← here
  skipTypeWord
  let isName := (← token).isBinding
  let name ← moduleName
  if ← eatWord "as" then
    let _ ← bindingName
    finish .other start [name]
  else
    unless isName do failure
    finish .other start [name]

/-- Where a module is imported from. -/
def importSource (r : Rules) : Rule (List Node) := do
  expectWord "from"
  let source ← stringLiteral
  let attributes ← importAttributes r
  return source :: attributes

/-- All names of a module, or some of them in braces. -/
def importNames : Rule Unit := do
  if ← eat "*" then
    expectWord "as"
    let _ ← bindingName
  else
    let _ ← bracketed "\x7b" "\x7d" importSpecifier

/-- Skips `type`, `defer` or `source` before what is imported. -/
def skipImportWord : Rule Unit := do
  let w ← word
  if w == "type" || w == "defer" || w == "source" then
    let modifies ← foresees do
      advance
      if (← isAt "*") || ((← isAt "\x7b") && w == "type") then return true
      unless (← token).isBinding && w != "defer" do return false
      let from_ ← isAtWord "from"
      advance
      return !from_ || (← isAtWord "from")
    if modifies then
      faultIf (w == "type" && !(← typed))
      advance

/-- `import` as a statement. -/
def importRule (r : Rules) : Rule Node := do
  let start ← here
  advanceWord
  match ← token with
  | .string value =>
    let source ← leaf (.string value)
    let attributes ← importAttributes r
    endStatement
    finish .other start (source :: attributes)
  | _ =>
    skipImportWord
    let more ←
      if (← token).isBinding then do
        let _ ← bindingName
        if (← typed) && (← eat "=") then
          if (← isAtWord "require") && (← nextToken fun t _ => t == .sign "(") then
            advance
            let _ ← bracketed "(" ")" stringLiteral
          else
            let _ ← entityName
          endStatement
          return ← finish .other start []
        eat ","
      else pure true
    if more then importNames
    let source ← importSource r
    endStatement
    finish .other start source

/-- One exported name: whether it can name a binding, and its node. -/
def exportSpecifier : Rule (Bool × Node) := do
  let start ← here
  skipTypeWord
  let isName := (← token).isBinding
  let name ← moduleName
  if ← eatWord "as" then
    let other ← moduleName
    return (isName, ← finish .other start [name, other])
  else return (isName, ← finish .other start [name])

/-- Exported names in braces. -/
def exportNames (r : Rules) (start : Nat) : Rule Node := do
  let names ← bracketed "\x7b" "\x7d" exportSpecifier
  let source ←
    if ← isAtWord "from" then importSource r
    else do
      faultIf (names.any fun n => !n.1)
      pure []
  endStatement
  finish .other start (names.map (·.2) ++ source)

/-- Everything a module exports, passed on. -/
def exportAll (r : Rules) (start : Nat) : Rule Node := do
  expect "*"
  if ← eatWord "as" then
    let _ ← moduleName
  let source ← importSource r
  endStatement
  finish .other start source

/-! ### Declarations of types -/

/-- Whether a word starts a declaration that only typed scripts have. -/
def isTypeDeclaration : Rule Bool := do
  let w ← word
  if w == "enum" then return true
  else if w == "const" then nextToken fun t _ => t.word == "enum"
  else if w == "interface" || w == "type" then
    nextToken fun t newline => t.isBinding && !newline
  else if w == "module" || w == "namespace" then
    nextToken fun t newline => !newline && (t.isBinding || match t with
      | .string _ => true
      | _ => false)
  else if w == "declare" then
    nextToken fun t newline =>
      !newline && t.word != "" && !(["in", "instanceof", "as"].contains t.word)
  else if w == "abstract" then nextToken fun t newline => !newline && t.word == "class"
  else if w == "global" then nextToken fun t _ => t == .sign "\x7b"
  else return false

/-- A member of an enumeration with its value. -/
def enumMember (r : Rules) : Rule Node := do
  let start ← here
  let (key, _) ← propertyName r
  let value ← defaultValue r
  finish .other start (key :: value)

/-- An enumeration. -/
def enumeration (r : Rules) (start : Nat) : Rule Node := do
  expectWord "enum"
  let _ ← bindingName
  let members ← bracketed "\x7b" "\x7d" (enumMember r)
  finish .other start members

/-- An interface. -/
def interfaceRule (r : Rules) (start : Nat) : Rule Node := do
  expectWord "interface"
  let _ ← bindingName
  let types ← typeParameters r
  let parents ←
    if ← eatWord "extends" then do
      let first ← typeReference r
      let others ← collect do
        if ← eat "," then return some (← typeReference r)
        return none
      pure (first :: others)
    else pure []
  let members ← typeMembers r
  finish .other start (types ++ parents ++ members)

/-- A name for a type. -/
def typeAlias (r : Rules) (start : Nat) : Rule Node := do
  expectWord "type"
  let _ ← bindingName
  let types ← typeParameters r
  expect "="
  let type ← r .type
  endStatement
  finish .other start (types ++ [type])

/-- A namespace with its statements. -/
def namespaceRule (r : Rules) (start : Nat) : Rule Node := do
  let global ← isAtWord "global"
  advanceWord
  unless global do
    match ← token with
    | .string _ => advance
    | _ =>
      let _ ← entityName
  if ← isAt "\x7b" then
    let body ← block r
    finish .other start [body]
  else
    endStatement
    finish .other start []

/-- A declaration that only typed scripts have; `start` is where its first word stands. -/
def typeDeclaration (r : Rules) (start : Nat) : Rule Node := do
  let w ← word
  if w == "declare" then
    advance
    within (fun c => { c with ambient := true }) do
      let inner ← r (.statement false)
      finish .other start [inner]
  else if w == "const" then
    advance
    enumeration r start
  else if w == "enum" then enumeration r start
  else if w == "interface" then interfaceRule r start
  else if w == "type" then typeAlias r start
  else if w == "abstract" then
    advance
    classRule r start []
  else namespaceRule r start

/-! ### Control -/

/-- An expression in parentheses. -/
def condition (r : Rules) : Rule Node := do
  expect "("
  let e ← r.innerExpression
  expect ")"
  return e

/-- `if` with its branches. -/
def ifRule (r : Rules) : Rule Node := do
  let start ← here
  advanceWord
  let test ← condition r
  let yes ← r (.statement true)
  let no ← if ← eatWord "else" then pure [← r (.statement true)] else pure []
  finish .other start (test :: yes :: no)

/-- `while` and `with`. -/
def whileRule (r : Rules) : Rule Node := do
  let start ← here
  advanceWord
  let test ← condition r
  let body ← r (.statement true)
  finish .other start [test, body]

/-- `do` with its body and its test; the semicolon after it may be missing. -/
def doRule (r : Rules) : Rule Node := do
  let start ← here
  advanceWord
  let body ← r (.statement true)
  expectWord "while"
  let test ← condition r
  let _ ← eat ";"
  finish .other start [body, test]

/-- What stands before the parts of `for`: its nodes, and whether it can be assigned to by `of` and
`in`. -/
structure ForHead where
  parts : List Node
  declared : List Declarator
  constant : Bool
  isDeclaration : Bool

/-- The first part of `for`. -/
def forHead (r : Rules) : Rule ForHead := do
  if ← isAt ";" then return ⟨[], [], false, false⟩
  let w ← word
  let declares ←
    if w == "var" || w == "const" then pure true
    else if w == "let" then nextToken fun t _ =>
      t.isBinding && t.word != "of" || t == .sign "[" || t == .sign "\x7b"
    else isUsing
  if declares then
    if w == "await" then advance
    advanceWord
    let ds ← within (fun c => { c with operatorIn := false }) (declarators r)
    return ⟨ds.map (·.node), ds, w == "const", true⟩
  else
    let e ← within (fun c => { c with operatorIn := false }) (r .expression)
    return ⟨[e], [], false, false⟩

/-- The target of `for … of` and `for … in`. -/
def forTarget (head : ForHead) : Rule (List Node) := do
  if head.isDeclaration then return head.parts
  match head.parts with
  | [e] =>
    match e.asTarget? with
    | some t => return [t]
    | none => failure
  | _ => failure

/-- An expression, unless a sign follows at once. -/
def optionalExpression (r : Rules) (close : String) : Rule (List Node) := do
  if ← isAt close then return []
  return [← r.innerExpression]

/-- `for` in all its forms. -/
def forRule (r : Rules) : Rule Node := do
  let start ← here
  advanceWord
  let awaits ← eatWord "await"
  faultIf (awaits && !(← context).awaits)
  expect "("
  let head ← forHead r
  let parts ←
    if ← eatWord "of" then do
      let target ← forTarget head
      let e ← r.inner
      pure (target ++ [e])
    else if (← isAtWord "in") && !awaits then do
      advance
      let target ← forTarget head
      let e ← r.innerExpression
      pure (target ++ [e])
    else do
      if awaits then failure
      if head.isDeclaration then checkValues head.constant head.declared
      expect ";"
      let test ← optionalExpression r ";"
      expect ";"
      let step ← optionalExpression r ")"
      pure (head.parts ++ test ++ step)
  expect ")"
  let body ← r (.statement true)
  finish .other start (parts ++ [body])

/-- A statement that leaves a loop, perhaps one with a label. -/
def jumpRule : Rule Node := do
  let start ← here
  advanceWord
  if (← token).isBinding && !(← onNewLine) then advance
  endStatement
  finish .other start []

/-- `return`, which has its place in functions. -/
def returnRule (r : Rules) : Rule Node := do
  let start ← here
  faultIf !(← context).returns
  advanceWord
  let isOver := (← isAt ";") || (← isAt "\x7d") || (← token) == .eof || (← onNewLine)
  let e ← if isOver then pure [] else pure [← r.innerExpression]
  endStatement
  finish .other start e

/-- `throw`, with its expression on the same line. -/
def throwRule (r : Rules) : Rule Node := do
  let start ← here
  advanceWord
  if ← onNewLine then failure
  let e ← r.innerExpression
  endStatement
  finish .other start [e]

/-- The part of `try` that catches. -/
def catchRule (r : Rules) : Rule (List Node) := do
  if ← eatWord "catch" then
    let parameter ←
      if ← eat "(" then do
        let target ← r .binding
        let type ← typeAnnotation r
        expect ")"
        pure (target :: type)
      else pure []
    let body ← block r
    return parameter ++ [body]
  return []

/-- `try` with what catches and what ends it; one of them has to be there. -/
def tryRule (r : Rules) : Rule Node := do
  let start ← here
  advanceWord
  let body ← block r
  let handler ← catchRule r
  let final ← if ← eatWord "finally" then pure [← block r] else pure []
  faultIf (handler.isEmpty && final.isEmpty)
  finish .other start (body :: handler ++ final)

/-- A case of `switch` with its statements. -/
def caseRule (r : Rules) : Rule Node := do
  let start ← here
  let test ←
    if ← eatWord "default" then pure []
    else do
      expectWord "case"
      pure [← r.innerExpression]
  expect ":"
  let body ← collect do
    if (← isAt "\x7d") || (← isAtWord "case") || (← isAtWord "default") then return none
    return some (← r (.statement false))
  finish .other start (test ++ body)

/-- `switch` with its cases. -/
def switchRule (r : Rules) : Rule Node := do
  let start ← here
  advanceWord
  let e ← condition r
  expect "\x7b"
  let cases ← collect do
    if ← isAt "\x7d" then return none
    return some (← caseRule r)
  expect "\x7d"
  finish .other start (e :: cases)

/-! ### Statements -/

/-- A function as a statement. -/
def functionStatement (r : Rules) (single : Bool) : Rule Node := do
  let start ← here
  faultIf (single && ((← isAtWord "async") || (← nextToken fun t _ => t == .sign "*")))
  let f ← functionRule r true
  finish .other start [f]

/-- A class with decorators as a statement, or its export. -/
def decoratedRule (r : Rules) : Rule Node := do
  let start ← here
  let decorated ← decorators r
  if ← isAtWord "export" then
    let exportStart ← here
    advanceWord
    let _ ← eatWord "default"
    let _ ← eatWord "abstract"
    classRule r exportStart decorated
  else
    let _ ← eatWord "abstract"
    classRule r start decorated

/-- The value of `export default`. -/
def exportDefault (r : Rules) (start : Nat) : Rule Node := do
  if (← isAtWord "function") || (← isAsyncFunction) then
    let f ← functionRule r true
    finish .other start [f]
  else if ← isAtWord "class" then
    let c ← classRule r (← here) []
    finish .other start [c]
  else if ← isAt "@" then
    let c ← classExpression r
    finish .other start [c]
  else if (← typed) && (← isAtWord "abstract") &&
      (← nextToken fun t newline => t.word == "class" && !newline) then
    let classStart ← here
    advance
    let c ← classRule r classStart []
    finish .other start [c]
  else if (← typed) && (← isAtWord "interface") &&
      (← nextToken fun t newline => t.isBinding && !newline) then
    let i ← interfaceRule r (← here)
    finish .other start [i]
  else
    let e ← r.inner
    endStatement
    finish .other start [e]

/-- `export` in all its forms. -/
def exportRule (r : Rules) : Rule Node := do
  let start ← here
  advanceWord
  let types ← typed
  if ← isAt "*" then exportAll r start
  else if ← isAt "\x7b" then exportNames r start
  else if ← eatWord "default" then exportDefault r start
  else if types && (← eat "=") then
    let e ← r.innerExpression
    endStatement
    finish .other start [e]
  else if types && (← isAtWord "as") then
    advance
    expectWord "namespace"
    let _ ← bindingName
    endStatement
    finish .other start []
  else if types && (← isAtWord "type") &&
      (← nextToken fun t _ => t == .sign "\x7b" || t == .sign "*") then
    advance
    if ← isAt "*" then exportAll r start else exportNames r start
  else
    let w ← word
    let declares :=
      ["var", "let", "const", "class", "function"].contains w || (types && w == "import") ||
        (← isAsyncFunction) || (← isAt "@") || (types && (← isTypeDeclaration)) || (← isUsing)
    unless declares do failure
    let declaration ← r (.statement false)
    finish .other start [declaration]

/-- An expression, or a label with its statement. -/
def expressionStatement (r : Rules) : Rule Node := do
  let start ← here
  let e ← within (fun c => { c with operatorIn := true }) (r .expression)
  if e.isIdentifier && (← isAt ":") then
    advance
    let body ← r (.statement true)
    finish .other start [body]
  else
    endStatement
    finish .expressionStatement start [e]

/-- A statement that starts with a word. -/
def wordStatement (r : Rules) (single : Bool) (w : String) : Rule Node := do
  let start ← here
  if w == "if" then ifRule r
  else if w == "for" then forRule r
  else if w == "while" || w == "with" then whileRule r
  else if w == "do" then doRule r
  else if w == "return" then returnRule r
  else if w == "break" || w == "continue" then jumpRule
  else if w == "throw" then throwRule r
  else if w == "try" then tryRule r
  else if w == "switch" then switchRule r
  else if w == "debugger" then
    advanceWord
    endStatement
    finish .other start []
  else if w == "import" && !(← nextToken fun t _ => t == .sign "(" || t == .sign ".") then
    importRule r
  else if w == "export" then exportRule r
  else if w == "class" then
    faultIf single
    classRule r start []
  else if w == "function" || (← isAsyncFunction) then functionStatement r single
  else if w == "var" then
    advanceWord
    variableList r start false
  else if w == "const" && !((← typed) && (← isTypeDeclaration)) then
    faultIf single
    advanceWord
    variableList r start true
  else if w == "let" && !(← isLetName single) then
    faultIf single
    advanceWord
    variableList r start false
  else if ← isUsing then
    faultIf single
    if w == "await" then advance
    advance
    variableList r start true
  else if (← typed) && (← isTypeDeclaration) then typeDeclaration r start
  else expressionStatement r

/-- A statement. -/
def statementRule (r : Rules) (single : Bool) : Rule Node := do
  match ← token with
  | .sign "\x7b" => block r
  | .sign ";" =>
    let start ← here
    advance
    finish .other start []
  | .sign "@" => decoratedRule r
  | .name w escaped => if escaped then expressionStatement r else wordStatement r single w
  | _ => expressionStatement r

end Script

end CssRune
