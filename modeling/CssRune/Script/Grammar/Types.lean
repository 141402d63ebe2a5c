/-
**Types.**

Types matter only for where they end and for the string literals in them.
-/

import CssRune.Script.Grammar.Binding

set_option autoImplicit false

namespace CssRune

namespace Script

/-- Makes a doubled angle bracket two tokens. -/
def splitAngles : Rule Unit := do
  if ← isAt "<<" then relex fun x => splitSign x "<"

/-- Types in angle brackets; there has to be one. -/
def typeArguments (r : Rules) : Rule (List Node) := do
  splitAngles
  let types ← bracketed "<" ">" (r .type)
  faultIf types.isEmpty
  return types

/-- Type arguments on the same line, if there are some. -/
def optionalTypeArguments (r : Rules) : Rule (List Node) := do
  if (← onNewLine) || !(← isAtAny ["<", "<<"]) then return []
  typeArguments r

/-- Skips the words before a type parameter. -/
def skipVariance : Rule Unit := do
  let _ ← collect do
    let w ← word
    if w == "const" || w == "in" ||
        w == "out" && (← nextToken fun t _ => t.word != "" && t.word != "extends") then
      advance
      return some ()
    return none
  return ()

/-- One type parameter with its bound and its default. -/
def typeParameter (r : Rules) : Rule Node := do
  let start ← here
  skipVariance
  let _ ← bindingName
  let limit ← if ← eatWord "extends" then pure [← r .type] else pure []
  let value ← if ← eat "=" then pure [← r .type] else pure []
  finish .other start (limit ++ value)

/-- Type parameters, where they are allowed. -/
def typeParameters (r : Rules) : Rule (List Node) := do
  if (← typed) && (← isAt "<") then
    let parameters ← bracketed "<" ">" (typeParameter r)
    faultIf parameters.isEmpty
    return parameters
  return []

/-- A type, or a test of a parameter's type. -/
def resultType (r : Rules) : Rule Node := do
  let start ← here
  let t ← token
  if (t.isBinding || t.word == "this") &&
      (← nextToken fun t newline => t.word == "is" && !newline) then
    advance
    advance
    let type ← r .type
    finish .other start [type]
  else r .type

/-- The type of a result after a colon. -/
def returnType (r : Rules) : Rule (List Node) := do
  if (← typed) && (← isAt ":") then
    advance
    return [← within (fun c => { c with conditionalTypes := true }) (resultType r)]
  return []

/-! ### Names and literals -/

/-- Names with points between them. -/
def entityName : Rule Node := do
  let start ← here
  if ← isAtWord "this" then advance
  else
    let _ ← bindingName
  let _ ← collect do
    if ← eat "." then
      match ← token with
      | .privateName _ => advance
      | _ =>
        let _ ← labelName
      return some ()
    return none
  finish .other start []

/-- A named type with its arguments. -/
def typeReference (r : Rules) : Rule Node := do
  let start ← here
  let name ← entityName
  let arguments ← optionalTypeArguments r
  finish .other start (name :: arguments)

/-- The pieces of a template with what stands between them, and whether all escapes are valid. -/
def templateF (item : Rule Node) : Nat → Rule (List Node × Bool)
  | 0 => failure
  | n + 1 => do
      match ← token with
      | .template closed valid =>
        advance
        if closed then return ([], valid)
        let e ← item
        unless ← isAt "\x7d" do failure
        relex lexTemplate
        let r ← templateF item n
        return (e :: r.1, valid && r.2)
      | _ => failure

/-- The pieces of a template with what stands between them, and whether all escapes are valid. -/
def template (item : Rule Node) : Rule (List Node × Bool) := do templateF item (← bound)

/-- `import("…")` with names and type arguments. -/
def importType (r : Rules) : Rule Node := do
  let start ← here
  expectWord "import"
  expect "("
  let source ← r .type
  let options ← if (← eat ",") && !(← isAt ")") then pure [← r.inner] else pure []
  let _ ← eat ","
  expect ")"
  let _ ← collect do
    if ← eat "." then
      let _ ← labelName
      return some ()
    return none
  let arguments ← optionalTypeArguments r
  finish .other start (source :: options ++ arguments)

/-- `typeof` with the name of a value. -/
def typeQuery (r : Rules) : Rule Node := do
  let start ← here
  advanceWord
  let name ← if ← isAtWord "import" then importType r else entityName
  let arguments ← optionalTypeArguments r
  finish .other start (name :: arguments)

/-! ### Object types -/

/-- Whether a token can stand after a word that modifies a member. -/
def Token.followsModifier (t : Token) : Bool :=
  t.isPropertyName || t == .sign "[" || t == .sign "*"

/-- The signature of a function: type parameters, parameters and the type of the result. -/
def signature (r : Rules) : Rule (List Node) := do
  let types ← typeParameters r
  let ps ← parameters r
  let result ← returnType r
  return types ++ ps ++ result

/-- A name in brackets with the type of the keys. -/
def isIndexSignature : Rule Bool :=
  foresees do
    expect "["
    let named := (← token).isBinding
    advance
    return named && (← isAt ":")

/-- The keys and the values of an index signature. -/
def indexSignature (r : Rules) : Rule Node := do
  let start ← here
  expect "["
  let _ ← bindingName
  expect ":"
  let key ← r .type
  expect "]"
  let value ← typeAnnotation r
  finish .other start (key :: value)

/-- The end of a member: a comma, or the end of a statement. -/
def endMember : Rule Unit := do
  unless ← eat "," do endStatement

/-- A property or a method of an object type. -/
def propertySignature (r : Rules) : Rule Node := do
  let start ← here
  let (key, _) ← propertyName r
  let _ ← eat "?"
  let rest ← if ← isAtAny ["(", "<"] then signature r else typeAnnotation r
  finish .other start (key :: rest)

/-- A member of an interface or an object type. -/
def typeMember (r : Rules) : Rule Node := do
  let start ← here
  let member ←
    if ← isAtAny ["(", "<"] then finish .other start (← signature r)
    else if (← isAtWord "new") && (← nextToken fun t _ => t == .sign "(" || t == .sign "<") then do
      advanceWord
      finish .other start (← signature r)
    else do
      if (← isAtWord "readonly") &&
          (← nextToken fun t newline => t.followsModifier && !newline) then
        advanceWord
      if ((← isAtWord "get") || (← isAtWord "set")) &&
          (← nextToken fun t _ => t.followsModifier) then do
        advanceWord
        let (key, _) ← propertyName r
        finish .other start (key :: (← signature r))
      else if (← isAt "[") && (← isIndexSignature) then indexSignature r
      else propertySignature r
  endMember
  return member

/-- Members between braces. -/
def typeMembers (r : Rules) : Rule (List Node) := do
  expect "\x7b"
  let members ← collect do
    if ← isAt "\x7d" then return none
    return some (← typeMember r)
  expect "\x7d"
  return members

/-- Whether an opening brace starts a type that maps keys. -/
def isMappedType : Rule Bool :=
  foresees do
    expect "\x7b"
    if ← isAtAny ["+", "-"] then
      advance
      return ← isAtWord "readonly"
    if ← isAtWord "readonly" then advance
    unless ← eat "[" do return false
    let named := (← token).isBinding
    advance
    return named && (← isAtWord "in")

/-- Skips a word or a sign that may be preceded by a plus or a minus. -/
def skipSigned (present : Rule Bool) : Rule Unit := do
  if ← isAtAny ["+", "-"] then
    advance
    unless ← present do failure
    advance
  else if ← present then advance

/-- A type that maps keys to types. -/
def mappedType (r : Rules) : Rule Node := do
  let start ← here
  expect "\x7b"
  skipSigned (isAtWord "readonly")
  expect "["
  let _ ← bindingName
  expectWord "in"
  let keys ← r .type
  let name ← if ← eatWord "as" then pure [← r .type] else pure []
  expect "]"
  skipSigned (isAt "?")
  let value ← typeAnnotation r
  let _ ← eat ";"
  expect "\x7d"
  finish .other start (keys :: name ++ value)

/-- An element of a tuple type, perhaps named. -/
def tupleElement (r : Rules) : Rule Node := do
  let start ← here
  let _ ← eat "..."
  let named ← foresees do
    let _ ← labelName
    let _ ← eat "?"
    isAt ":"
  if named then
    advance
    let _ ← eat "?"
    expect ":"
  let type ← r .type
  let _ ← eat "?"
  finish .other start [type]

/-! ### Operators -/

/-- Whether a parenthesis opens the parameters of a function type. -/
def isFunctionType (r : Rules) : Rule Bool :=
  foresees do
    expect "("
    if ← isAtAny [")", "..."] then return true
    skipParameterModifiers
    if ← isAtWord "this" then advance
    else
      let _ ← r .binding
    if ← isAtAny [":", ",", "?", "="] then return true
    unless ← eat ")" do return false
    isAt "=>"

/-- The type of a function or a constructor. -/
def functionType (r : Rules) : Rule Node := do
  let start ← here
  let _ ← eatWord "abstract"
  let _ ← eatWord "new"
  let types ← typeParameters r
  let ps ← parameters r
  expect "=>"
  let result ← resultType r
  finish .other start (types ++ ps ++ [result])

/-- A type without operators around it. -/
def atomicType (r : Rules) : Rule Node := do
  let start ← here
  match ← token with
  | .string value => leaf (.string value)
  | .number => leaf .literal
  | .bigint => leaf .literal
  | .template _ _ =>
    let (parts, valid) ← template (r .type)
    faultIf !valid
    finish .other start parts
  | .sign "-" =>
    advance
    match ← token with
    | .number => leaf .literal
    | .bigint => leaf .literal
    | _ => failure
  | .sign "\x7b" =>
    if ← isMappedType then mappedType r else finish .other start (← typeMembers r)
  | .sign "[" => finish .other start (← bracketed "[" "]" (tupleElement r))
  | .sign "(" =>
    advance
    let type ← within (fun c => { c with conditionalTypes := true }) (r .type)
    expect ")"
    finish .other start [type]
  | .name w _ =>
    if w == "void" || w == "null" || w == "true" || w == "false" then leaf .literal
    else if w == "this" then
      advance
      if (← isAtWord "is") && !(← onNewLine) then
        advance
        finish .other start [← r .type]
      else finish .other start []
    else if w == "typeof" then typeQuery r
    else if w == "import" then importType r
    else if w == "asserts" &&
        (← nextToken fun t newline => (t.isBinding || t.word == "this") && !newline) then
      advance
      advance
      let type ← if ← eatWord "is" then pure [← r .type] else pure []
      finish .other start type
    else typeReference r
  | _ => failure

/-- An array or a member of a type. -/
def suffixedType (r : Rules) : Rule Node := do
  let start ← here
  let first ← atomicType r
  iterate (fun type => do
    if (← onNewLine) || !(← isAt "[") then return none
    advance
    if ← eat "]" then return some (← finish .other start [type])
    let index ← r .type
    expect "]"
    return some (← finish .other start [type, index])) first

/-- A type after words that operate on it. -/
def operatorType (r : Rules) : Rule Node := do
  let start ← here
  let w ← word
  if (w == "keyof" || w == "unique" || w == "readonly") &&
      (← nextToken fun t newline => !newline && (t.word != "" || match t with
        | .sign s => ["[", "\x7b", "(", "-"].contains s
        | .eof => false
        | .invalid => false
        | _ => true)) then
    advanceWord
    let _ ← collect do
      let w ← word
      if w == "keyof" || w == "unique" || w == "readonly" then
        advanceWord
        return some ()
      return none
    finish .other start [← suffixedType r]
  else if w == "infer" && (← nextToken fun t newline => t.isBinding && !newline) then
    advanceWord
    let _ ← bindingName
    let limit ← attempt do
      expectWord "extends"
      let type ← within (fun c => { c with conditionalTypes := false }) (r .type)
      if (← context).conditionalTypes && (← isAt "?") then failure
      return type
    finish .other start limit.toList
  else suffixedType r

/-- Types with a sign between them and perhaps before the first. -/
def joinedTypes (sign : String) (item : Rule Node) : Rule Node := do
  let start ← here
  let led ← eat sign
  let first ← item
  let others ← collect do
    if ← eat sign then return some (← item)
    return none
  if led || !others.isEmpty then finish .other start (first :: others) else return first

/-- A member of an intersection or a union, which may be the type of a function. -/
def unionMember (r : Rules) : Rule Node := do
  if (← isAt "<") || ((← isAt "(") && (← isFunctionType r)) ||
      ((← isAtWord "new") && (← nextToken fun t _ => t == .sign "(" || t == .sign "<")) then
    functionType r
  else operatorType r

/-- A type. -/
def typeRule (r : Rules) : Rule Node := do
  let start ← here
  if (← isAt "<") || ((← isAt "(") && (← isFunctionType r)) || (← isAtWord "new") ||
      ((← isAtWord "abstract") && (← nextToken fun t _ => t.word == "new")) then
    functionType r
  else
    let type ← joinedTypes "|" (joinedTypes "&" (unionMember r))
    if (← context).conditionalTypes && !(← onNewLine) && (← isAtWord "extends") then
      advanceWord
      let limit ← within (fun c => { c with conditionalTypes := false }) (r .type)
      expect "?"
      let yes ← within (fun c => { c with conditionalTypes := true }) (r .type)
      expect ":"
      let no ← within (fun c => { c with conditionalTypes := true }) (r .type)
      finish .other start [type, limit, yes, no]
    else return type

end Script

end CssRune
