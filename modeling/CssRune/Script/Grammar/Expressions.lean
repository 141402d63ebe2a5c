/-
**Expressions.**
-/

import CssRune.Script.Grammar.Functions
import CssRune.Script.Target

set_option autoImplicit false

namespace CssRune

namespace Script

/-- An expression in brackets, where `in` is an operator. -/
def Rules.innerExpression (r : Rules) : Rule Node :=
  within (fun c => { c with operatorIn := true, decorating := false }) (r .expression)

/-! ### Array and object literals -/

/-- Three dots and a value. -/
def spread (r : Rules) : Rule Node := do
  let start ← here
  expect "..."
  let e ← r.inner
  finish .spread start [e]

/-- An element of an array literal; a missing one before a comma. -/
def arrayItem (r : Rules) : Rule Node := do
  if ← isAt "," then finish .hole (← here) []
  else if ← isAt "..." then spread r
  else r.inner

def arrayLiteral (r : Rules) : Rule Node := do
  let start ← here
  let items ← bracketed "[" "]" (arrayItem r)
  finish .array start items

/-- A property that is a method. -/
def methodProperty (r : Rules) (start : Nat) (key : Node × Bool) (async generator : Bool) :
    Rule Node := do
  let body ← functionRest r (← here) async generator false
  finish (.property .method key.2) start [key.1, body]

/-- A property of an object literal. -/
def objectItem (r : Rules) : Rule Node := do
  let start ← here
  if ← isAt "..." then spread r
  else if ← isAccessor then
    advanceWord
    methodProperty r start (← propertyName r) false false
  else
    let async ←
      if ← isAtWord "async" then nextToken fun t newline => t.followsModifier && !newline
      else pure false
    if async then advanceWord
    let generator ← eat "*"
    let first ← token
    let nameStart ← here
    let key ← propertyName r
    if async || generator || (← isAt "(") || ((← typed) && (← isAt "<")) then
      methodProperty r start key async generator
    else if ← eat ":" then
      let value ← r.inner
      finish (.property .pair key.2) start [key.1, value]
    else
      unless first.isBinding do failure
      let c ← context
      faultIf (first.word == "await" && c.awaits || first.word == "yield" && c.yields)
      let reference ← finish (.identifier first.word) nameStart []
      if ← eat "=" then
        let value ← r.inner
        finish .shorthandDefault start [key.1, reference, value]
      else finish (.property .shorthand false) start [key.1, reference]

def objectLiteral (r : Rules) : Rule Node := do
  let start ← here
  let items ← bracketed "\x7b" "\x7d" (objectItem r)
  finish .object start items

/-! ### Operands -/

/-- One or more values in parentheses. -/
def parenthesized (r : Rules) : Rule Node := do
  let start ← here
  expect "("
  let inside ← here
  let (items, trailing) ← commaList ")" r.inner
  if trailing then failure
  let e ←
    match items with
    | [] => failure
    | [e] => pure e
    | items => finish .other inside items
  expect ")"
  finish .paren start [e]

def callArguments (r : Rules) : Rule (List Node) :=
  bracketed "(" ")" do
    if ← isAt "..." then spread r else r.inner

/-- `import` as the start of an expression. -/
def importExpression (r : Rules) : Rule Node := do
  let start ← here
  advanceWord
  let phase ← eat "."
  let meta_ ← if phase then eatWord "meta" else pure false
  if meta_ then finish .other start []
  else
    if phase then
      unless (← isAtWord "source") || (← isAtWord "defer") do failure
      advance
    expect "("
    let source ← r.inner
    let options ← if (← eat ",") && !(← isAt ")") then pure [← r.inner] else pure []
    let _ ← eat ","
    expect ")"
    finish .other start (source :: options)

/-- `new` with a callee and perhaps arguments. -/
def newExpression (r : Rules) : Rule Node := do
  let start ← here
  advanceWord
  if ← eat "." then
    expectWord "target"
    finish .other start []
  else
    faultIf ((← isAtWord "import") && (← nextToken fun t _ => t == .sign "("))
    let callee ← r .callee
    let arguments ← if ← isAt "(" then callArguments r else pure []
    finish .other start (callee :: arguments)

/-- A class with decorators in an expression. -/
def classExpression (r : Rules) : Rule Node := do
  let start ← here
  let decorated ← decorators r
  classRule r start decorated

/-- A template without a tag. -/
def templateLiteral (r : Rules) : Rule Node := do
  let start ← here
  let (parts, valid) ← template r.innerExpression
  faultIf !valid
  finish .other start parts

/-- An operand without members and calls. -/
def primary (r : Rules) : Rule Node := do
  match ← token with
  | .string value => leaf (.string value)
  | .number => leaf .literal
  | .bigint => leaf .literal
  | .template _ _ => templateLiteral r
  | .sign "(" => parenthesized r
  | .sign "[" => arrayLiteral r
  | .sign "\x7b" => objectLiteral r
  | .sign "@" => classExpression r
  | .sign s =>
    if s == "/" || s == "/=" then
      relex lexRegex
      unless (← token) == .regex do failure
      leaf .literal
    else failure
  | .name w _ =>
    if w == "null" || w == "true" || w == "false" then
      faultIf (← token).isEscaped
      leaf .literal
    else if w == "this" then
      faultIf (← token).isEscaped
      leaf .other
    else if w == "function" || (← isAsyncFunction) then functionRule r false
    else if w == "class" then classExpression r
    else if w == "new" then newExpression r
    else if w == "import" then importExpression r
    else if w == "super" then
      let e ← leaf .other
      unless ← isAtAny ["(", ".", "["] do failure
      return e
    else bindingName
  | _ => failure

/-- Whether what follows type arguments shows that they are not a comparison. -/
def typeArgumentsEnd : Rule Bool := do
  match ← token with
  | .template _ _ => return true
  | .sign s =>
    if s == "(" then return true
    if ["<", ">", "+", "-"].contains s then return false
    if ← onNewLine then return true
    return !(["[", "\x7b", "!", "~", "++", "--", "/=", "@"].contains s)
  | .name w _ =>
    if ← onNewLine then return true
    return ["in", "instanceof", "as", "satisfies"].contains w || w == "else" || w == "extends" ||
      w == "case" || w == "catch" || w == "default" || w == "finally"
  | .eof => return true
  | _ => onNewLine

/-- Type arguments in an expression. -/
def expressionTypeArguments (r : Rules) : Rule (List Node) := do
  let types ← typeArguments r
  unless ← typeArgumentsEnd do failure
  return types

/-- A node without its type arguments, and these. -/
def splitInstantiation (e : Node) : Node × List Node :=
  match e with
  | .mk .instantiation _ (e :: types) => (e, types)
  | e => (e, [])

/-- The name of a member after a point. -/
def memberLabel : Rule Node := do
  match ← token with
  | .privateName _ => leaf .other
  | _ => labelName

/-- A computed member. -/
def computedMember (r : Rules) (start : Nat) (e : Node) : Rule Node := do
  expect "["
  let index ← r.innerExpression
  expect "]"
  finish .member start [e, index]

/-- Extends an operand that starts at `start` by a member, a template or type arguments; `chained`
tells whether it is an optional chain. -/
def memberStep (r : Rules) (start : Nat) (operand : Node × Bool) : Rule (Option (Node × Bool)) := do
  let (e, chained) := operand
  match ← token with
  | .sign "[" =>
    if (← context).decorating then return none
    return some (← computedMember r start e, chained)
  | .sign "." =>
    advance
    let name ← memberLabel
    return some (← finish .member start [e, name], chained)
  | .sign "?." =>
    if ← nextToken fun t _ => t == .sign "[" then
      advance
      return some (← computedMember r start e, true)
    else if ← nextToken fun t _ => t.word != "" || match t with
        | .privateName _ => true
        | _ => false then
      advance
      let name ← memberLabel
      return some (← finish .member start [e, name], true)
    else return none
  | .sign "!" =>
    if (← typed) && !(← onNewLine) then
      advance
      return some (← finish .assertion start [e], chained)
    return none
  | .sign "<" =>
    unless ← typed do return none
    match ← attempt (expressionTypeArguments r) with
    | some types => return some (← finish .instantiation start (e :: types), chained)
    | none => return none
  | .sign "<<" =>
    unless ← typed do return none
    match ← attempt (expressionTypeArguments r) with
    | some types => return some (← finish .instantiation start (e :: types), chained)
    | none => return none
  | .template _ _ =>
    faultIf chained
    let (tag, types) := splitInstantiation e
    let (parts, _) ← template r.innerExpression
    return some (← finish .other start (tag :: types ++ parts), chained)
  | _ => return none

/-- Extends an operand by all members that follow. -/
def memberRest (r : Rules) (start : Nat) (operand : Node × Bool) : Rule (Node × Bool) :=
  iterate (memberStep r start) operand

/-- A call of an operand, if one follows. -/
def callStep (r : Rules) (start : Nat) (operand : Node × Bool) : Rule (Option (Node × Bool)) := do
  if ← eat "?." then
    let types ← if (← typed) && (← isAtAny ["<", "<<"]) then typeArguments r else pure []
    let arguments ← callArguments r
    return some
      (← finish (.call arguments.length) start (operand.1 :: types ++ arguments), true)
  else if ← isAt "(" then
    let (callee, types) := splitInstantiation operand.1
    let arguments ← callArguments r
    return some
      (← finish (.call arguments.length) start (callee :: types ++ arguments), operand.2)
  else return none

/-- An operand with its members and calls. -/
def operandRule (r : Rules) : Rule Node := do
  let start ← here
  let first ← primary r
  let operand ← memberRest r start (first, false)
  let (e, chained) ← iterate (fun operand => do
    match ← callStep r start operand with
    | some operand => return some (← memberRest r start operand)
    | none => return none) operand
  if chained then finish .chain start [e] else return e

/-- The callee of `new`: an operand with its members. -/
def calleeRule (r : Rules) : Rule Node := do
  let start ← here
  let first ← primary r
  let (e, chained) ← memberRest r start (first, false)
  faultIf chained
  return e

/-! ### Operators -/

/-- Operators of one operand. -/
def isUnaryOperator : Token → Bool
  | .sign s => ["+", "-", "~", "!"].contains s
  | .name w _ => ["typeof", "void", "delete"].contains w
  | _ => false

/-- An operand with what is written directly before or after it. -/
def unaryRule (r : Rules) : Rule Node := do
  let start ← here
  let t ← token
  if isUnaryOperator t then
    advanceWord
    let e ← r .unary
    finish .unary start [e]
  else if (← typed) && (← isAtAny ["<", "<<"]) then
    splitAngles
    expect "<"
    let type ← if ← isAtWord "const" then leaf .other else r .type
    expect ">"
    let e ← r .unary
    finish .cast start [type, e]
  else if t.word == "await" && (← context).awaits then
    advanceWord
    let e ← r .unary
    finish .await start [e]
  else if ← isAtAny ["++", "--"] then
    advance
    let e ← r .unary
    unless e.isSimpleTarget do failure
    finish .other start [e]
  else
    let e ← operandRule r
    if (← isAtAny ["++", "--"]) && !(← onNewLine) then
      unless e.isSimpleTarget do failure
      advance
      finish .other start [e]
    else return e

/-- How tight a binary operator binds. -/
def operatorLevel : Token → Option Nat
  | .sign s =>
    if s == "??" then some 1
    else if s == "||" then some 2
    else if s == "&&" then some 3
    else if s == "|" then some 4
    else if s == "^" then some 5
    else if s == "&" then some 6
    else if ["==", "!=", "===", "!=="].contains s then some 7
    else if ["<", ">", "<=", ">="].contains s then some 8
    else if ["<<", ">>", ">>>"].contains s then some 9
    else if ["+", "-"].contains s then some 10
    else if ["*", "/", "%"].contains s then some 11
    else if s == "**" then some 12
    else none
  | .name w _ => if ["in", "instanceof", "as", "satisfies"].contains w then some 8 else none
  | _ => none

/-- The kind of a binary expression. -/
def binaryKind : Token → Kind
  | .sign s =>
    if s == "??" then .logical true
    else if s == "||" || s == "&&" then .logical false
    else .other
  | _ => .other

/-- Whether two operands may not be joined by an operator without parentheses: `??` next to the
other logical operators, and a unary operator before `**`. -/
def clashes (operator : Token) (left right : Node) : Bool :=
  match operator with
  | .sign s =>
    s == "??" && (left.kind == .logical false || right.kind == .logical false) ||
      s == "**" && (left.kind == .unary || left.kind == .await)
  | _ => false

/-- Extends an expression by an operator that binds tighter than `level`, or as tight and to the
right. -/
def binaryStep (r : Rules) (start level : Nat) (left : Node) : Rule (Option Node) := do
  relex lexAngles
  let t ← token
  match operatorLevel t with
  | none => return none
  | some tight =>
    if tight < level || tight == level && tight != 12 then return none
    if t.word == "in" && !(← context).operatorIn then return none
    if t.word == "as" || t.word == "satisfies" then
      if ← onNewLine then return none
      advanceWord
      faultIf !(← typed)
      let type ← if ← isAtWord "const" then leaf .other else r .type
      return some (← finish .assertion start [left, type])
    else
      advanceWord
      let right ← r (.binary tight)
      faultIf (clashes t left right)
      return some (← finish (binaryKind t) start [left, right])

/-- A binary expression whose operators bind tighter than `level`. -/
def binaryRule (r : Rules) (level : Nat) : Rule Node := do
  let start ← here
  let first ←
    match ← token with
    | .privateName _ =>
      let name ← leaf .other
      unless (← isAtWord "in") && (← context).operatorIn && level < 8 do failure
      pure name
    | _ => unaryRule r
  iterate (binaryStep r start level) first

/-! ### Arrow functions -/

/-- What a first look at a parenthesis says about an arrow function. -/
inductive Likelihood where
  | no
  | perhaps
  | yes
  deriving DecidableEq, Repr

/-- Whether a parenthesis opens the parameters of an arrow function. -/
def arrowParenthesis : Rule Likelihood := do
  expect "("
  let types ← typed
  match ← token with
  | .sign ")" =>
    advance
    if ← isAtAny ["=>", "\x7b"] then return .yes
    return if types && (← isAt ":") then .perhaps else .no
  | .sign "[" => return .perhaps
  | .sign "\x7b" => return .perhaps
  | .sign "..." =>
    advance
    return if (← token).isBinding then .yes else .perhaps
  | .sign "@" => return .perhaps
  | t =>
    unless t.isBinding || t.word == "this" do return .no
    if types && parameterModifiers.contains t.word &&
        (← nextToken fun t _ => t.isBinding && t.word != "as") then
      return .yes
    advance
    if types && (← isAt ":") then return .yes
    if ← eat "?" then
      return if types && (← isAtAny [":", ",", "=", ")"]) then .yes else .no
    return if ← isAtAny [",", "=", ")"] then .perhaps else .no

/-- Whether an arrow function with its parameters in parentheses can start here. -/
def arrowLikelihood : Rule Likelihood := do
  let found ← ahead do
    if ← isAtWord "async" then
      advance
      if ← onNewLine then failure
    if ← isAt "(" then arrowParenthesis
    else if (← typed) && (← isAt "<") then
      advance
      return if (← token).isBinding || (← isAtWord "const") then .perhaps else .no
    else failure
  return found.getD .no

/-- What an arrow function has before its arrow. -/
structure ArrowHead where
  start : Nat
  async : Bool
  parts : List Node
  hasType : Bool

/-- Parameters in parentheses, the type of the result, and the arrow. -/
def arrowHead (r : Rules) : Rule ArrowHead := do
  let start ← here
  let async ← eatWord "async"
  let types ← typeParameters r
  let ps ← within (fun c =>
    { c with operatorIn := true, awaits := c.awaits || async, decorating := false }) (parameters r)
  let result ← returnType r
  faultIf (← onNewLine)
  expect "=>"
  return ⟨start, async, types ++ ps ++ result, !result.isEmpty⟩

/-- The body of an arrow function. -/
def arrowBody (r : Rules) (head : ArrowHead) (arrowType : Bool) : Rule Node := do
  let body ←
    if ← isAt "\x7b" then within (inFunction head.async false) (block r)
    else
      within (fun c => { c with awaits := head.async, yields := false }) (r (.assignment arrowType))
  finish .other head.start (head.parts ++ [body])

/-- An arrow function that may turn out to be something else. -/
def possibleArrow (r : Rules) (arrowType : Bool) : Rule Node := do
  let head ← arrowHead r
  let e ← arrowBody r head arrowType
  if !arrowType && head.hasType then
    unless ← isAt ":" do failure
  return e

/-- An arrow function with its parameters in parentheses, if there is one. -/
def parenthesizedArrow (r : Rules) (arrowType : Bool) : Rule (Option Node) := do
  match ← arrowLikelihood with
  | .no => return none
  | .yes =>
    let head ← arrowHead r
    return some (← arrowBody r head arrowType)
  | .perhaps =>
    match ← ahead (arrowHead r) with
    | none => return none
    | some head =>
      if head.hasType && !arrowType then attempt (possibleArrow r arrowType)
      else return some (← possibleArrow r arrowType)

/-- An arrow function with one parameter without parentheses. -/
def simpleArrow (r : Rules) (start : Nat) (async : Bool) (parameter : Node) (arrowType : Bool) :
    Rule Node := do
  faultIf (← onNewLine)
  expect "=>"
  arrowBody r ⟨start, async, [parameter], false⟩ arrowType

/-- An asynchronous arrow function with one parameter without parentheses, if there is one. -/
def asyncArrow (r : Rules) (arrowType : Bool) : Rule (Option Node) := do
  unless ← isAtWord "async" do return none
  let found ← foresees do
    advance
    unless (← token).isBinding && !(← onNewLine) do return false
    advance
    return (← isAt "=>") && !(← onNewLine)
  unless found do return none
  let start ← here
  advanceWord
  let parameter ← within (fun c => { c with awaits := true }) bindingName
  return some (← simpleArrow r start true parameter arrowType)

/-! ### Assignments -/

/-- Operators that assign. -/
def assignmentOperators : List String :=
  ["=", "+=", "-=", "*=", "/=", "%=", "**=", "<<=", ">>=", ">>>=", "&=", "|=", "^=", "&&=", "||=",
    "??="]

/-- `yield` with what it gives out. -/
def yieldExpression (r : Rules) : Rule Node := do
  let start ← here
  advanceWord
  if ← onNewLine then finish .other start []
  else if ← eat "*" then
    let e ← r.value
    finish .other start [e]
  else if (← isAtAny [";", "\x7d", ")", "]", ":", ","]) || (← token) == .eof ||
      (← isAtWord "in") then
    finish .other start []
  else
    let e ← r.value
    finish .other start [e]

/-- The branches of a conditional, if there are some. -/
def conditionalRest (r : Rules) (start : Nat) (test : Node) (arrowType : Bool) : Rule Node := do
  if ← eat "?" then
    let yes ← within (fun c => { c with operatorIn := true, decorating := false })
      (r (.assignment false))
    expect ":"
    let no ← r (.assignment arrowType)
    finish .other start [test, yes, no]
  else return test

/-- The right side of an assignment. -/
def assignmentRest (r : Rules) (start : Nat) (operator : String) (left : Node) (arrowType : Bool) :
    Rule Node := do
  if operator == "=" then
    match left.asTarget? with
    | none => failure
    | some target =>
      advance
      let value ← r (.assignment arrowType)
      finish .assignment start [target, value]
  else
    unless left.isSimpleTarget do failure
    advance
    let value ← r (.assignment arrowType)
    finish .other start [left, value]

/-- An assignment or anything that binds tighter. -/
def assignmentRule (r : Rules) (arrowType : Bool) : Rule Node := do
  if (← isAtWord "yield") && (← context).yields then return ← yieldExpression r
  if let some e ← parenthesizedArrow r arrowType then return e
  if let some e ← asyncArrow r arrowType then return e
  let start ← here
  let left ← binaryRule r 0
  if left.isIdentifier && (← isAt "=>") then
    return ← simpleArrow r start false left arrowType
  match ← token with
  | .sign s =>
    if assignmentOperators.contains s then assignmentRest r start s left arrowType
    else conditionalRest r start left arrowType
  | _ => return left

/-- Assignments with commas between them. -/
def expressionRule (r : Rules) : Rule Node := do
  let start ← here
  let first ← r.value
  let others ← collect do
    if ← eat "," then return some (← r.value)
    return none
  if others.isEmpty then return first
  finish .other start (first :: others)

end Script

end CssRune
