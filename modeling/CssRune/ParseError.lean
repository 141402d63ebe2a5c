/-
**Why a component cannot be read.**
-/

set_option autoImplicit false

namespace CssRune

/-- What is wrong with the text of a component. -/
inductive SyntaxFault where
  /-- A certain character is missing. -/
  | expected (char : Char)
  /-- An expression is blank. -/
  | expressionExpected
  /-- A script or an expression does not follow the grammar of its language. -/
  | script
  | unterminatedComment
  | unterminatedString
  /-- An element has no closing tag. -/
  | leftOpen (name : String)
  /-- A closing tag has no element. -/
  | notOpen (name : String)
  | elementName
  /-- The source ends inside an opening tag. -/
  | endInTag (name : String)
  | shorthandName
  | attributeName
  | attributeValue
  | unterminatedValue
  | directiveName
  | directiveValue
  | blockKeyword
  /-- A block tag lacks its expression. -/
  | blockExpression (keyword : String)
  | constAssignment
  /-- A second top-level element of a kind that may occur once. -/
  | duplicate (tag : String)
  | unexpectedBrace
  | atRuleName
  | declaration
  | propertyName
  | selector
  | selectorCharacter
  | identifier
  /-- The reader cannot move on: the end of its range cuts a comment opener in two. -/
  | stalled
  deriving DecidableEq, Repr

/-- The wording of a fault. -/
def SyntaxFault.message : SyntaxFault → String
  | expected char => "Expected " ++ String.singleton char
  | expressionExpected => "Expected an expression"
  | script => "<js>"
  | unterminatedComment => "Unterminated comment"
  | unterminatedString => "Unterminated string"
  | leftOpen name => s!"<{name}> was left open"
  | notOpen name => s!"</{name}> attempted to close an element that was not open"
  | elementName => "Expected a valid element or component name"
  | endInTag name => s!"Unexpected end of input in <{name}>"
  | shorthandName => "Expected an identifier in attribute shorthand"
  | attributeName => "Expected attribute name"
  | attributeValue => "Expected attribute value"
  | unterminatedValue => "Unterminated attribute value"
  | directiveName => "Directive needs a name"
  | directiveValue => "Directive value must be a JavaScript expression enclosed in curly braces"
  | blockKeyword => "Expected a block keyword"
  | blockExpression keyword => "\x7b#" ++ keyword ++ "\x7d requires an expression"
  | constAssignment => "\x7b@const\x7d requires an assignment"
  | duplicate tag => s!"A component can have a single top-level <{tag}> element"
  | unexpectedBrace => "Unexpected \x7d"
  | atRuleName => "Expected at-rule name"
  | declaration => "Expected a declaration"
  | propertyName => "Expected a property name"
  | selector => "Expected a selector"
  | selectorCharacter => "Unexpected character in selector"
  | identifier => "Expected an identifier"
  | stalled => "The reader cannot move on"

/-- A fault at an offset of the source. -/
structure ParseError where
  fault : SyntaxFault
  offset : Nat
  deriving DecidableEq, Repr

end CssRune
