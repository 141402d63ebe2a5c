/-
**Reading components.**

Top-level script and style elements are split off; everything else is markup.  Expressions in the
markup are in the language that the script tags in the source announce.
-/

import CssRune.Component
import CssRune.Markup.Reader
import CssRune.Style.Sheet.Reader

set_option autoImplicit false

namespace CssRune

/-! ### Languages -/

/-- The ways in which a script tag announces types. -/
def typeScriptMarks : List String :=
  ["lang=\"ts\"", "lang='ts'", "lang=\"typescript\"", "lang='typescript'"]

/-- Whether a text starts with a script tag that announces types. -/
def opensTypeScript (cs : List Char) : Bool :=
  "<script".toList.isPrefixOf cs && cs.contains '>' &&
    typeScriptMarks.any fun mark => Text.occurs mark.toList (cs.takeWhile (· ≠ '>'))

/-- Whether a script tag in the text announces types. -/
def announcesTypeScript : List Char → Bool
  | [] => false
  | c :: cs => opensTypeScript (c :: cs) || announcesTypeScript cs

/-- The language of the expressions in the markup of a component. -/
def detectLang (cs : List Char) : ScriptLang :=
  if announcesTypeScript cs then .typeScript else .javaScript

/-! ### Scripts and stylesheets -/

/-- The scripts and the stylesheet found so far. -/
structure Regions where
  instanceScript : Option ScriptBlock
  moduleScript : Option ScriptBlock
  style : Option StyleSheet

def Regions.empty : Regions := ⟨none, none, none⟩

/-- Adds a script; there may be one of each kind. -/
def Regions.addScript (r : Regions) (s : ScriptBlock) : Except ParseError Regions :=
  match s.context with
  | .instance_ =>
    if r.instanceScript.isSome then .error ⟨.duplicate "script", s.span.start⟩
    else .ok { r with instanceScript := some s }
  | .module_ =>
    if r.moduleScript.isSome then .error ⟨.duplicate "script module", s.span.start⟩
    else .ok { r with moduleScript := some s }

/-- The text of an attribute that is nothing but text. -/
def staticValue? (attributes : List AttributeNode) (name : String) : Option String :=
  (attribute? attributes name).bind fun a => a.value.staticText?.map (·.data)

/-- When the script of a tag runs. -/
def contextOf (attributes : List AttributeNode) : ScriptContext :=
  if (attribute? attributes "module").isSome ||
      staticValue? attributes "context" == some "module" then .module_
  else .instance_

/-- The language that a script tag names. -/
def langOf (attributes : List AttributeNode) : ScriptLang :=
  match staticValue? attributes "lang" with
  | some name => if name = "ts" ∨ name = "typescript" then .typeScript else .javaScript
  | none => .javaScript

/-- Whether a tag opens a region of its own at the top level. -/
def OpeningTag.isSpecial (tag : OpeningTag) : Bool :=
  !tag.selfClosing && (tag.name == "script" || tag.name == "style")

/-- Reads the script of a tag. -/
def readScriptBlock (scripts : ScriptReader) (tag : OpeningTag) (raw : RawContent) (span : Span) :
    Except ParseError ScriptBlock :=
  match scripts.program (langOf tag.attributes) raw.text.toList with
  | some program =>
    .ok ⟨contextOf tag.attributes, langOf tag.attributes, program, raw.span, span⟩
  | none => .error ⟨.script, raw.span.start⟩

/-- Adds the region of a tag to the regions found so far. -/
def addRegion (scripts : ScriptReader) (source : List Char) (regions : Regions) (tag : OpeningTag)
    (raw : RawContent) (span : Span) : Except ParseError Regions :=
  if tag.name = "style" then
    if regions.style.isSome then .error ⟨.duplicate "style", tag.start⟩
    else do
      let sheet ← readStyleSheet source raw.span span
      return { regions with style := some sheet }
  else do
    let s ← readScriptBlock scripts tag raw span
    regions.addScript s

/-! ### Components -/

/-- Reads the nodes at the top level up to the end of the source. -/
def readTop (setting : ScriptSetting) (source : List Char) (regions : Regions) (c : Cursor) :
    Except ParseError (List MarkupNode × Regions) := do
  match ← readLeaf setting c with
  | some leaf =>
    have := leaf.shorter
    let (nodes, regions) ← readTop setting source regions leaf.next
    return (leaf.value :: nodes, regions)
  | none =>
    match h : c.rest with
    | [] => return ([], regions)
    | '<' :: '/' :: cs =>
      let tag ← readClosingTag c cs h
      throw ⟨.notOpen tag.value, c.pos⟩
    | '<' :: cs =>
      let tag ← readOpeningTag setting c cs h
      have := tag.shorter
      if tag.value.isSpecial then
        let raw ← readRaw tag.value.name tag.next
        have := raw.shorter
        let regions ← addRegion setting.reader source regions tag.value raw.value
          ⟨tag.value.start, raw.next.pos⟩
        readTop setting source regions raw.next
      else
        let body ← readBodyWith setting tag.value tag.next
          (fun _ => readChildren setting tag.value.name tag.next)
        have := body.noLonger
        let (nodes, regions) ← readTop setting source regions body.next
        return (elementOf tag.value body.value body.next.pos :: nodes, regions)
    | _ => return ([], regions)
termination_by c.length
decreasing_by all_goals omega

/-- Reads a component. -/
def Component.read (scripts : ScriptReader) (source : String) : Except ParseError Component := do
  let cs := source.toList
  let (nodes, regions) ← readTop ⟨scripts, detectLang cs⟩ cs Regions.empty ⟨0, cs⟩
  return ⟨source, nodes, regions.instanceScript, regions.moduleScript, regions.style⟩

end CssRune
