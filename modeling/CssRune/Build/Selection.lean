/-
**Which files a build works on.**

A pattern says in which directory to look and what the paths of components look like.  The files of
all patterns are put in order, and a file that several patterns select counts once.
-/

import CssRune.Host
import CssRune.Lists

set_option autoImplicit false

namespace CssRune

/-- A selected file: the directory that was looked through, as it was written, and the names that
lead from there to the file. -/
structure SourceFile where
  root : String
  names : List String
  deriving DecidableEq, Repr

namespace SourceFile

def path (f : SourceFile) : String := Path.join f.root f.names

/-- The path of a file below the directory that was looked through. -/
def pathBelow (f : SourceFile) : String := Path.join "" f.names

def steps (f : SourceFile) : List PathStep := Path.steps f.path

end SourceFile

/-! ### Patterns -/

def componentExtension : String := "svelte"

/-- Whether a character makes a text a pattern. -/
def isWildcard (c : Char) : Bool := c == '*' || c == '?' || c == '['

/-- A text with slashes in place of backslashes. -/
def withSlashes (text : String) : String :=
  String.ofList (text.toList.map fun c => if c = '\\' then '/' else c)

/-- The text before the last slash. -/
def beforeLastSlash? (cs : List Char) : Option (List Char) :=
  match cs.reverse.dropWhile (· ≠ '/') with
  | [] => none
  | _ :: above => some above.reverse

def withoutEndSlashes (text : String) : String :=
  String.ofList (text.toList.reverse.dropWhile (· == '/')).reverse

/-- Where a pattern with wildcards looks: in the directory before the first of them. -/
def splitWildcards (pattern : String) : String × String :=
  match beforeLastSlash? (pattern.toList.takeWhile fun c => !isWildcard c) with
  | none => (".", "./" ++ pattern)
  | some root => (if root.isEmpty then "." else String.ofList root, pattern)

/-- Where a path looks: in the directory of the file it names. -/
def splitFile (path : String) : String × String :=
  match Path.parent? path with
  | none => (".", path)
  | some parent =>
    let parent := if parent = "" then "." else parent
    (parent, if parent = "." ∧ ¬"./".toList.isPrefixOf path.toList then "./" ++ path else path)

/-- Where a pattern looks, and the glob that the paths there are compared with.  A directory stands
for all components below it. -/
def splitPattern (tree : FileTree) (pattern : String) : String × String :=
  if pattern.toList.any isWildcard then splitWildcards pattern
  else if tree.isDirectory pattern then
    let root := withoutEndSlashes pattern
    (root, root ++ "/**/*." ++ componentExtension)
  else splitFile pattern

/-! ### Files -/

/-- Whether a file is a component with a path that fits. -/
def isSelected (fits : String → Bool) (f : SourceFile) : Bool :=
  (f.names.getLast?.bind Path.extension?) == some componentExtension && fits (withSlashes f.path)

/-- The files that one pattern selects. -/
def selectPattern (host : Host) (tree : FileTree) (pattern : String) :
    Except String (List SourceFile) := do
  let (root, glob) := splitPattern tree pattern
  let fits ← host.glob (withSlashes glob)
  return ((host.walk tree root).map fun names => ⟨root, names⟩).filter (isSelected fits)

/-- A list without the elements that are the same as the one kept last. -/
def distinctAfter {α : Type} (same : α → α → Bool) (a : α) : List α → List α
  | [] => []
  | b :: bs => if same a b then distinctAfter same a bs else b :: distinctAfter same b bs

/-- A list without repetitions in a row. -/
def distinct {α : Type} (same : α → α → Bool) : List α → List α
  | [] => []
  | a :: as => a :: distinctAfter same a as

/-- Files in the order of their paths, each once. -/
def inPathOrder (files : List SourceFile) : List SourceFile :=
  distinct (fun a b => a.steps == b.steps)
    (sortBy (fun a b => Path.precedes a.steps b.steps) files)

/-- The outcome of several patterns: what is wrong with some, and the files of the others. -/
structure Selection where
  invalid : List (String × String)
  files : List SourceFile

/-- The files that patterns select; a text that is no pattern selects none. -/
def select (host : Host) (tree : FileTree) (patterns : List String) : Selection :=
  let outcomes := patterns.map fun p => (p, selectPattern host tree p)
  { invalid := outcomes.filterMap fun o =>
      match o.2 with
      | .error e => some (o.1, e)
      | .ok _ => none
    files := inPathOrder (outcomes.flatMap fun o =>
      match o.2 with
      | .error _ => []
      | .ok files => files) }

end CssRune
