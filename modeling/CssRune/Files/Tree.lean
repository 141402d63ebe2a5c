/-
**File trees.**

A file tree holds files and directories at locations, and knows in which directory relative paths
start.  Operations on it fail for the reasons, and leave behind what, a file system would.

Main results:

* `FileTree.get?_set` — what is where after a change.
-/

import CssRune.Files.Path
import CssRune.Lists

set_option autoImplicit false

namespace CssRune

/-- A place in a file tree: the names on the way from the root. -/
abbrev Location := List String

/-- What is at a place. -/
inductive FileNode where
  | file (content : String)
  | directory
  deriving DecidableEq, Repr

/-- Why an operation on files fails. -/
inductive FileError where
  | notFound
  | alreadyExists
  | notDirectory
  | isDirectory
  | nameTooLong
  /-- Any other reason, as the system words it. -/
  | other (message : String)
  deriving DecidableEq, Repr

/-- What is said about a failure. -/
def FileError.message : FileError → String
  | notFound => "No such file or directory (os error 2)"
  | alreadyExists => "File exists (os error 17)"
  | notDirectory => "Not a directory (os error 20)"
  | isDirectory => "Is a directory (os error 21)"
  | nameTooLong => "File name too long (os error 36)"
  | other message => message

/-- Files and directories, and the directory where relative paths start.  The root is a directory
without being listed. -/
structure FileTree where
  here : Location
  entries : List (Location × FileNode)

namespace FileTree

def get? (t : FileTree) (l : Location) : Option FileNode :=
  if l.isEmpty then some .directory else t.entries.lookup l

/-- Puts something at a place, in place of what was there. -/
def set (t : FileTree) (l : Location) (node : FileNode) : FileTree :=
  { t with entries := (l, node) :: t.entries.filter (·.1 != l) }

/-- After something was put at a place it is there, and all else is as before. -/
theorem get?_set (t : FileTree) {l : Location} (hl : l ≠ []) (node : FileNode) (other : Location) :
    (t.set l node).get? other = if other = l then some node else t.get? other := by
  by_cases ho : other = l
  · subst ho
    simp [get?, set, hl]
  · have : (other == l) = false := by simpa using ho
    simp [get?, set, List.lookup_cons, this, ho, lookup_filter_ne ho]

/-! ### Looking -/

def maxNameSize : Nat := 255

/-- Takes one step from a place, which has to be a directory. -/
def follow (t : FileTree) (l : Location) (step : PathStep) : Except FileError Location :=
  match t.get? l with
  | none => .error .notFound
  | some (.file _) => .error .notDirectory
  | some .directory =>
    match step with
    | .root => .ok []
    | .current => .ok l
    | .parent => .ok l.dropLast
    | .name name =>
      if maxNameSize < name.utf8ByteSize then .error .nameTooLong else .ok (l ++ [name])

/-- Takes several steps from a place. -/
def followAll (t : FileTree) (l : Location) : List PathStep → Except FileError Location
  | [] => .ok l
  | s :: ss => do
      let l ← t.follow l s
      followAll t l ss

/-- The place that steps lead to, whether or not anything is there. -/
def resolve (t : FileTree) (steps : List PathStep) : Except FileError Location :=
  t.followAll t.here steps

/-- What steps lead to. -/
def find (t : FileTree) (steps : List PathStep) : Except FileError FileNode := do
  let l ← t.resolve steps
  match t.get? l with
  | some node => .ok node
  | none => .error .notFound

/-- Whether a path leads to a directory; the empty path leads nowhere. -/
def isDirectory (t : FileTree) (path : String) : Bool :=
  match t.find (Path.steps path) with
  | .ok .directory => path != ""
  | _ => false

/-- The content of a file. -/
def read (t : FileTree) (path : String) : Except FileError String := do
  match ← t.find (Path.steps path) with
  | .file content => .ok content
  | .directory => .error .isDirectory

def isHidden (name : String) : Bool := name.toList.head? == some '.'

/-- The names that lead from a place to another one below it. -/
def namesBelow? (l other : Location) : Option (List String) :=
  if l.isPrefixOf other && l.length < other.length then some (other.drop l.length) else none

/-- All that is below a directory and not hidden, as the names that lead there. -/
def below (t : FileTree) (path : String) : List (List String) :=
  match t.resolve (Path.steps path) with
  | .error _ => []
  | .ok l =>
    if t.isDirectory path then
      (t.entries.filterMap fun e => namesBelow? l e.1).filter fun names => !names.any isHidden
    else []

end FileTree

/-! ### Changing -/

/-- Operations that change a file tree and may fail; a failure leaves behind what was done. -/
abbrev Disk := ExceptT FileError (StateM FileTree)

namespace Disk

/-- A check on the tree as an operation. -/
def check {α : Type} (f : FileTree → Except FileError α) : Disk α := do
  match f (← get) with
  | .ok a => return a
  | .error e => throw e

/-- Makes a directory where nothing is. -/
def makeDirectory (steps : List PathStep) : Disk Unit := do
  let l ← check (·.resolve steps)
  match (← get).get? l with
  | some _ => throw .alreadyExists
  | none => modify (·.set l .directory)

/-- Makes a directory, unless there is one. -/
def ensureDirectory (steps : List PathStep) : Disk Unit :=
  tryCatch (makeDirectory steps) fun e => do
    match (← get).find steps with
    | .ok .directory => return
    | _ => throw e

/-- Makes a directory and those on the way to it, given the steps in reverse. -/
def createReversed : List PathStep → Disk Unit
  | [] => return
  | s :: ss =>
    tryCatch (ensureDirectory (s :: ss).reverse) fun e => do
      if e = .notFound then
        createReversed ss
        ensureDirectory (s :: ss).reverse
      else throw e

/-- Makes a directory and those on the way to it, unless they exist. -/
def createDirectories (steps : List PathStep) : Disk Unit := createReversed steps.reverse

/-- Writes a file, in place of one that was there. -/
def write (steps : List PathStep) (content : String) : Disk Unit := do
  let l ← check (·.resolve steps)
  match (← get).get? l with
  | some .directory => throw .isDirectory
  | _ => modify (·.set l (.file content))

end Disk

/-! ### Whole trees -/

namespace FileTree

/-- A tree of one directory, where relative paths start. -/
def empty (here : Location) : FileTree :=
  ⟨here, (List.range here.length).map fun n => (here.take (n + 1), .directory)⟩

/-- Puts a file into a tree, with the directories on the way to it. -/
def add (t : FileTree) (path content : String) : FileTree :=
  let steps := Path.steps path
  let act : Disk Unit := do
    Disk.createDirectories steps.dropLast
    Disk.write steps content
  (act.run.run t).2

/-- The tree of a list of files with their contents. -/
def ofFiles (here : Location) (files : List (String × String)) : FileTree :=
  files.foldl (fun t f => t.add f.1 f.2) (empty here)

/-- The files of a tree that another tree does not have, or has with another content. -/
def changes (before after : FileTree) : List (Location × String) :=
  after.entries.filterMap fun e =>
    match e.2 with
    | .file content =>
      if before.get? e.1 = some (.file content) then none else some (e.1, content)
    | .directory => none

end FileTree

end CssRune
