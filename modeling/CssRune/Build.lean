/-
**Building.**

A build selects files, preprocesses each of them, and writes the results below an output directory.
If a file is refused the build ends before anything is written, unless it is told to go on.
-/

import CssRune.Build.Arguments
import CssRune.Build.Selection
import CssRune.Config
import CssRune.Preprocess

set_option autoImplicit false

namespace CssRune

/-! ### Notices -/

/-- What a build says. -/
inductive BuildNotice where
  | invalidPattern (pattern message : String)
  | noFiles
  /-- A file is refused. -/
  | refused (path message : String)
  /-- A result cannot be written. -/
  | unwritten (path : String) (e : FileError)
  /-- The end of a build with failures. -/
  | incomplete (failed done : Nat)
  /-- The end of a build without failures. -/
  | complete (done changed warnings : Nat)
  deriving DecidableEq, Repr

/-- The wording of a notice; `elapsed` is the number of seconds since the start. -/
def BuildNotice.message (elapsed : String) : BuildNotice → String
  | invalidPattern pattern message => s!"Invalid pattern {pattern}: {message}"
  | noFiles => "No .svelte files found matching the patterns"
  | refused path message => s!"Error preprocessing {path}:\n{message}"
  | unwritten path e => s!"Failed to write {path}: " ++ e.message
  | incomplete failed done => s!"✗ {failed} file(s) failed, {done} preprocessed in {elapsed}s"
  | complete done changed warnings =>
    let word := if done = 1 then "file" else "files"
    s!"✓ {done} {word} preprocessed ({changed} using $css, {warnings} warning(s)) in {elapsed}s"

/-! ### Results -/

/-- What becomes of a file. -/
structure FileResult where
  filename : String
  result : Preprocessed

def Span.toJson (s : Span) : Json := .object [("start", .nat s.start), ("end", .nat s.stop)]

/-- A map as JSON. -/
def SourceMap.toJson (m : SourceMap) : Json :=
  .object [("source", .string m.source), ("mappings", .array (m.mappings.map fun x =>
    .object [("original", x.origin.toJson), ("generated", x.generated.toJson)]))]

/-- The description of a result, without its map. -/
def FileResult.toJson (o : FileResult) : Json :=
  .object [("filename", .string o.filename), ("code", .string o.result.code),
    ("classNames", .object (o.result.names.entries.map fun e => (e.1, .string e.2))),
    ("warnings", .array (o.result.warnings.map .string))]

/-- Preprocesses a file of a tree. -/
def processFile (scripts : ScriptReader) (options : Options) (tree : FileTree) (f : SourceFile) :
    Except String FileResult := do
  let source ← (tree.read f.path).mapError fun e => "Failed to read file: " ++ e.message
  let result ← (preprocess scripts options f.path source).mapError (·.message f.path source)
  return ⟨f.path, result⟩

/-! ### Writing -/

/-- The names of the files that a result is written to, with their contents. -/
def FileResult.contents (o : FileResult) (host : Host) (format : BuildFormat) (name : String) :
    List (String × String) :=
  match format with
  | .stats => []
  | .code => [(name, o.result.code)]
  | .json =>
    (Path.withExtension name "json", host.writeJson o.toJson) ::
      (o.result.map.toList.map fun m =>
        (Path.withExtension name "map.json", host.writeJson m.toJson))

/-- Writes files into a directory, up to the first that cannot be written. -/
def writeFiles (host : Host) (directory : String) : List (String × String) → Disk Unit
  | [] => return
  | (name, content) :: rest => do
      host.writeFile (Path.child directory name) content
      writeFiles host directory rest

/-- Writes a result below the output directory, at the place the file had. -/
def placeResult (host : Host) (setting : BuildSetting) (f : SourceFile) (o : FileResult) :
    Disk Unit := do
  let directory := Path.join setting.output f.names.dropLast
  host.makeDirectories directory
  writeFiles host directory (o.contents host setting.format (f.names.getLast?.getD ""))

/-- Writes results one after the other, whether or not writing another one has failed: what became
of each, and the tree at the end. -/
def writeAll (host : Host) (setting : BuildSetting) :
    List (SourceFile × FileResult) → FileTree → List (SourceFile × Except FileError Unit) × FileTree
  | [], tree => ([], tree)
  | (f, o) :: rest, tree =>
    let first := (placeResult host setting f o).run.run tree
    let later := writeAll host setting rest first.2
    ((f, first.1) :: later.1, later.2)

/-! ### Builds -/

/-- How a command ended. -/
structure CommandResult where
  exitCode : Nat
  /-- What is written to standard output. -/
  output : String
  notices : List BuildNotice
  tree : FileTree

/-- The results among outcomes. -/
def results (outcomes : List (SourceFile × Except String FileResult)) :
    List (SourceFile × FileResult) :=
  outcomes.filterMap fun o => o.2.toOption.map fun r => (o.1, r)

/-- The notices about what has failed among outcomes. -/
def failures {ε α : Type} (notice : SourceFile → ε → BuildNotice)
    (outcomes : List (SourceFile × Except ε α)) : List BuildNotice :=
  outcomes.filterMap fun o =>
    match o.2 with
    | .error e => some (notice o.1 e)
    | .ok _ => none

/-- The refusals among outcomes. -/
def refusals (outcomes : List (SourceFile × Except String FileResult)) : List BuildNotice :=
  failures (fun f message => .refused f.path message) outcomes

/-- The results that could not be written. -/
def unwritten (writes : List (SourceFile × Except FileError Unit)) : List BuildNotice :=
  failures (fun f e => .unwritten f.pathBelow e) writes

/-- The last notice of a build. -/
def summary (failed : Nat) (done : List FileResult) : BuildNotice :=
  if failed = 0 then
    .complete done.length (done.countP (·.result.map.isSome))
      (done.foldl (fun n o => n + o.result.warnings.length) 0)
  else .incomplete failed done.length

/-- What a build writes of its results, and the tree at the end: nothing if it only counts. -/
def buildWrites (host : Host) (setting : BuildSetting)
    (outcomes : List (SourceFile × Except String FileResult)) (tree : FileTree) :
    List (SourceFile × Except FileError Unit) × FileTree :=
  if setting.format = .stats then ([], tree) else writeAll host setting (results outcomes) tree

/-- Ends a build whose files were preprocessed with the given outcomes. -/
def finishBuild (host : Host) (setting : BuildSetting)
    (outcomes : List (SourceFile × Except String FileResult)) (tree : FileTree) : CommandResult :=
  let refused := refusals outcomes
  if outcomes.isEmpty then ⟨1, "", [.noFiles], tree⟩
  else if refused.isEmpty || setting.continueOnError then
    let writes := buildWrites host setting outcomes tree
    let failed := refused.length + (unwritten writes.1).length
    let last := summary failed ((results outcomes).map (·.2))
    ⟨if failed = 0 then 0 else 1, "", refused ++ unwritten writes.1 ++ [last], writes.2⟩
  else ⟨1, "", refused.take 1, tree⟩

/-- What becomes of the files of a build. -/
def buildOutcomes (host : Host) (setting : BuildSetting) (tree : FileTree) :
    List (SourceFile × Except String FileResult) :=
  let config := Config.load host (tree.read configFile).toOption
  let options := setting.options host.sum64 config.options
  (select host tree setting.patterns).files.map fun f =>
    (f, processFile host.scripts options tree f)

/-- A whole build. -/
def build (host : Host) (setting : BuildSetting) (tree : FileTree) : CommandResult :=
  let invalid := (select host tree setting.patterns).invalid.map fun p =>
    BuildNotice.invalidPattern p.1 p.2
  let result := finishBuild host setting (buildOutcomes host setting tree) tree
  { result with notices := invalid ++ result.notices }

/-! ### Commands -/

def versionText : String := "sigil 0.3.0\n"

/-- What is said about the use. -/
def helpText : String :=
  "Usage: sigil [build] [PATTERNS]... [-o DIRECTORY] [-f code|json|stats] [--hash djb2|xxh3]\n" ++
  "  [--mixed-use-warnings off|use|all] [--increase-specificity] [-j THREADS]\n" ++
  "  [--continue-on-error]\n"

/-- Does what a command line asks for; one that asks for nothing known ends with code 2. -/
def runCommand (host : Host) (arguments : List String) (tree : FileTree) : CommandResult :=
  match Command.parse arguments with
  | none => ⟨2, "", [], tree⟩
  | some .version => ⟨0, versionText, [], tree⟩
  | some .help => ⟨0, helpText, [], tree⟩
  | some (.build setting) => build host setting tree

end CssRune
