/-
**The command line.**

The files to choose from are listed on standard input, one path a line.  Components and the
configuration are read, the command is run on the tree they make up, and the files in which the
outcome differs are written.
-/

import CssRune.Build
import CssRune.Host.Standard

set_option autoImplicit false

namespace CssRune

/-- The lines of a stream. -/
partial def readLines (stream : IO.FS.Stream) : IO (List String) := do
  let line ← stream.getLine
  if line.isEmpty then return []
  let text := String.ofList (line.toList.filter (· != '\n'))
  return text :: (← readLines stream)

/-- The content of a file, if a command can ask for it. -/
def readWanted (path : String) : IO String := do
  let name := (Path.segments path).getLast?.getD ""
  if Path.extension? name == some componentExtension || name == configFile then
    IO.FS.readFile path
  else return ""

/-- The tree of the listed files. -/
def readTree : IO FileTree := do
  let here := (Path.segments (toString (← IO.currentDir))).filter (· != "")
  let paths ← readLines (← IO.getStdin)
  let files ← (paths.filter (· != "")).mapM fun path => return (path, ← readWanted path)
  return FileTree.ofFiles here files

/-- Writes a file at a place, with the directories on the way to it. -/
def writeChange (change : Location × String) : IO Unit := do
  IO.FS.createDirAll ("/" ++ "/".intercalate change.1.dropLast)
  IO.FS.writeFile ("/" ++ "/".intercalate change.1) change.2

/-- A number of milliseconds in seconds, with four places. -/
def seconds (ms : Nat) : String :=
  toString (ms / 1000) ++ "." ++ String.ofList (Text.padded 3 (toString (ms % 1000)).toList) ++ "0"

/-- Runs a command line. -/
def runMain (arguments : List String) : IO UInt32 := do
  let start ← IO.monoMsNow
  let tree ← match Command.parse arguments with
    | some (.build _) => readTree
    | _ => pure (FileTree.empty [])
  let result := runCommand .standard arguments tree
  (FileTree.changes tree result.tree).forM writeChange
  IO.print result.output
  let elapsed := seconds ((← IO.monoMsNow) - start)
  for notice in result.notices do
    IO.eprintln (notice.message elapsed)
  if result.exitCode == 2 then IO.eprint helpText
  return result.exitCode.toUInt32

end CssRune

def main (arguments : List String) : IO UInt32 := CssRune.runMain arguments
