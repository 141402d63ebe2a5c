/-
**What a build leaves to others.**

A build does not look through directories, compare paths with globs, read and write JSON, read
scripts, compute the hash of 64 bits or change files by itself: all that is done by its host.  What
a build does is defined, and proved, for every host.
-/

import CssRune.Files.Tree
import CssRune.Json
import CssRune.Script.Reader

set_option autoImplicit false

namespace CssRune

structure Host where
  scripts : ScriptReader
  /-- The hash of 64 bits of the bytes of a text. -/
  sum64 : Array UInt8 → UInt64
  /-- What is found below a directory, as the names that lead there.  A host may leave out what is
  hidden or what a file in the tree says is to be ignored. -/
  walk : FileTree → String → List (List String)
  /-- Reads a glob: what is wrong with it, or which paths fit it. -/
  glob : String → Except String (String → Bool)
  readJson : String → Option Json
  /-- A JSON value as it is written into a file. -/
  writeJson : Json → String
  /-- Makes the directory with a path and those on the way to it, unless they exist. -/
  makeDirectories : String → Disk Unit
  /-- Writes a text to the file with a path, in place of what was there. -/
  writeFile : String → String → Disk Unit

end CssRune
