/-
**A host.**

This host passes all that is not hidden, reads the usual globs, and keeps files in a tree.
-/

import CssRune.Files.Glob
import CssRune.Hash.Xxh3
import CssRune.Host
import CssRune.Json.Reader
import CssRune.Script.Grammar

set_option autoImplicit false

namespace CssRune

namespace Host

/-- Which paths a glob fits. -/
def fits (pattern : String) : Except String (String → Bool) :=
  match Glob.parse pattern with
  | .ok tokens => .ok (Glob.isMatch tokens)
  | .error e => .error e.message

def standard : Host where
  scripts := .grammar
  sum64 := Hash.Xxh3.hash
  -- A dash does not name a directory.
  walk tree root := if root = "-" then [] else tree.below root
  glob := fits
  readJson := Json.read
  writeJson := Json.pretty
  makeDirectories path := Disk.createDirectories (Path.steps path)
  writeFile path content := Disk.write (Path.steps path) content

end Host

end CssRune
