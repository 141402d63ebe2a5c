/-
**The law of hosts.**

Whatever a host leaves out of a walk, what it passes are entries of directories, which have plain
names.  Whether or not an operation on files succeeds, it changes no file but the one it is to
write: making directories may fail at any of them, and a file that could not be written may be left
with any content.  Nothing is asked of globs, of JSON, or of the reasons for which operations fail.

Main results:

* `Host.lawful_standard` — the law can be met.
-/

import CssRune.Host.Standard
import CssRune.Proofs.Files.Trees

set_option autoImplicit false

namespace CssRune

/-- A tree is proper if the names of all places are plain. -/
def FileTree.Proper (t : FileTree) : Prop := ∀ e ∈ t.entries, ∀ name ∈ e.1, Path.Plain name

instance (t : FileTree) : Decidable t.Proper :=
  inferInstanceAs (Decidable (∀ e ∈ t.entries, ∀ name ∈ e.1, Path.Plain name))

structure Host.Lawful (host : Host) : Prop where
  /-- The names of what is found are names of entries. -/
  walk : ∀ tree : FileTree, tree.Proper → ∀ root, ∀ names ∈ host.walk tree root,
    ∀ name ∈ names, Path.Plain name
  makeDirectories : ∀ path, Disk.KeepsFiles (host.makeDirectories path)
  /-- Writing a file changes no other one, whether or not it fails. -/
  writeFile : ∀ path content t,
    FileTree.Grown [t.place path] t ((host.writeFile path content).run.run t).2
  /-- A file that was written can be read. -/
  read : ∀ path content t t', (host.writeFile path content).run.run t = (.ok (), t') →
    t'.read path = .ok content

theorem FileTree.plain_of_mem_below {t : FileTree} (ht : t.Proper) {path : String}
    {names : List String} (h : names ∈ t.below path) : ∀ name ∈ names, Path.Plain name := by
  unfold below at h
  split at h
  · cases h
  · split at h
    · obtain ⟨e, he, hbelow⟩ := List.mem_filterMap.1 (List.mem_filter.1 h).1
      unfold namesBelow? at hbelow
      split at hbelow
      · cases hbelow
        exact fun name hname => ht e he name (List.mem_of_mem_drop hname)
      · cases hbelow
    · cases h

/-- The law of hosts can be met. -/
theorem Host.lawful_standard : Host.standard.Lawful where
  walk tree htree root names hnames := by
    change names ∈ (if root = "-" then [] else tree.below root) at hnames
    split at hnames
    · cases hnames
    · exact FileTree.plain_of_mem_below htree hnames
  makeDirectories path := Disk.keepsFiles_createDirectories (Path.steps path)
  writeFile := Disk.grown_write
  read _ _ _ _ := Disk.read_of_write

end CssRune
