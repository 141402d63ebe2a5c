/-
**What operations leave of a file tree.**

Operations on a file tree never remove anything: they make directories where nothing was and put
files where no directory is.  So a path that could be followed can still be followed afterwards, and
a file can only be lost to one that is written at the same place.

Main results:

* `FileTree.Grown.read_eq_ok` — a file stays unless another one is written at its place;
* `Disk.keepsFiles_createDirectories`, `Disk.grown_write` — how operations let trees grow;
* `Disk.read_of_write` — a file that was written can be read.
-/

import CssRune.Files.Tree
import CssRune.Proofs.Files.Paths
import CssRune.Proofs.Reading

set_option autoImplicit false

namespace CssRune

namespace FileTree

/-! ### Following paths -/

/-- Where a step leads from a place. -/
def stepFrom (l : Location) : PathStep → Location
  | .root => []
  | .current => l
  | .parent => l.dropLast
  | .name name => l ++ [name]

/-- Where steps lead from a place if nothing is in the way. -/
def locate (l : Location) (steps : List PathStep) : Location := steps.foldl stepFrom l

theorem locate_names (l : Location) (steps : List PathStep) (names : List String) :
    locate l (steps ++ names.map .name) = locate l steps ++ names := by
  induction names generalizing steps with
  | nil => simp
  | cons name names ih =>
    have hstep := ih (steps ++ [.name name])
    simpa [locate, stepFrom] using hstep

/-- Where a path leads if nothing is in the way. -/
def place (t : FileTree) (path : String) : Location := locate t.here (Path.steps path)

variable {t t' : FileTree} {l l' : Location} {steps : List PathStep} {node : FileNode}

theorem follow_eq_ok {step : PathStep} (h : t.follow l step = .ok l') :
    t.get? l = some .directory ∧ l' = stepFrom l step := by
  unfold follow at h
  split at h
  · cases h
  · cases h
  · rename_i hl
    refine ⟨hl, ?_⟩
    cases step with
    | name name =>
      dsimp only at h
      split at h
      · cases h
      · exact (Except.ok.inj h).symm
    | _ => exact (Except.ok.inj h).symm

theorem follow_congr (step : PathStep) (h : t.get? l = t'.get? l) :
    t.follow l step = t'.follow l step := by
  simp only [follow, h]

theorem followAll_eq_ok (h : t.followAll l steps = .ok l') : l' = locate l steps := by
  induction steps generalizing l with
  | nil => exact (Except.ok.inj h).symm
  | cons step steps ih =>
    obtain ⟨next, hnext, hrest⟩ := bind_eq_ok_iff.1 h
    rw [ih hrest, (follow_eq_ok hnext).2]
    rfl

/-- Steps that could be followed can be followed in a tree with the same directories. -/
theorem followAll_mono (hdirectory : ∀ l, t.get? l = some .directory → t'.get? l = some .directory)
    (h : t.followAll l steps = .ok l') : t'.followAll l steps = .ok l' := by
  induction steps generalizing l with
  | nil => exact h
  | cons step steps ih =>
    obtain ⟨next, hnext, hrest⟩ := bind_eq_ok_iff.1 h
    have hl := (follow_eq_ok hnext).1
    rw [follow_congr step (hl.trans (hdirectory l hl).symm)] at hnext
    exact bind_eq_ok_iff.2 ⟨next, hnext, ih hrest⟩

theorem find_eq_ok_iff :
    t.find steps = .ok node ↔ ∃ l, t.resolve steps = .ok l ∧ t.get? l = some node := by
  refine bind_eq_ok_iff.trans (exists_congr fun l => and_congr_right fun _ => ?_)
  cases t.get? l with
  | none => simp
  | some other => simp

/-- What is read is the content of the file that the path leads to. -/
theorem read_eq_ok_iff {path content : String} :
    t.read path = .ok content ↔
      ∃ l, t.resolve (Path.steps path) = .ok l ∧ t.get? l = some (.file content) := by
  rw [← find_eq_ok_iff]
  constructor
  · intro h
    obtain ⟨node, hfind, hnode⟩ := bind_eq_ok_iff.1 h
    cases node with
    | directory => cases hnode
    | file c =>
      cases hnode
      exact hfind
  · intro h
    exact bind_eq_ok_iff.2 ⟨.file content, h, rfl⟩

/-! ### Growing -/

/-- What a tree may have become when files were written at some places. -/
structure Grown (places : List Location) (t t' : FileTree) : Prop where
  /-- Relative paths start where they did. -/
  here : t'.here = t.here
  /-- Directories stay. -/
  directory : ∀ l, t.get? l = some .directory → t'.get? l = some .directory
  /-- A place holds what it held, or a directory if it held nothing, or it is one of the places and
  holds a file. -/
  node : ∀ l, t'.get? l = t.get? l ∨ (t.get? l = none ∧ t'.get? l = some .directory) ∨
    (l ∈ places ∧ ∃ content, t'.get? l = some (.file content))

namespace Grown

variable {places more : List Location} {t t' t'' : FileTree}

theorem refl (places : List Location) (t : FileTree) : Grown places t t :=
  ⟨rfl, fun _ h => h, fun _ => Or.inl rfl⟩

theorem mono (h : Grown places t t') (hplaces : places ⊆ more) : Grown more t t' :=
  ⟨h.here, h.directory, fun l => (h.node l).imp_right fun hnew =>
    hnew.imp_right fun hfile => ⟨hplaces hfile.1, hfile.2⟩⟩

theorem trans (h : Grown places t t') (h' : Grown places t' t'') : Grown places t t'' := by
  refine ⟨h'.here.trans h.here, fun l hl => h'.directory l (h.directory l hl), fun l => ?_⟩
  rcases h'.node l with hsame | ⟨hnone, hdirectory⟩ | hfile
  · rw [hsame]
    exact h.node l
  · -- Where something was put in the meantime, no directory is made.
    rcases h.node l with hold | ⟨_, hmade⟩ | ⟨_, content, hwritten⟩
    · exact Or.inr (Or.inl ⟨hold.symm.trans hnone, hdirectory⟩)
    · rw [hnone] at hmade
      cases hmade
    · rw [hnone] at hwritten
      cases hwritten
  · exact Or.inr (Or.inr hfile)

theorem append (h : Grown places t t') (h' : Grown more t' t'') : Grown (places ++ more) t t'' :=
  (h.mono (List.subset_append_left ..)).trans (h'.mono (List.subset_append_right ..))

theorem resolve (h : Grown places t t') {steps : List PathStep} {l : Location}
    (hl : t.resolve steps = .ok l) : t'.resolve steps = .ok l := by
  unfold FileTree.resolve at hl ⊢
  rw [h.here]
  exact followAll_mono h.directory hl

/-- A file stays unless another one is written at its place. -/
theorem read_eq_ok (h : Grown places t t') {path content : String}
    (hread : t.read path = .ok content) (hplace : t.place path ∉ places) :
    t'.read path = .ok content := by
  obtain ⟨l, hl, hget⟩ := read_eq_ok_iff.1 hread
  refine read_eq_ok_iff.2 ⟨l, h.resolve hl, ?_⟩
  rcases h.node l with hkept | ⟨hnone, _⟩ | ⟨hmem, _⟩
  · exact hkept.trans hget
  · rw [hnone] at hget
    cases hget
  · rw [followAll_eq_ok hl] at hmem
    exact absurd hmem hplace

theorem place_eq (h : Grown places t t') (path : String) : t'.place path = t.place path := by
  rw [place, place, h.here]

end Grown

theorem ne_nil_of_get?_ne (h : t.get? l ≠ some .directory) : l ≠ [] := by
  rintro rfl
  exact h rfl

/-- A node at a place where no directory is. -/
theorem grown_set (hl : t.get? l ≠ some .directory) {places : List Location}
    (hnode : (t.get? l = none ∧ node = .directory) ∨
      (l ∈ places ∧ ∃ content, node = .file content)) : Grown places t (t.set l node) := by
  have hget := get?_set t (ne_nil_of_get?_ne hl) node
  refine ⟨rfl, fun other hother => ?_, fun other => ?_⟩
  · have hne : other ≠ l := by
      rintro rfl
      exact hl hother
    rw [hget, if_neg hne, hother]
  · rw [hget]
    by_cases heq : other = l
    · subst heq
      rw [if_pos rfl]
      rcases hnode with ⟨hnone, rfl⟩ | ⟨hmem, content, rfl⟩
      · exact Or.inr (Or.inl ⟨hnone, rfl⟩)
      · exact Or.inr (Or.inr ⟨hmem, content, rfl⟩)
    · rw [if_neg heq]
      exact Or.inl rfl

end FileTree

/-! ### Operations -/

namespace Disk

variable {α β : Type}

variable {m : Disk α} {f : α → Disk β} {t t' : FileTree} {a : α} {e : FileError}

theorem run_bind_of_ok (h : m.run.run t = (.ok a, t')) :
    (m >>= f).run.run t = (f a).run.run t' := by
  simp only [ExceptT.run_bind, StateT.run_bind, h]
  rfl

theorem run_bind_of_error (h : m.run.run t = (.error e, t')) :
    (m >>= f).run.run t = (.error e, t') := by
  simp only [ExceptT.run_bind, StateT.run_bind, h]
  rfl

/-- An operation that succeeds goes on from where a first one succeeded. -/
theorem run_bind_eq_ok {b : β} (h : (m >>= f).run.run t = (.ok b, t')) :
    ∃ a t₁, m.run.run t = (.ok a, t₁) ∧ (f a).run.run t₁ = (.ok b, t') := by
  rcases hrun : m.run.run t with ⟨e | a, t₁⟩
  · rw [run_bind_of_error hrun] at h
    cases h
  · rw [run_bind_of_ok hrun] at h
    exact ⟨a, t₁, rfl, h⟩

theorem run_tryCatch_of_ok {f : FileError → Disk α} (h : m.run.run t = (.ok a, t')) :
    (tryCatch m f).run.run t = (.ok a, t') := by
  simp only [tryCatch, tryCatchThe, MonadExceptOf.tryCatch, ExceptT.tryCatch, ExceptT.run_mk,
    StateT.run_bind]
  rw [show StateT.run m t = (.ok a, t') from h]
  rfl

theorem run_tryCatch_of_error {f : FileError → Disk α} (h : m.run.run t = (.error e, t')) :
    (tryCatch m f).run.run t = (f e).run.run t' := by
  simp only [tryCatch, tryCatchThe, MonadExceptOf.tryCatch, ExceptT.tryCatch, ExceptT.run_mk,
    StateT.run_bind]
  rw [show StateT.run m t = (.error e, t') from h]
  rfl

theorem run_get_bind (f : FileTree → Disk β) (t : FileTree) :
    ((get : Disk FileTree) >>= f).run.run t = (f t).run.run t := rfl

theorem run_check (f : FileTree → Except FileError α) (t : FileTree) :
    (check f).run.run t = (f t, t) := by
  unfold check
  rw [run_get_bind]
  cases f t <;> rfl

/-- Makes a directory where nothing is, or fails and changes nothing. -/
theorem run_makeDirectory (steps : List PathStep) (t : FileTree) :
    (∃ l, t.get? l = none ∧ (makeDirectory steps).run.run t = (.ok (), t.set l .directory)) ∨
    ∃ e, (makeDirectory steps).run.run t = (.error e, t) := by
  unfold makeDirectory
  have hcheck := run_check (·.resolve steps) t
  cases hl : t.resolve steps with
  | error e =>
    rw [hl] at hcheck
    exact Or.inr ⟨e, run_bind_of_error hcheck⟩
  | ok l =>
    rw [hl] at hcheck
    rw [run_bind_of_ok hcheck, run_get_bind]
    cases hget : t.get? l with
    | some node => exact Or.inr ⟨.alreadyExists, rfl⟩
    | none => exact Or.inl ⟨l, hget, rfl⟩

/-- Writes a file where no directory is, or fails and changes nothing. -/
theorem run_write (steps : List PathStep) (content : String) (t : FileTree) :
    (∃ l, t.resolve steps = .ok l ∧ t.get? l ≠ some .directory ∧
      (write steps content).run.run t = (.ok (), t.set l (.file content))) ∨
    ∃ e, (write steps content).run.run t = (.error e, t) := by
  unfold write
  have hcheck := run_check (·.resolve steps) t
  cases hl : t.resolve steps with
  | error e =>
    rw [hl] at hcheck
    exact Or.inr ⟨e, run_bind_of_error hcheck⟩
  | ok l =>
    rw [hl] at hcheck
    rw [run_bind_of_ok hcheck, run_get_bind]
    cases hget : t.get? l with
    | none => exact Or.inl ⟨l, rfl, by simp [hget], rfl⟩
    | some node =>
      cases node with
      | directory => exact Or.inr ⟨.isDirectory, rfl⟩
      | file _ => exact Or.inl ⟨l, rfl, by simp [hget], rfl⟩

/-! ### What operations keep -/

/-- An operation changes no file, also if it fails. -/
def KeepsFiles (m : Disk α) : Prop := ∀ t, FileTree.Grown [] t (m.run.run t).2

theorem KeepsFiles.bind (hm : KeepsFiles m) (hf : ∀ a, KeepsFiles (f a)) :
    KeepsFiles (m >>= f) := by
  intro t
  have hfirst := hm t
  rcases hrun : m.run.run t with ⟨e | a, t'⟩
  · rw [hrun] at hfirst
    rwa [run_bind_of_error hrun]
  · rw [hrun] at hfirst
    rw [run_bind_of_ok hrun]
    exact hfirst.trans (hf a t')

theorem KeepsFiles.tryCatch {f : FileError → Disk α} (hm : KeepsFiles m)
    (hf : ∀ e, KeepsFiles (f e)) : KeepsFiles (MonadExcept.tryCatch m f) := by
  intro t
  have hfirst := hm t
  rcases hrun : m.run.run t with ⟨e | a, t'⟩
  · rw [hrun] at hfirst
    rw [run_tryCatch_of_error hrun]
    exact hfirst.trans (hf e t')
  · rw [hrun] at hfirst
    rwa [run_tryCatch_of_ok hrun]

theorem keepsFiles_ensureDirectory (steps : List PathStep) :
    KeepsFiles (ensureDirectory steps) := by
  have hmake : KeepsFiles (makeDirectory steps) := by
    intro t
    rcases run_makeDirectory steps t with ⟨l, hget, hrun⟩ | ⟨e, hrun⟩
    · rw [hrun]
      exact FileTree.grown_set (by simp [hget]) (Or.inl ⟨hget, rfl⟩)
    · rw [hrun]
      exact FileTree.Grown.refl [] t
  refine hmake.tryCatch fun e t => ?_
  rw [run_get_bind]
  split
  · exact FileTree.Grown.refl [] t
  · exact FileTree.Grown.refl [] t

/-- Making directories changes no file. -/
theorem keepsFiles_createDirectories (steps : List PathStep) :
    KeepsFiles (createDirectories steps) := by
  unfold createDirectories
  induction steps.reverse with
  | nil => exact FileTree.Grown.refl []
  | cons s ss ih =>
    have hwhole := keepsFiles_ensureDirectory (s :: ss).reverse
    refine hwhole.tryCatch fun e => ?_
    -- The directory is tried once more when those above it have been made.
    split
    · exact ih.bind fun _ => hwhole
    · exact FileTree.Grown.refl []

/-- Writing a file changes nothing else. -/
theorem grown_write (path content : String) (t : FileTree) :
    FileTree.Grown [t.place path] t ((write (Path.steps path) content).run.run t).2 := by
  rcases run_write (Path.steps path) content t with ⟨l, hl, hget, hrun⟩ | ⟨e, hrun⟩
  · rw [hrun]
    refine FileTree.grown_set hget (Or.inr ⟨?_, content, rfl⟩)
    rw [FileTree.followAll_eq_ok hl]
    exact List.mem_singleton_self _
  · rw [hrun]
    exact FileTree.Grown.refl _ t

/-- A file that was written can be read. -/
theorem read_of_write {path content : String}
    (h : (write (Path.steps path) content).run.run t = (.ok (), t')) :
    t'.read path = .ok content := by
  have hgrown := grown_write path content t
  rcases run_write (Path.steps path) content t with ⟨l, hl, hget, hrun⟩ | ⟨e, hrun⟩
  · rw [hrun] at hgrown h
    cases h
    refine FileTree.read_eq_ok_iff.2 ⟨l, hgrown.resolve hl, ?_⟩
    rw [FileTree.get?_set t (FileTree.ne_nil_of_get?_ne hget), if_pos rfl]
  · rw [hrun] at h
    cases h

end Disk

end CssRune
