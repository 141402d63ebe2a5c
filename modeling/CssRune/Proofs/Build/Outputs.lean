/-
**What a build leaves in its output directory.**

A result is written at the place its file had below the directory that was looked through.  Two
files that were found in different directories can have the same place, and the map of one component
can have the name that the description of another one has.  These are the only ways in which results
can clash.  If none clash, all that the build wrote is there afterwards; otherwise what was written
later takes the place of what was written before, and nothing is said about it.  All this holds for
every lawful host: whatever its walk leaves out, whatever fits its globs, however it writes JSON and
whichever operations on files fail.

Main results:

* `disjoint_outputs_iff` — results without a path in common are those that do not clash;
* `forall₂_writeAll` — results at different places are there if they could be written;
* `read_of_writeAll` — what remains of the files of a result;
* `build_keeps_outputs` — **no output is lost unless results clash**;
* `build_loses_outputs` — **some builds lose an output and report success**.
-/

import Mathlib.Data.List.Forall2
import Mathlib.Data.List.Nodup
import CssRune.Build
import CssRune.Proofs.Build.Selections

set_option autoImplicit false

namespace CssRune

/-! ### Paths of outputs -/

/-- The files that are written for a result, as their paths with their contents. -/
def BuildSetting.outputs (setting : BuildSetting) (host : Host) (r : SourceFile × FileResult) :
    List (String × String) :=
  (r.2.contents host setting.format (r.1.names.getLast?.getD "")).map fun c =>
    (Path.join setting.output (r.1.names.dropLast ++ [c.1]), c.2)

/-- The map of a component has the name that the description of another one has. -/
def MapClash (a b : SourceFile × FileResult) : Prop :=
  a.2.result.map.isSome = true ∧ ∃ directory stem,
    a.1.names = directory ++ [stem ++ ".svelte"] ∧ b.1.names = directory ++ [stem ++ ".map.svelte"]

/-- Results are in each other's way: their files have the same place below different directories, or
the map of one has the name that the description of the other has. -/
def Clash (format : BuildFormat) (a b : SourceFile × FileResult) : Prop :=
  (a.1.root ≠ b.1.root ∧ a.1.names = b.1.names) ∨
    (format = .json ∧ (MapClash a b ∨ MapClash b a))

variable {directory directory' : List String} {stem stem' rest : String} {host : Host}
  {setting : BuildSetting} {r a b : SourceFile × FileResult}

theorem concat_stem_inj :
    directory ++ [stem ++ rest] = directory' ++ [stem' ++ rest] ↔
      directory = directory' ∧ stem = stem' := by
  rw [List.append_singleton_inj, String.append_left_inj]

/-- A stem in a directory with something longer than two characters after it. -/
theorem plain_concat (hdirectory : ∀ name ∈ directory, Path.Plain name) (hstem : '/' ∉ stem.toList)
    (hrest : '/' ∉ rest.toList) (hlength : 2 < rest.toList.length) :
    ∀ name ∈ directory ++ [stem ++ rest], Path.Plain name := by
  intro name hname
  rcases List.mem_append.1 hname with hname | hname
  · exact hdirectory name hname
  · rw [List.mem_singleton.1 hname]
    have hlong : 2 < (stem ++ rest).toList.length := by
      rw [String.toList_append, List.length_append]
      omega
    refine ⟨?_, by simp [hstem, hrest], ?_, ?_⟩
    all_goals
      intro h
      simp [h] at hlong

/-- The names of a component are those of its directory and a stem with the extension, and another
extension can take the place of that one. -/
structure SourceFile.HasStem (f : SourceFile) (directory : List String) (stem : String) : Prop where
  names : f.names = directory ++ [stem ++ ".svelte"]
  plain : ∀ name ∈ directory, Path.Plain name
  slash : '/' ∉ stem.toList
  withExtension : ∀ other, Path.withExtension (stem ++ ".svelte") other = stem ++ "." ++ other

theorem SourceFile.IsComponent.exists_stem {f : SourceFile} (h : f.IsComponent) :
    ∃ directory stem, f.HasStem directory stem := by
  obtain ⟨directory, name, hnames, hextension⟩ := h.exists_names
  obtain ⟨stem, _, rfl, hother⟩ := Path.exists_stem_of_extension? hextension
  have hdot : stem ++ "." ++ "svelte" = stem ++ ".svelte" := String.append_assoc
  have hplain := h.plain
  rw [hdot] at hnames hother
  rw [hnames] at hplain
  refine ⟨directory, stem, hnames, fun n hn => hplain n (List.mem_append_left _ hn), ?_, hother⟩
  intro hmem
  have hslash := (hplain _ (List.mem_append_right _ (List.mem_singleton.2 rfl))).slash
  exact hslash (by simp [hmem])

/-- The path of the description of the component with a stem in a directory. -/
def jsonPath (setting : BuildSetting) (directory : List String) (stem : String) : String :=
  Path.join setting.output (directory ++ [stem ++ ".json"])

theorem outputs_stats (hformat : setting.format = .stats) : setting.outputs host r = [] := by
  simp [BuildSetting.outputs, FileResult.contents, hformat]

theorem outputs_code (hformat : setting.format = .code) (hr : r.1.HasStem directory stem) :
    setting.outputs host r = [(Path.join setting.output r.1.names, r.2.result.code)] := by
  simp [BuildSetting.outputs, FileResult.contents, hformat, hr.names]

/-- The description of a component is written beside its map, which is named for the description
of a component whose stem is longer. -/
theorem outputs_json (hformat : setting.format = .json) (hr : r.1.HasStem directory stem) :
    setting.outputs host r = (jsonPath setting directory stem, host.writeJson r.2.toJson) ::
      r.2.result.map.toList.map fun m =>
        (jsonPath setting directory (stem ++ ".map"), host.writeJson m.toJson) := by
  have hjson : stem ++ "." ++ "json" = stem ++ ".json" := String.append_assoc
  have hmap : stem ++ "." ++ "map.json" = stem ++ ".map" ++ ".json" := by
    rw [String.append_assoc, String.append_assoc]
    rfl
  simp [BuildSetting.outputs, FileResult.contents, jsonPath, hformat, hr.names, hr.withExtension,
    hjson, hmap]

/-- The outputs of a component have plain names. -/
theorem plain_of_mem_contents {f : SourceFile} (hf : f.IsComponent) {o : FileResult}
    {format : BuildFormat} {c : String × String}
    (h : c ∈ o.contents host format (f.names.getLast?.getD "")) : Path.Plain c.1 := by
  obtain ⟨directory, stem, hstem⟩ := hf.exists_stem
  have hlast : f.names.getLast?.getD "" = stem ++ ".svelte" := by simp [hstem.names]
  have hplain : ∀ rest : String, '/' ∉ rest.toList → 2 < rest.toList.length →
      Path.Plain (stem ++ rest) := fun rest hslash hlength =>
    plain_concat hstem.plain hstem.slash hslash hlength _
      (List.mem_append_right _ (List.mem_singleton.2 rfl))
  rw [hlast] at h
  cases format with
  | stats => cases h
  | code =>
    rw [List.mem_singleton.1 h]
    exact hplain ".svelte" (by decide) (by decide)
  | json =>
    rw [FileResult.contents, hstem.withExtension, hstem.withExtension, String.append_assoc,
      String.append_assoc] at h
    rcases List.mem_cons.1 h with rfl | h
    · exact hplain ("." ++ "json") (by decide) (by decide)
    · obtain ⟨m, _, rfl⟩ := List.mem_map.1 h
      exact hplain ("." ++ "map.json") (by decide) (by decide)

/-- The outputs of a component are at plain names below the output directory. -/
theorem exists_names_of_mem_outputs (hr : r.1.IsComponent) {output : String × String}
    (h : output ∈ setting.outputs host r) :
    ∃ names, (∀ name ∈ names, Path.Plain name) ∧ output.1 = Path.join setting.output names := by
  obtain ⟨c, hc, rfl⟩ := List.mem_map.1 h
  refine ⟨r.1.names.dropLast ++ [c.1], fun name hname => ?_, rfl⟩
  rcases List.mem_append.1 hname with hname | hname
  · exact hr.plain name (List.dropLast_subset _ hname)
  · rw [List.mem_singleton.1 hname]
    exact plain_of_mem_contents hr hc

/-! ### Clashes -/

theorem jsonPath_inj (setting : BuildSetting) (hdirectory : ∀ name ∈ directory, Path.Plain name)
    (hstem : '/' ∉ stem.toList) (hdirectory' : ∀ name ∈ directory', Path.Plain name)
    (hstem' : '/' ∉ stem'.toList) :
    jsonPath setting directory stem = jsonPath setting directory' stem' ↔
      directory = directory' ∧ stem = stem' := by
  unfold jsonPath
  rw [Path.join_inj _ (plain_concat hdirectory hstem (by decide) (by decide))
    (plain_concat hdirectory' hstem' (by decide) (by decide)), concat_stem_inj]

theorem mapClash_iff (ha : a.1.HasStem directory stem) (hb : b.1.HasStem directory' stem') :
    MapClash a b ↔
      a.2.result.map.isSome = true ∧ directory = directory' ∧ stem ++ ".map" = stem' := by
  have hmap : ∀ s : String, s ++ ".map.svelte" = s ++ ".map" ++ ".svelte" := fun s => by
    rw [String.append_assoc]
    rfl
  unfold MapClash
  simp only [ha.names, hb.names, hmap, concat_stem_inj]
  refine and_congr_right fun _ => ⟨?_, ?_⟩
  · rintro ⟨_, _, ⟨rfl, rfl⟩, rfl, rfl⟩
    exact ⟨rfl, rfl⟩
  · rintro ⟨rfl, rfl⟩
    exact ⟨directory, stem, ⟨rfl, rfl⟩, rfl, rfl⟩

theorem mem_paths_json (hformat : setting.format = .json) (hr : r.1.HasStem directory stem)
    (path : String) :
    path ∈ (setting.outputs host r).map Prod.fst ↔ path = jsonPath setting directory stem ∨
      (r.2.result.map.isSome = true ∧ path = jsonPath setting directory (stem ++ ".map")) := by
  rw [outputs_json hformat hr]
  cases r.2.result.map with
  | none => simp
  | some m => simp

/-- The paths of the outputs of a result are different. -/
theorem nodup_outputs (hr : r.1.IsComponent) : ((setting.outputs host r).map Prod.fst).Nodup := by
  obtain ⟨directory, stem, hstem⟩ := hr.exists_stem
  cases hformat : setting.format with
  | stats => simp [outputs_stats hformat]
  | code => simp [outputs_code hformat hstem]
  | json =>
    have hne : jsonPath setting directory stem ≠ jsonPath setting directory (stem ++ ".map") := by
      rw [Ne, jsonPath_inj setting hstem.plain hstem.slash hstem.plain (by simp [hstem.slash])]
      rintro ⟨_, heq⟩
      simpa using congrArg String.length heq
    rw [outputs_json hformat hstem]
    cases r.2.result.map with
    | none => simp
    | some m => simp [hne]

/-- Results without a path in common are those that do not clash. -/
theorem disjoint_outputs_iff (hformat : setting.format ≠ .stats) (ha : a.1.IsComponent)
    (hb : b.1.IsComponent) :
    List.Disjoint ((setting.outputs host a).map Prod.fst) ((setting.outputs host b).map Prod.fst) ↔
      ¬(a.1.names = b.1.names ∨ (setting.format = .json ∧ (MapClash a b ∨ MapClash b a))) := by
  obtain ⟨directory, stem, hstem⟩ := ha.exists_stem
  obtain ⟨directory', stem', hstem'⟩ := hb.exists_stem
  cases hcase : setting.format with
  | stats => exact absurd hcase hformat
  | code =>
    have hinj := Path.join_inj setting.output hb.plain ha.plain
    rw [outputs_code hcase hstem, outputs_code hcase hstem']
    simpa [hinj] using not_congr eq_comm
  | json =>
    -- Each side has a description and perhaps a map, so paths can meet in four ways.
    have hslash : '/' ∉ (stem ++ ".map").toList := by simp [hstem.slash]
    have hslash' : '/' ∉ (stem' ++ ".map").toList := by simp [hstem'.slash]
    rw [hstem.names, hstem'.names, concat_stem_inj, mapClash_iff hstem hstem',
      mapClash_iff hstem' hstem]
    have hinj := jsonPath_inj setting hstem.plain hstem.slash hstem'.plain hstem'.slash
    have hleft := jsonPath_inj setting hstem.plain hslash hstem'.plain hstem'.slash
    have hright := jsonPath_inj setting hstem.plain hstem.slash hstem'.plain hslash'
    have hboth := jsonPath_inj setting hstem.plain hslash hstem'.plain hslash'
    rw [String.append_left_inj] at hboth
    constructor
    · intro hdisjoint hclash
      have hcommon : ∃ path, path ∈ (setting.outputs host a).map Prod.fst ∧
          path ∈ (setting.outputs host b).map Prod.fst := by
        simp only [mem_paths_json hcase hstem, mem_paths_json hcase hstem']
        rcases hclash with hsame | ⟨_, ⟨hmap, hsame⟩ | ⟨hmap, rfl, hsame⟩⟩
        · exact ⟨_, Or.inl rfl, Or.inl (hinj.2 hsame)⟩
        · exact ⟨_, Or.inr ⟨hmap, rfl⟩, Or.inl (hleft.2 hsame)⟩
        · exact ⟨_, Or.inl rfl, Or.inr ⟨hmap, hright.2 ⟨rfl, hsame.symm⟩⟩⟩
      obtain ⟨path, hpath, hpath'⟩ := hcommon
      exact hdisjoint hpath hpath'
    · intro hclash path hpath hpath'
      rw [mem_paths_json hcase hstem] at hpath
      rw [mem_paths_json hcase hstem'] at hpath'
      refine hclash ?_
      rcases hpath with rfl | ⟨hmap, rfl⟩
      · rcases hpath' with heq | ⟨hmap, heq⟩
        · exact Or.inl (hinj.1 heq)
        · obtain ⟨rfl, hsame⟩ := hright.1 heq
          exact Or.inr ⟨rfl, Or.inr ⟨hmap, rfl, hsame.symm⟩⟩
      · rcases hpath' with heq | ⟨_, heq⟩
        · exact Or.inr ⟨rfl, Or.inl ⟨hmap, hleft.1 heq⟩⟩
        · exact Or.inl (hboth.1 heq)

/-- Results have no path in common if and only if no two of them clash. -/
theorem nodup_flatMap_outputs_iff (hformat : setting.format ≠ .stats)
    {done : List (SourceFile × FileResult)} (hdone : ∀ r ∈ done, r.1.IsComponent)
    (hsteps : done.Pairwise fun a b => a.1.steps ≠ b.1.steps) :
    ((done.flatMap (setting.outputs host)).map Prod.fst).Nodup ↔
      done.Pairwise fun a b => ¬Clash setting.format a b := by
  rw [List.map_flatMap, List.nodup_flatMap]
  have heach : ∀ r ∈ done, ((setting.outputs host r).map Prod.fst).Nodup :=
    fun r hr => nodup_outputs (hdone r hr)
  -- Files with the same names are in different directories, as their paths differ.
  have hiff : ∀ {a b}, a ∈ done → b ∈ done → a.1.steps ≠ b.1.steps →
      (((setting.outputs host a).map Prod.fst).Disjoint ((setting.outputs host b).map Prod.fst) ↔
        ¬Clash setting.format a b) := by
    intro a b ha hb hne
    rw [disjoint_outputs_iff hformat (hdone a ha) (hdone b hb)]
    have hroot : a.1.names = b.1.names → a.1.root ≠ b.1.root := by
      intro hnames hroot
      exact hne (by rw [SourceFile.steps, SourceFile.path, hnames, hroot]; rfl)
    refine not_congr (or_congr_left ?_)
    exact ⟨fun h => ⟨hroot h, h⟩, And.right⟩
  rw [and_iff_right heach]
  constructor
  · intro h
    exact (hsteps.and h).imp_of_mem fun ha hb hab => (hiff ha hb hab.1).1 hab.2
  · intro h
    exact (hsteps.and h).imp_of_mem fun ha hb hab => (hiff ha hb hab.1).2 hab.2

/-! ### Places -/

/-- The places of outputs. -/
def FileTree.places (t : FileTree) (outputs : List (String × String)) : List Location :=
  outputs.map fun o => t.place o.1

/-- Outputs at the same place have the same path. -/
theorem eq_of_place_eq (ha : a.1.IsComponent) (hb : b.1.IsComponent) {x y : String × String}
    (hx : x ∈ setting.outputs host a) (hy : y ∈ setting.outputs host b) {t : FileTree}
    (h : t.place x.1 = t.place y.1) : x.1 = y.1 := by
  obtain ⟨names, hnames, hpath⟩ := exists_names_of_mem_outputs ha hx
  obtain ⟨names', hnames', hpath'⟩ := exists_names_of_mem_outputs hb hy
  unfold FileTree.place at h
  rw [hpath, hpath', Path.steps_join _ hnames, Path.steps_join _ hnames', FileTree.locate_names,
    FileTree.locate_names, List.append_cancel_left_eq] at h
  rw [hpath, hpath', h]

/-- Outputs with different paths are at different places. -/
theorem nodup_places {done : List (SourceFile × FileResult)} (hdone : ∀ r ∈ done, r.1.IsComponent)
    (h : ((done.flatMap (setting.outputs host)).map Prod.fst).Nodup) (t : FileTree) :
    (t.places (done.flatMap (setting.outputs host))).Nodup := by
  have hplaces : t.places (done.flatMap (setting.outputs host)) =
      ((done.flatMap (setting.outputs host)).map Prod.fst).map t.place := by
    simp [FileTree.places]
  rw [hplaces]
  refine h.map_on fun p hp q hq heq => ?_
  obtain ⟨x, hx, rfl⟩ := List.mem_map.1 hp
  obtain ⟨y, hy, rfl⟩ := List.mem_map.1 hq
  obtain ⟨a, ha, hxa⟩ := List.mem_flatMap.1 hx
  obtain ⟨b, hb, hyb⟩ := List.mem_flatMap.1 hy
  exact eq_of_place_eq (hdone a ha) (hdone b hb) hxa hyb heq

theorem nodup_places_outputs (hr : r.1.IsComponent) (t : FileTree) :
    (t.places (setting.outputs host r)).Nodup := by
  have hone : [r].flatMap (setting.outputs host) = setting.outputs host r :=
    List.flatMap_singleton ..
  rw [← hone]
  refine nodup_places (List.forall_mem_singleton.2 hr) ?_ t
  rw [hone]
  exact nodup_outputs hr

/-! ### Writing -/

/-- Files as they are written into a directory. -/
def filesIn (directory : String) (files : List (String × String)) : List (String × String) :=
  files.map fun c => (Path.child directory c.1, c.2)

theorem filesIn_eq_outputs :
    filesIn (Path.join setting.output r.1.names.dropLast)
      (r.2.contents host setting.format (r.1.names.getLast?.getD "")) = setting.outputs host r := by
  simp only [filesIn, BuildSetting.outputs, Path.join_concat]

theorem FileTree.Grown.places_eq {ls : List Location} {t t' : FileTree} (h : Grown ls t t')
    (outputs : List (String × String)) : t'.places outputs = t.places outputs := by
  simp only [places, h.place_eq]

section Files

variable (hlaw : host.Lawful)

include hlaw

/-- Writing files changes no other file. -/
theorem grown_writeFiles (directory : String) (files : List (String × String)) (t : FileTree) :
    FileTree.Grown (t.places (filesIn directory files)) t
      ((writeFiles host directory files).run.run t).2 := by
  induction files generalizing t with
  | nil => exact FileTree.Grown.refl _ t
  | cons file rest ih =>
    have hfirst := hlaw.writeFile (Path.child directory file.1) file.2 t
    rw [writeFiles]
    rcases hrun : (host.writeFile (Path.child directory file.1) file.2).run.run t with ⟨e | _, t'⟩
    · rw [hrun] at hfirst
      rw [Disk.run_bind_of_error hrun]
      exact hfirst.mono (List.subset_append_left ..)
    · rw [hrun] at hfirst
      rw [Disk.run_bind_of_ok hrun]
      have hrest := ih t'
      rw [hfirst.places_eq] at hrest
      exact hfirst.append hrest

/-- Files that were written at different places can all be read. -/
theorem read_of_writeFiles {directory : String} {files : List (String × String)} {t t' : FileTree}
    (hplaces : (t.places (filesIn directory files)).Nodup)
    (h : (writeFiles host directory files).run.run t = (.ok (), t')) :
    ∀ file ∈ filesIn directory files, t'.read file.1 = .ok file.2 := by
  induction files generalizing t with
  | nil => exact fun file hfile => absurd hfile List.not_mem_nil
  | cons first rest ih =>
    rw [writeFiles] at h
    have hfirst := hlaw.writeFile (Path.child directory first.1) first.2 t
    obtain ⟨_, t₁, hrun, h⟩ := Disk.run_bind_eq_ok h
    rw [hrun] at hfirst
    obtain ⟨hnew, hplaces⟩ := List.nodup_cons.1 hplaces
    have hrest := grown_writeFiles hlaw directory rest t₁
    rw [h, hfirst.places_eq] at hrest
    intro file hfile
    rcases List.mem_cons.1 hfile with rfl | hfile
    · exact hrest.read_eq_ok (hlaw.read _ _ _ _ hrun) (by rwa [hfirst.place_eq])
    · exact ih (by rwa [hfirst.places_eq]) h file hfile

/-- Writing a result changes no file but its outputs. -/
theorem grown_placeResult (setting : BuildSetting) (r : SourceFile × FileResult) (t : FileTree) :
    FileTree.Grown (t.places (setting.outputs host r)) t
      ((placeResult host setting r.1 r.2).run.run t).2 := by
  have hmade := hlaw.makeDirectories (Path.join setting.output r.1.names.dropLast) t
  have hnone : [] ⊆ t.places (setting.outputs host r) := List.nil_subset _
  unfold placeResult
  rcases hrun : (host.makeDirectories (Path.join setting.output r.1.names.dropLast)).run.run t with
    ⟨e | _, t₁⟩
  · rw [hrun] at hmade
    rw [Disk.run_bind_of_error hrun]
    exact hmade.mono hnone
  · rw [hrun] at hmade
    rw [Disk.run_bind_of_ok hrun]
    have hwritten := grown_writeFiles hlaw (Path.join setting.output r.1.names.dropLast)
      (r.2.contents host setting.format (r.1.names.getLast?.getD "")) t₁
    rw [filesIn_eq_outputs, hmade.places_eq] at hwritten
    exact (hmade.mono hnone).trans hwritten

/-- The outputs of a result that was written can be read. -/
theorem read_of_placeResult {t : FileTree} (hplaces : (t.places (setting.outputs host r)).Nodup)
    (h : ((placeResult host setting r.1 r.2).run.run t).1.isOk = true) :
    ∀ output ∈ setting.outputs host r,
      ((placeResult host setting r.1 r.2).run.run t).2.read output.1 = .ok output.2 := by
  rcases hrun : (placeResult host setting r.1 r.2).run.run t with ⟨e | _, t'⟩
  · rw [hrun] at h
    cases h
  · unfold placeResult at hrun
    have hmade := hlaw.makeDirectories (Path.join setting.output r.1.names.dropLast) t
    obtain ⟨_, t₁, hmakes, hwrites⟩ := Disk.run_bind_eq_ok hrun
    rw [hmakes] at hmade
    have hread := read_of_writeFiles hlaw (by rwa [filesIn_eq_outputs, hmade.places_eq]) hwrites
    rwa [filesIn_eq_outputs] at hread

end Files

/-! ### Results one after the other -/

/-- A result was written with some outcome: if without failure, its outputs are in the tree. -/
def BuildSetting.Wrote (setting : BuildSetting) (host : Host) (t : FileTree)
    (r : SourceFile × FileResult) (w : SourceFile × Except FileError Unit) : Prop :=
  (∃ before, w = (r.1, ((placeResult host setting r.1 r.2).run.run before).1)) ∧
    (w.2.isOk = true → ∀ output ∈ setting.outputs host r, t.read output.1 = .ok output.2)

theorem mem_failures {ε α : Type} {notice : SourceFile → ε → BuildNotice}
    {outcomes : List (SourceFile × Except ε α)} {f : SourceFile} {e : ε}
    (h : (f, .error e) ∈ outcomes) : notice f e ∈ failures notice outcomes :=
  List.mem_filterMap.2 ⟨_, h, rfl⟩

section Lists

variable {before after rest done : List (SourceFile × FileResult)} {t : FileTree}
  {output : String × String} (hlaw : host.Lawful)

include hlaw

/-- Writing results changes no file but their outputs. -/
theorem grown_writeAll (setting : BuildSetting) (done : List (SourceFile × FileResult))
    (t : FileTree) :
    FileTree.Grown (t.places (done.flatMap (setting.outputs host))) t
      (writeAll host setting done t).2 := by
  induction done generalizing t with
  | nil => exact FileTree.Grown.refl _ t
  | cons r rest ih =>
    have hfirst := grown_placeResult hlaw setting r t
    have hrest := ih ((placeResult host setting r.1 r.2).run.run t).2
    rw [hfirst.places_eq] at hrest
    rw [List.flatMap_cons, FileTree.places, List.map_append]
    exact hfirst.append hrest

/-- **Results at different places are there if they could be written**, whatever became of the
others. -/
theorem forall₂_writeAll (hplaces : (t.places (done.flatMap (setting.outputs host))).Nodup) :
    List.Forall₂ (setting.Wrote host (writeAll host setting done t).2) done
      (writeAll host setting done t).1 := by
  induction done generalizing t with
  | nil => exact .nil
  | cons r rest ih =>
    have hfirst := grown_placeResult hlaw setting r t
    rw [List.flatMap_cons, FileTree.places, List.map_append] at hplaces
    obtain ⟨hown, hrest, hapart⟩ := List.nodup_append.1 hplaces
    have hlater := grown_writeAll hlaw setting rest ((placeResult host setting r.1 r.2).run.run t).2
    refine .cons ⟨⟨t, rfl⟩, fun hok output houtput => ?_⟩ (ih (by rwa [hfirst.places_eq]))
    -- what follows is written elsewhere
    refine hlater.read_eq_ok (read_of_placeResult hlaw hown hok output houtput) fun hmem => ?_
    rw [hfirst.places_eq, hfirst.place_eq] at hmem
    exact hapart _ (List.mem_map_of_mem houtput) _ hmem rfl

variable {notices : List BuildNotice}

omit hlaw in
/-- A result was written if nothing else is said about it. -/
theorem isOk_of_not_reported (hsaid : unwritten (writeAll host setting (r :: rest) t).1 ⊆ notices)
    (hwritten : ∀ e, .unwritten r.1.pathBelow e ∉ notices) :
    ((placeResult host setting r.1 r.2).run.run t).1.isOk = true := by
  cases hrun : ((placeResult host setting r.1 r.2).run.run t).1 with
  | ok _ => rfl
  | error e =>
    have hreported : .unwritten r.1.pathBelow e ∈
        unwritten (writeAll host setting (r :: rest) t).1 :=
      mem_failures (hrun ▸ List.mem_cons_self)
    exact absurd (hsaid hreported) (hwritten e)

omit hlaw in
theorem unwritten_subset (hsaid : unwritten (writeAll host setting (r :: rest) t).1 ⊆ notices) :
    unwritten (writeAll host setting rest ((placeResult host setting r.1 r.2).run.run t).2).1 ⊆
      notices :=
  fun _ h => hsaid ((List.sublist_cons_self _ _).filterMap _ |>.subset h)

/-- An output remains if what is written later at its path is the same and could be written. -/
theorem read_of_writeAll_later (hr : r.1.IsComponent) (hafter : ∀ s ∈ after, s.1.IsComponent)
    (houtput : output ∈ setting.outputs host r) (hread : t.read output.1 = .ok output.2)
    (hsaid : unwritten (writeAll host setting after t).1 ⊆ notices)
    (hlater : ∀ s ∈ after, ∀ later ∈ setting.outputs host s, later.1 = output.1 →
      later.2 = output.2 ∧ ∀ e, .unwritten s.1.pathBelow e ∉ notices) :
    (writeAll host setting after t).2.read output.1 = .ok output.2 := by
  induction after generalizing t with
  | nil => exact hread
  | cons s after ih =>
    obtain ⟨hs, hafter⟩ := List.forall_mem_cons.1 hafter
    obtain ⟨hfirst, hlater⟩ := List.forall_mem_cons.1 hlater
    refine ih hafter ?_ (unwritten_subset hsaid) hlater
    by_cases hplace : t.place output.1 ∈ t.places (setting.outputs host s)
    · -- the same is written once more
      obtain ⟨later, hmem, heq⟩ := List.mem_map.1 hplace
      have hpath := eq_of_place_eq hs hr hmem houtput heq
      obtain ⟨hsame, hwritten⟩ := hfirst later hmem hpath
      rw [← hpath, ← hsame]
      exact read_of_placeResult hlaw (nodup_places_outputs hs t)
        (isOk_of_not_reported hsaid hwritten) later hmem
    · exact (grown_placeResult hlaw setting s t).read_eq_ok hread hplace

/-- An output of a result that was written remains if what is written later at its path is the same
and could be written. -/
theorem read_of_writeAll (hdone : ∀ s ∈ before ++ r :: after, s.1.IsComponent)
    (hsaid : unwritten (writeAll host setting (before ++ r :: after) t).1 ⊆ notices)
    (hwritten : ∀ e, .unwritten r.1.pathBelow e ∉ notices)
    (houtput : output ∈ setting.outputs host r)
    (hlater : ∀ s ∈ after, ∀ later ∈ setting.outputs host s, later.1 = output.1 →
      later.2 = output.2 ∧ ∀ e, .unwritten s.1.pathBelow e ∉ notices) :
    (writeAll host setting (before ++ r :: after) t).2.read output.1 = .ok output.2 := by
  -- The results before only change the tree in which this one is written.
  induction before generalizing t with
  | cons s before ih =>
    exact ih (fun s hs => hdone s (List.mem_cons_of_mem _ hs)) (unwritten_subset hsaid)
  | nil =>
    rw [List.nil_append] at hdone hsaid ⊢
    obtain ⟨hr, hafter⟩ := List.forall_mem_cons.1 hdone
    have hread := read_of_placeResult hlaw (nodup_places_outputs hr t)
      (isOk_of_not_reported hsaid hwritten) output houtput
    change (writeAll host setting after _).2.read output.1 = _
    exact read_of_writeAll_later hlaw hr hafter houtput hread (unwritten_subset hsaid) hlater

end Lists

/-! ### Builds -/

section Builds

variable {tree : FileTree}

theorem isComponent_of_mem_results (hlaw : host.Lawful) (htree : tree.Proper)
    (h : r ∈ results (buildOutcomes host setting tree)) : r.1.IsComponent := by
  obtain ⟨outcome, houtcome, hr⟩ := List.mem_filterMap.1 h
  obtain ⟨f, hf, rfl⟩ := List.mem_map.1 houtcome
  obtain ⟨_, _, rfl⟩ := Option.map_eq_some_iff.1 hr
  exact isComponent_of_mem_select hlaw htree hf

/-- The results of a build are of files with different paths. -/
theorem pairwise_results (host : Host) (setting : BuildSetting) (tree : FileTree) :
    (results (buildOutcomes host setting tree)).Pairwise fun a b => a.1.steps ≠ b.1.steps := by
  refine List.pairwise_filterMap.2 (List.pairwise_map.2 ?_)
  refine (pairwise_select host tree setting.patterns).imp fun hne a ha b hb => ?_
  obtain ⟨_, _, rfl⟩ := Option.map_eq_some_iff.1 ha
  obtain ⟨_, _, rfl⟩ := Option.map_eq_some_iff.1 hb
  exact hne

theorem finishBuild_of_goes_on {outcomes : List (SourceFile × Except String FileResult)}
    (hsome : outcomes ≠ [])
    (hgoes : setting.continueOnError = true ∨ refusals outcomes = []) :
    let writes := buildWrites host setting outcomes tree
    let failed := (refusals outcomes).length + (unwritten writes.1).length
    finishBuild host setting outcomes tree =
      ⟨if failed = 0 then 0 else 1, "", refusals outcomes ++ unwritten writes.1 ++
        [summary failed ((results outcomes).map Prod.snd)], writes.2⟩ := by
  have hgo : ((refusals outcomes).isEmpty || setting.continueOnError) = true := by
    rcases hgoes with hcontinues | hnone
    · rw [hcontinues, Bool.or_true]
    · rw [hnone]
      rfl
  unfold finishBuild
  rw [if_neg (by simpa using hsome), if_pos hgo]

/-- A build that goes on ends with the tree in which all results were written, and says what could
not be written. -/
theorem build_writes (hformat : setting.format ≠ .stats)
    (hgoes : setting.continueOnError = true ∨ refusals (buildOutcomes host setting tree) = []) :
    let writes := writeAll host setting (results (buildOutcomes host setting tree)) tree
    (build host setting tree).tree = writes.2 ∧
      unwritten writes.1 ⊆ (build host setting tree).notices := by
  have hfinish : ∀ outcomes, (setting.continueOnError = true ∨ refusals outcomes = []) →
      (finishBuild host setting outcomes tree).tree =
          (writeAll host setting (results outcomes) tree).2 ∧
        unwritten (writeAll host setting (results outcomes) tree).1 ⊆
          (finishBuild host setting outcomes tree).notices := by
    intro outcomes hgoes
    by_cases hsome : outcomes = []
    · subst hsome
      exact ⟨rfl, List.nil_subset _⟩
    · rw [finishBuild_of_goes_on hsome hgoes, buildWrites, if_neg hformat]
      refine ⟨rfl, fun notice hnotice => ?_⟩
      simp [hnotice]
  obtain ⟨hfinal, hnotices⟩ := hfinish _ hgoes
  exact ⟨hfinal, List.Subset.trans hnotices (List.subset_append_right ..)⟩

/-- An output of a build is there if what is written later at its path is the same and could be
written. -/
theorem read_of_build (hlaw : host.Lawful) (htree : tree.Proper) (hformat : setting.format ≠ .stats)
    (hgoes : setting.continueOnError = true ∨ refusals (buildOutcomes host setting tree) = [])
    {before after : List (SourceFile × FileResult)} {output : String × String}
    (hsplit : results (buildOutcomes host setting tree) = before ++ r :: after)
    (hwritten : ∀ e, .unwritten r.1.pathBelow e ∉ (build host setting tree).notices)
    (houtput : output ∈ setting.outputs host r)
    (hlater : ∀ s ∈ after, ∀ later ∈ setting.outputs host s, later.1 = output.1 →
      later.2 = output.2 ∧ ∀ e, .unwritten s.1.pathBelow e ∉ (build host setting tree).notices) :
    (build host setting tree).tree.read output.1 = .ok output.2 := by
  have hdone : ∀ s ∈ before ++ r :: after, s.1.IsComponent := by
    rw [← hsplit]
    exact fun _ => isComponent_of_mem_results hlaw htree
  obtain ⟨hfinal, hnotices⟩ := build_writes hformat hgoes
  rw [hsplit] at hfinal hnotices
  rw [hfinal]
  exact read_of_writeAll hlaw hdone hnotices hwritten houtput hlater

/-- **No output of a build is lost unless results clash.**  No path is written twice if and only if
no two results clash, and then all outputs are there after the build but for those of files that it
says it could not write.  If results clash, an output is there unless a later one at its path is
another one or could not be written. -/
theorem build_keeps_outputs (host : Host) (hlaw : host.Lawful) (setting : BuildSetting)
    (tree : FileTree) (htree : tree.Proper) (hformat : setting.format ≠ .stats)
    (hgoes : setting.continueOnError = true ∨ refusals (buildOutcomes host setting tree) = []) :
    let done := results (buildOutcomes host setting tree)
    let run := build host setting tree
    (((done.flatMap (setting.outputs host)).map Prod.fst).Nodup ↔
      done.Pairwise fun a b => ¬Clash setting.format a b) ∧
    ((done.Pairwise fun a b => ¬Clash setting.format a b) →
      ∀ r ∈ done, (∀ e, .unwritten r.1.pathBelow e ∉ run.notices) →
        ∀ output ∈ setting.outputs host r, run.tree.read output.1 = .ok output.2) ∧
    ∀ before r after, done = before ++ r :: after →
      (∀ e, .unwritten r.1.pathBelow e ∉ run.notices) → ∀ output ∈ setting.outputs host r,
        (∀ s ∈ after, ∀ later ∈ setting.outputs host s, later.1 = output.1 →
          later.2 = output.2 ∧ ∀ e, .unwritten s.1.pathBelow e ∉ run.notices) →
        run.tree.read output.1 = .ok output.2 := by
  intro done run
  have hnodup : ((done.flatMap (setting.outputs host)).map Prod.fst).Nodup ↔ _ :=
    nodup_flatMap_outputs_iff hformat (fun _ => isComponent_of_mem_results hlaw htree)
      (pairwise_results host setting tree)
  refine ⟨hnodup, fun hclash r hr hwritten output houtput => ?_,
    fun before r after hsplit hwritten output houtput hlater =>
      read_of_build hlaw htree hformat hgoes hsplit hwritten houtput hlater⟩
  obtain ⟨before, after, hsplit⟩ := List.append_of_mem hr
  refine read_of_build hlaw htree hformat hgoes hsplit hwritten houtput ?_
  intro s hs later hlater heq
  -- A later output at the same path would be a path written twice.
  have hpaths := hnodup.2 hclash
  rw [hsplit, List.flatMap_append, List.flatMap_cons, List.map_append, List.map_append] at hpaths
  have hapart := (List.nodup_append.1 (List.nodup_append.1 hpaths).2.1).2.2
  exact absurd heq.symm (hapart _ (List.mem_map_of_mem houtput) _
    (List.mem_map_of_mem (List.mem_flatMap.2 ⟨s, hs, hlater⟩)))

/-- A component that uses runes, and one in a directory of its own. -/
def runesAndCard : FileTree :=
  FileTree.ofFiles [] [("App.svelte", "<p class=\x7b$css(\"a\")\x7d/><style>.a\x7b\x7d</style>"),
    ("lib/Card.svelte", "<p/>")]

/-- Two directories can be built at once, with the map of a component. -/
theorem build_keeps_outputs_runesAndCard :
    let setting := { BuildSetting.default with
      patterns := ["*.svelte", "lib/*.svelte"], format := .json }
    let done := results (buildOutcomes Host.standard setting runesAndCard)
    Host.standard.Lawful ∧ runesAndCard.Proper ∧
      refusals (buildOutcomes Host.standard setting runesAndCard) = [] ∧
      (done.flatMap (setting.outputs Host.standard)).map Prod.fst =
        ["./dist/App.json", "./dist/App.map.json", "./dist/Card.json"] ∧
      (done.Pairwise fun a b => ¬Clash .json a b) ∧
      ∀ r ∈ done, ∀ output ∈ setting.outputs Host.standard r,
        (build Host.standard setting runesAndCard).tree.read output.1 = .ok output.2 := by
  intro setting done
  have heval : runesAndCard.Proper ∧
      refusals (buildOutcomes Host.standard setting runesAndCard) = [] ∧
      (done.flatMap (setting.outputs Host.standard)).map Prod.fst =
        ["./dist/App.json", "./dist/App.map.json", "./dist/Card.json"] ∧
      (build Host.standard setting runesAndCard).notices = [.complete 2 1 0] := by
    decide +kernel
  obtain ⟨hproper, hrefusals, hpaths, hnotices⟩ := heval
  obtain ⟨hnodup, hkept, _⟩ := build_keeps_outputs Host.standard Host.lawful_standard setting
    runesAndCard hproper (by decide) (Or.inr hrefusals)
  have hclash := hnodup.1 (hpaths ▸ (by decide : ["./dist/App.json", "./dist/App.map.json",
    "./dist/Card.json"].Nodup))
  refine ⟨Host.lawful_standard, hproper, hrefusals, hpaths, hclash,
    fun r hr => hkept hclash r hr fun e he => ?_⟩
  rw [hnotices] at he
  simp at he

/-- Components of the same name in two directories. -/
def sameNames : FileTree :=
  FileTree.ofFiles [] [("a/App.svelte", "<p>a</p>"), ("b/App.svelte", "<p>b</p>")]

/-- A component that uses runes, and one that is named like its map. -/
def namedLikeMap : FileTree :=
  FileTree.ofFiles [] [("App.svelte", "<p class=\x7b$css(\"a\")\x7d/><style>.a\x7b\x7d</style>"),
    ("App.map.svelte", "<p/>")]

/-- A build succeeds, but the first of two outputs at the same path is lost: components of the same
name in two directories, or a component that is named like the map of another one. -/
theorem build_loses_outputs :
    (let setting := { BuildSetting.default with patterns := ["a/*.svelte", "b/*.svelte"] }
      let run := build Host.standard setting sameNames
      let outputs := (results (buildOutcomes Host.standard setting sameNames)).flatMap
        (setting.outputs Host.standard)
      run.exitCode = 0 ∧ run.notices = [.complete 2 0 0] ∧
        outputs = [("./dist/App.svelte", "<p>a</p>"), ("./dist/App.svelte", "<p>b</p>")] ∧
        (run.tree.read "./dist/App.svelte").toOption = some "<p>b</p>") ∧
    (let setting := { BuildSetting.default with format := .json }
      let run := build Host.standard setting namedLikeMap
      let outputs := (results (buildOutcomes Host.standard setting namedLikeMap)).flatMap
        (setting.outputs Host.standard)
      run.exitCode = 0 ∧ run.notices = [.complete 2 1 0] ∧
        outputs.map (fun o => (o.1, decide ((run.tree.read o.1).toOption = some o.2))) =
          [("./dist/App.map.json", false), ("./dist/App.json", true),
            ("./dist/App.map.json", true)]) := by
  decide +kernel

end Builds

end CssRune
