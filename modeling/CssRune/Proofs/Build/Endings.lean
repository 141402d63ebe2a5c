/-
**How a build ends.**

A build that finds files preprocesses all of them before it writes anything.  If one is refused, it
ends there with the tree as it was, unless it is told to go on.  Otherwise it tries to write every
result, whether or not writing another one has failed, and says at the end how many files have
failed and how many were preprocessed.  This depends neither on which files were found nor on what
became of each of them, nor on the reasons for which a host cannot write.

Main results:

* `accounts_finishBuild` — how a build ends, whatever became of its files;
* `build_reports_failures` — **what a build leaves, says and returns**.
-/

import CssRune.Proofs.Build.Outputs

set_option autoImplicit false

namespace CssRune

/-! ### Failures -/

section Failures

variable {ε α : Type} {notice : SourceFile → ε → BuildNotice}
  {outcomes : List (SourceFile × Except ε α)}

theorem length_failures :
    (failures notice outcomes).length = outcomes.countP fun o => !o.2.isOk := by
  rw [failures, List.length_filterMap_eq_countP]
  refine List.countP_congr fun o _ => ?_
  cases o.2 with
  | error e => exact Iff.rfl
  | ok a => exact Iff.rfl

theorem failures_eq_nil_iff :
    failures notice outcomes = [] ↔ ∀ o ∈ outcomes, o.2.isOk = true := by
  rw [← List.length_eq_zero_iff, length_failures, List.countP_eq_zero]
  simp

end Failures

/-! ### Accounts -/

/-- How a build ends that goes on, if it has `said` something before its files had some outcomes. -/
structure BuildSetting.Finishes (setting : BuildSetting) (host : Host) (said : List BuildNotice)
    (outcomes : List (SourceFile × Except String FileResult)) (tree : FileTree)
    (run : CommandResult) : Prop where
  /-- No file has changed but for the outputs of results. -/
  grown : FileTree.Grown (tree.places ((results outcomes).flatMap (setting.outputs host))) tree
    run.tree
  stats : setting.format = .stats → run.tree = tree
  /-- Each result was written with some outcome, and if without failure, its outputs are there. -/
  written : setting.format ≠ .stats → List.Forall₂ (setting.Wrote host run.tree) (results outcomes)
    (buildWrites host setting outcomes tree).1
  /-- All failures are reported, and the last notice counts them and what was preprocessed. -/
  notices :
    let writes := (buildWrites host setting outcomes tree).1
    let failed := outcomes.countP (fun o => !o.2.isOk) + writes.countP fun w => !w.2.isOk
    let preprocessed := outcomes.countP fun o => o.2.isOk
    ∃ last, run.notices = said ++ (refusals outcomes ++ unwritten writes ++ [last]) ∧
      (failed ≠ 0 → last = .incomplete failed preprocessed) ∧
      (failed = 0 → ∃ changed warnings, last = .complete preprocessed changed warnings)

/-- An account of how a build ends whose files had some outcomes. -/
structure BuildSetting.Accounts (setting : BuildSetting) (host : Host) (said : List BuildNotice)
    (outcomes : List (SourceFile × Except String FileResult)) (tree : FileTree)
    (run : CommandResult) : Prop where
  /-- It succeeds if and only if there are files, all were preprocessed and, unless it only counts,
  all could be written. -/
  exitCode : run.exitCode = 0 ↔ outcomes ≠ [] ∧ (∀ o ∈ outcomes, o.2.isOk = true) ∧
    ∀ w ∈ (buildWrites host setting outcomes tree).1, w.2.isOk = true
  /-- If a file was refused and it is not told to go on, nothing is created or changed. -/
  stops : (∃ o ∈ outcomes, o.2.isOk = false) → setting.continueOnError = false →
    run.tree = tree ∧ run.exitCode = 1
  goesOn : outcomes ≠ [] →
    (setting.continueOnError = true ∨ ∀ o ∈ outcomes, o.2.isOk = true) →
    setting.Finishes host said outcomes tree run

section Outcomes

variable {host : Host} {setting : BuildSetting} {tree : FileTree}
  {outcomes : List (SourceFile × Except String FileResult)}

theorem length_results : (results outcomes).length = outcomes.countP fun o => o.2.isOk := by
  rw [results, List.length_filterMap_eq_countP]
  refine List.countP_congr fun o _ => ?_
  cases o.2 with
  | error message => exact Iff.rfl
  | ok r => exact Iff.rfl

theorem summary_of_ne_zero {failed : Nat} (hfailed : failed ≠ 0) :
    summary failed ((results outcomes).map Prod.snd) =
      .incomplete failed (outcomes.countP fun o => o.2.isOk) := by
  rw [summary, if_neg hfailed, List.length_map, length_results]

theorem exists_summary_of_eq_zero {failed : Nat} (hfailed : failed = 0) :
    ∃ changed warnings, summary failed ((results outcomes).map Prod.snd) =
      .complete (outcomes.countP fun o => o.2.isOk) changed warnings := by
  rw [summary, if_pos hfailed, List.length_map, length_results]
  exact ⟨_, _, rfl⟩

/-- What a build writes changes no file but the outputs of its results. -/
theorem grown_buildWrites (hlaw : host.Lawful) :
    FileTree.Grown (tree.places ((results outcomes).flatMap (setting.outputs host))) tree
      (buildWrites host setting outcomes tree).2 := by
  unfold buildWrites
  split
  · exact FileTree.Grown.refl _ tree
  · exact grown_writeAll hlaw setting _ tree

theorem finishBuild_of_refused (hrefused : refusals outcomes ≠ [])
    (hstops : setting.continueOnError = false) :
    finishBuild host setting outcomes tree = ⟨1, "", (refusals outcomes).take 1, tree⟩ := by
  have hsome : outcomes ≠ [] := by
    rintro rfl
    exact hrefused rfl
  have hstop : ¬((refusals outcomes).isEmpty || setting.continueOnError) = true := by
    simpa [hstops] using hrefused
  unfold finishBuild
  rw [if_neg (by simpa using hsome), if_neg hstop]

/-- A build succeeds if and only if there are files and nothing has failed. -/
theorem exitCode_finishBuild_eq_zero_iff :
    (finishBuild host setting outcomes tree).exitCode = 0 ↔ outcomes ≠ [] ∧
      refusals outcomes = [] ∧ unwritten (buildWrites host setting outcomes tree).1 = [] := by
  by_cases hsome : outcomes = []
  · simp [hsome, finishBuild]
  by_cases hgoes : setting.continueOnError = true ∨ refusals outcomes = []
  · have hcode : ∀ failed : Nat, (if failed = 0 then 0 else 1) = 0 ↔ failed = 0 := by simp
    rw [finishBuild_of_goes_on hsome hgoes, hcode, and_iff_right hsome, Nat.add_eq_zero_iff,
      List.length_eq_zero_iff, List.length_eq_zero_iff]
  · rw [not_or, Bool.not_eq_true] at hgoes
    rw [finishBuild_of_refused hgoes.2 hgoes.1]
    simp [hgoes.2]

/-- How a build that goes on ends, whatever became of its files. -/
theorem finishes_finishBuild (hlaw : host.Lawful)
    (hplaces : (tree.places ((results outcomes).flatMap (setting.outputs host))).Nodup)
    (said : List BuildNotice) (hsome : outcomes ≠ [])
    (hgoes : setting.continueOnError = true ∨ refusals outcomes = []) :
    let run := finishBuild host setting outcomes tree
    setting.Finishes host said outcomes tree { run with notices := said ++ run.notices } := by
  rw [finishBuild_of_goes_on hsome hgoes]
  refine ⟨grown_buildWrites hlaw, fun hstats => ?_, fun hstats => ?_, _, rfl, ?_, ?_⟩
  · simp only [buildWrites, if_pos hstats]
  · simp only [buildWrites, if_neg hstats]
    exact forall₂_writeAll hlaw hplaces
  · rw [refusals, length_failures, unwritten, length_failures]
    exact summary_of_ne_zero
  · rw [refusals, length_failures, unwritten, length_failures]
    exact exists_summary_of_eq_zero

/-- **How a build ends**, whatever became of its files. -/
theorem accounts_finishBuild (hlaw : host.Lawful)
    (hplaces : (tree.places ((results outcomes).flatMap (setting.outputs host))).Nodup)
    (said : List BuildNotice) :
    let run := finishBuild host setting outcomes tree
    setting.Accounts host said outcomes tree { run with notices := said ++ run.notices } := by
  have hall : refusals outcomes = [] ↔ ∀ o ∈ outcomes, o.2.isOk = true := failures_eq_nil_iff
  refine ⟨?_, fun ⟨o, ho, hrefused⟩ hstops => ?_, fun hsome hgoes => ?_⟩
  · rw [← hall, ← failures_eq_nil_iff]
    exact exitCode_finishBuild_eq_zero_iff
  · have hrefusals : refusals outcomes ≠ [] := fun hnone => by
      rw [hall.1 hnone o ho] at hrefused
      cases hrefused
    rw [finishBuild_of_refused hrefusals hstops]
    exact ⟨rfl, rfl⟩
  · exact finishes_finishBuild hlaw hplaces said hsome (hgoes.imp_right hall.2)

end Outcomes

/-! ### Builds -/

/-- The notices about patterns that are invalid. -/
def invalidNotices (host : Host) (setting : BuildSetting) (tree : FileTree) : List BuildNotice :=
  (select host tree setting.patterns).invalid.map fun p => .invalidPattern p.1 p.2

/-- **What a build leaves, says and returns**, if no two outputs are at the same place: for any
files with any outcomes, and so for those that a build finds. -/
theorem build_reports_failures (host : Host) (hlaw : host.Lawful) (setting : BuildSetting)
    (tree : FileTree) :
    (∀ outcomes, (tree.places ((results outcomes).flatMap (setting.outputs host))).Nodup →
      setting.Accounts host [] outcomes tree (finishBuild host setting outcomes tree)) ∧
    ((tree.places ((results (buildOutcomes host setting tree)).flatMap
        (setting.outputs host))).Nodup →
      setting.Accounts host (invalidNotices host setting tree) (buildOutcomes host setting tree)
        tree (build host setting tree)) :=
  ⟨fun _ hplaces => accounts_finishBuild hlaw hplaces [],
    fun hplaces => accounts_finishBuild hlaw hplaces (invalidNotices host setting tree)⟩

/-- A component that is refused, one that can be written, and one whose place in the output
directory is taken by a directory. -/
def refusedAndBlocked : FileTree :=
  FileTree.ofFiles [] [("App.svelte", "<p/>"), ("Bad.svelte", "<p class=\x7b$css(1)\x7d/>"),
    ("Card.svelte", "<p/>"), ("dist/Card.svelte/note", "")]

/-- One component is refused, one is written, and one cannot be written. -/
theorem build_reports_failures_refusedAndBlocked :
    let setting := { BuildSetting.default with
      patterns := ["*.svelte"], continueOnError := true }
    let outcomes := buildOutcomes Host.standard setting refusedAndBlocked
    let run := build Host.standard setting refusedAndBlocked
    Host.standard.Lawful ∧
      ((results outcomes).flatMap (setting.outputs Host.standard)).map Prod.fst =
        ["./dist/App.svelte", "./dist/Card.svelte"] ∧
      (buildWrites Host.standard setting outcomes refusedAndBlocked).1.map (·.2.isOk) =
        [true, false] ∧
      run.exitCode ≠ 0 ∧ run.notices.getLast? = some (.incomplete 2 2) := by
  intro setting outcomes run
  have heval : outcomes ≠ [] ∧ outcomes.countP (fun o => !o.2.isOk) = 1 ∧
      outcomes.countP (fun o => o.2.isOk) = 2 ∧
      ((results outcomes).flatMap (setting.outputs Host.standard)).map Prod.fst =
        ["./dist/App.svelte", "./dist/Card.svelte"] ∧
      (refusedAndBlocked.places
        ((results outcomes).flatMap (setting.outputs Host.standard))).Nodup ∧
      (buildWrites Host.standard setting outcomes refusedAndBlocked).1.map (·.2.isOk) =
        [true, false] := by
    decide +kernel
  obtain ⟨hsome, hrefused, hdone, hpaths, hplaces, hwrites⟩ := heval
  have hfailed : (buildWrites Host.standard setting outcomes refusedAndBlocked).1.countP
      (fun w => !w.2.isOk) = 1 := by
    have hcount := congrArg (List.countP fun ok => !ok) hwrites
    rwa [List.countP_map] at hcount
  have haccount := (build_reports_failures Host.standard Host.lawful_standard setting
    refusedAndBlocked).2 hplaces
  obtain ⟨last, hnotices, hlast, _⟩ := (haccount.goesOn hsome (Or.inl rfl)).notices
  rw [hrefused, hfailed, hdone] at hlast
  refine ⟨Host.lawful_standard, hpaths, hwrites, fun hzero => ?_, ?_⟩
  · have hall := (haccount.exitCode.1 hzero).2.2
    rw [List.countP_eq_zero.2 (by simpa using hall)] at hfailed
    cases hfailed
  · rw [hnotices, ← List.append_assoc, List.getLast?_concat, hlast (by decide)]

end CssRune
