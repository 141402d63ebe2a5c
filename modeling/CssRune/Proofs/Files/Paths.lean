/-
**What paths say.**

A name is plain if it says the same wherever it stands in a path: it is not empty, has no slash and
is not one of the two that stand for a directory.  Putting plain names below a path adds one step
for each of them, however the path is written, so different names lead to different paths.

Main results:

* `Path.steps_join` — names below a path are steps after those of the path;
* `Path.join_inj` — different names below a path give different paths;
* `Path.exists_stem_of_extension?` — a name with an extension is a stem, a dot and it;
* `Path.precedes_antisymm` — paths that precede each other have the same steps.
-/

import CssRune.Files.Path

set_option autoImplicit false

namespace CssRune

namespace Path

variable {name path extension : String} {names : List String}

/-! ### Plain names -/

/-- A name that says the same wherever it stands in a path. -/
structure Plain (name : String) : Prop where
  ne_empty : name ≠ ""
  slash : '/' ∉ name.toList
  ne_dot : name ≠ "."
  ne_dots : name ≠ ".."

instance (name : String) : Decidable (Plain name) :=
  decidable_of_iff (name ≠ "" ∧ '/' ∉ name.toList ∧ name ≠ "." ∧ name ≠ "..")
    ⟨fun h => ⟨h.1, h.2.1, h.2.2.1, h.2.2.2⟩, fun h => ⟨h.1, h.2, h.3, h.4⟩⟩

theorem Plain.stepOf? (h : Plain name) : Path.stepOf? name = some (.name name) := by
  simp [Path.stepOf?, h.ne_empty, h.ne_dot, h.ne_dots]

theorem Plain.segments (h : Plain name) : Path.segments name = [name] := by
  simp [Path.segments, List.splitOn_eq_singleton h.slash]

theorem Plain.steps (h : Plain name) : Path.steps name = [.name name] := by
  simp [Path.steps, h.segments, firstStep?, h.ne_empty, h.ne_dot, h.ne_dots]

/-! ### Names below a path -/

/-- A name below a path is one more segment, in place of an empty last one. -/
theorem segments_child (hpath : path ≠ "") (hname : Plain name) :
    ∃ s ss, segments (child path name) = s :: ss ++ [name] ∧
      (segments path = s :: ss ∨ segments path = s :: ss ++ [""]) := by
  by_cases hlast : path.toList.getLast? = some '/'
  · -- A slash at the end is followed by an empty segment, whose place the name takes.
    obtain ⟨cs, hcs⟩ := List.getLast?_eq_some_iff.1 hlast
    obtain ⟨s, ss, hsplit⟩ := List.exists_cons_of_ne_nil (List.splitOn_ne_nil '/' cs)
    refine ⟨String.ofList s, ss.map String.ofList, ?_, Or.inr ?_⟩
    · rw [child, if_pos (Or.inr hlast), segments, String.toList_append, hcs, List.append_assoc,
        List.singleton_append, List.splitOn_append_cons_self, hsplit,
        List.splitOn_eq_singleton hname.slash]
      simp
    · rw [segments, hcs, List.splitOn_append_cons_self, hsplit]
      simp
  · obtain ⟨s, ss, hsplit⟩ :=
      List.exists_cons_of_ne_nil (List.splitOn_ne_nil '/' path.toList)
    refine ⟨String.ofList s, ss.map String.ofList, ?_, Or.inl (by rw [segments, hsplit]; rfl)⟩
    rw [child, if_neg (by simp [hpath, hlast]), segments, String.toList_append,
      String.toList_append, List.append_assoc, show "/".toList = ['/'] from rfl,
      List.singleton_append, List.splitOn_append_cons_self, hsplit,
      List.splitOn_eq_singleton hname.slash]
    simp

theorem firstStep?_of_segments {s : String} {ss : List String} (hpath : path ≠ "")
    (h : segments path = s :: ss) : firstStep? (!ss.isEmpty) s = firstStep? true s := by
  cases ss with
  | cons _ _ => rfl
  | nil =>
    -- Only the empty path has an empty segment and no other.
    have hs : s ≠ "" := by
      rintro rfl
      obtain ⟨cs, hcs, hempty⟩ := List.map_eq_singleton_iff.1 h
      have hnil : cs = [] := by simpa using congrArg String.toList hempty
      have hjoined : ['/'].intercalate (path.toList.splitOn '/') = path.toList :=
        List.intercalate_splitOn '/'
      rw [hcs, hnil] at hjoined
      exact hpath (String.toList_inj.1 hjoined.symm)
    simp [firstStep?, hs]

theorem isEmpty_concat (ss : List String) (s : String) : (ss ++ [s]).isEmpty = false := by
  cases ss <;> rfl

/-- A name below a path is one more step. -/
theorem steps_child (path : String) (hname : Plain name) :
    steps (child path name) = steps path ++ [.name name] := by
  by_cases hpath : path = ""
  · subst hpath
    have hempty : steps "" = [] := rfl
    simp [child, hempty, hname.steps]
  · obtain ⟨s, ss, hchild, hsegments | hsegments⟩ := segments_child hpath hname
    · have hfirst := firstStep?_of_segments hpath hsegments
      simp [steps, hchild, hsegments, hfirst, hname.stepOf?, isEmpty_concat]
    · have hblank : stepOf? "" = none := rfl
      simp [steps, hchild, hsegments, hname.stepOf?, hblank, isEmpty_concat]

theorem join_concat (path : String) (names : List String) (name : String) :
    join path (names ++ [name]) = child (join path names) name := by
  simp [join]

/-- Names below a path are steps after those of the path. -/
theorem steps_join (path : String) (h : ∀ name ∈ names, Plain name) :
    steps (join path names) = steps path ++ names.map .name := by
  induction names generalizing path with
  | nil => simp [join]
  | cons name names ih =>
    obtain ⟨hname, hnames⟩ := List.forall_mem_cons.1 h
    have hstep := ih (child path name) hnames
    rw [steps_child path hname] at hstep
    simpa [join] using hstep

/-- Different names below a path give different paths. -/
theorem join_inj (path : String) {names' : List String} (h : ∀ name ∈ names, Plain name)
    (h' : ∀ name ∈ names', Plain name) : join path names = join path names' ↔ names = names' := by
  refine ⟨fun heq => ?_, fun heq => heq ▸ rfl⟩
  have hsteps := congrArg steps heq
  rw [steps_join path h, steps_join path h', List.append_cancel_left_eq] at hsteps
  exact (List.map_inj_right fun _ _ hab => PathStep.name.inj hab).1 hsteps

/-! ### Extensions -/

/-- What a name is cut into is a stem that is not empty, and what follows the dot after it. -/
theorem eq_of_splitExtension? {stem : String} (h : splitExtension? name = some (stem, extension)) :
    stem ≠ "" ∧ name = stem ++ "." ++ extension := by
  have hparts := List.takeWhile_append_dropWhile (p := (· ≠ '.')) (l := name.toList.reverse)
  unfold splitExtension? at h
  dsimp only at h
  split at h
  · rename_i c above hdrop
    split at h
    · cases h
    · rename_i hstem
      rw [not_or] at hstem
      cases h
      have hdot : c = '.' := by
        have hhead := List.head?_dropWhile_not (· ≠ '.') name.toList.reverse
        rw [hdrop] at hhead
        simpa using hhead
      subst hdot
      refine ⟨?_, String.toList_inj.1 ?_⟩
      · simpa using hstem.1
      · rw [hdrop] at hparts
        have hname := congrArg List.reverse hparts
        simpa using hname.symm
  · cases h

/-- A name with an extension is a stem, a dot and the extension; another extension takes the place
of that one. -/
theorem exists_stem_of_extension? (h : extension? name = some extension) :
    ∃ stem, stem ≠ "" ∧ name = stem ++ "." ++ extension ∧
      ∀ other, withExtension name other = stem ++ "." ++ other := by
  obtain ⟨⟨stem, other⟩, hsplit, rfl⟩ := Option.map_eq_some_iff.1 h
  obtain ⟨hstem, hname⟩ := eq_of_splitExtension? hsplit
  exact ⟨stem, hstem, hname, fun other => by simp [withExtension, hsplit]⟩

/-! ### Order -/

theorem stepBefore_asymm {a b : PathStep} (hab : stepBefore a b = true) :
    stepBefore b a = false := by
  simp only [stepBefore, Bool.or_eq_true, Bool.and_eq_true, decide_eq_true_eq, beq_iff_eq,
    Bool.or_eq_false_iff, Bool.and_eq_false_iff, decide_eq_false_iff_not] at *
  rcases hab with hab | ⟨hab, hlabel⟩
  · exact ⟨by omega, Or.inl (by simp; omega)⟩
  · exact ⟨by omega, Or.inr (String.lt_asymm hlabel)⟩

theorem stepBefore_irrefl (a : PathStep) : stepBefore a a = false := by
  cases h : stepBefore a a with
  | false => rfl
  | true => exact h.symm.trans (stepBefore_asymm h)

/-- Paths that precede each other have the same steps. -/
theorem precedes_antisymm {as bs : List PathStep} (hab : precedes as bs = true)
    (hba : precedes bs as = true) : as = bs := by
  induction as generalizing bs with
  | nil =>
    cases bs with
    | nil => rfl
    | cons b bs => simp [precedes] at hba
  | cons a as ih =>
    cases bs with
    | nil => simp [precedes] at hab
    | cons b bs =>
      simp only [precedes, Bool.or_eq_true, Bool.and_eq_true, beq_iff_eq] at hab hba
      rcases hab with hab | ⟨rfl, hab⟩
      · rcases hba with hba | ⟨rfl, _⟩
        · simp [stepBefore_asymm hab] at hba
        · simp [stepBefore_irrefl] at hab
      · rcases hba with hba | ⟨_, hba⟩
        · simp [stepBefore_irrefl] at hba
        · rw [ih hab hba]

end Path

end CssRune
