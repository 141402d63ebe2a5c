/-
**The files that a build works on.**

Whatever the patterns are and whatever the host leaves out, the files that are selected have the
extension of components and plain names, and no two of them have paths with the same steps.  A
selection is sorted before repetitions are dropped, so that equal paths stand in a row and the first
of them is the one that is kept.

Main results:

* `pairwise_inPathOrder` — files in the order of their paths have different paths;
* `isComponent_of_mem_select` — what is selected are components;
* `pairwise_select` — no file is selected twice.
-/

import CssRune.Build.Selection
import CssRune.Proofs.Build.Hosts
import CssRune.Proofs.Lists

set_option autoImplicit false

namespace CssRune

/-! ### Repetitions -/

section Distinct

variable {α : Type} {same : α → α → Bool}

theorem distinctAfter_sublist (a : α) (l : List α) : (distinctAfter same a l).Sublist l := by
  induction l generalizing a with
  | nil => exact List.Sublist.refl _
  | cons b bs ih =>
    rw [distinctAfter]
    split
    · exact (ih a).cons b
    · exact (ih b).cons_cons b

theorem distinct_sublist (l : List α) : (distinct same l).Sublist l := by
  cases l with
  | nil => exact List.Sublist.refl _
  | cons a as => exact (distinctAfter_sublist a as).cons_cons a

/-- If elements that are the same stand in a row, each is kept once. -/
theorem pairwise_distinct {r : α → α → Prop}
    (hrow : ∀ a b c, r a b → r b c → same a c = true → same a b = true) {l : List α}
    (hl : l.Pairwise r) : (distinct same l).Pairwise fun a b => same a b = false := by
  cases l with
  | nil => exact List.Pairwise.nil
  | cons a as =>
    rw [distinct]
    induction as generalizing a with
    | nil => simp [distinctAfter]
    | cons b bs ih =>
      obtain ⟨ha, hbs⟩ := List.pairwise_cons.1 hl
      rw [distinctAfter]
      split
      · refine ih a (List.pairwise_cons.2 ⟨?_, (List.pairwise_cons.1 hbs).2⟩)
        exact fun c hc => ha c (List.mem_cons_of_mem _ hc)
      · rename_i hab
        refine List.pairwise_cons.2 ⟨fun c hc => ?_, ih b hbs⟩
        rw [Bool.eq_false_iff]
        intro hac
        rcases List.mem_cons.1 hc with rfl | hc
        · exact hab hac
        · have hbc : r b c :=
            (List.pairwise_cons.1 hbs).1 c ((distinctAfter_sublist b bs).subset hc)
          exact hab (hrow a b c (ha b (List.mem_cons_self ..)) hbc hac)

end Distinct

variable {host : Host} {files : List SourceFile} {f : SourceFile} {t : FileTree}

theorem mem_of_mem_inPathOrder (h : f ∈ inPathOrder files) : f ∈ files :=
  (sortBy_perm _ files).mem_iff.1 ((distinct_sublist _).subset h)

/-- Files in the order of their paths have different paths. -/
theorem pairwise_inPathOrder (files : List SourceFile) :
    (inPathOrder files).Pairwise fun a b => a.steps ≠ b.steps := by
  have hsorted := sortBy_pairwise (fun a b => Path.precedes_total (SourceFile.steps a) b.steps)
    (fun _ _ _ => Path.precedes_trans) files
  -- A path between two equal ones is equal to both.
  have hrow : ∀ a b c : SourceFile, Path.precedes a.steps b.steps = true →
      Path.precedes b.steps c.steps = true → (a.steps == c.steps) = true →
      (a.steps == b.steps) = true := by
    intro a b c hab hbc hac
    rw [beq_iff_eq] at hac ⊢
    exact Path.precedes_antisymm hab (hac ▸ hbc)
  exact (pairwise_distinct hrow hsorted).imp fun hne => by simpa using hne

/-! ### Selections -/

/-- A place that a component can have below a directory: plain names, the last of which has the
extension of components. -/
structure SourceFile.IsComponent (f : SourceFile) : Prop where
  plain : ∀ name ∈ f.names, Path.Plain name
  extension : f.names.getLast?.bind Path.extension? = some componentExtension

theorem SourceFile.IsComponent.exists_names (h : f.IsComponent) :
    ∃ directory name, f.names = directory ++ [name] ∧ Path.extension? name = some "svelte" := by
  obtain ⟨name, hname, hextension⟩ := Option.bind_eq_some_iff.1 h.extension
  obtain ⟨directory, hnames⟩ := List.getLast?_eq_some_iff.1 hname
  exact ⟨directory, name, hnames, hextension⟩

theorem isComponent_of_mem_selectPattern (hlaw : host.Lawful) (ht : t.Proper) {pattern : String}
    (h : selectPattern host t pattern = .ok files) (hf : f ∈ files) : f.IsComponent := by
  unfold selectPattern at h
  obtain ⟨fits, _, hfiles⟩ := bind_eq_ok_iff.1 h
  rw [pure_eq_ok_iff] at hfiles
  subst hfiles
  obtain ⟨hfound, hselected⟩ := List.mem_filter.1 hf
  obtain ⟨names, hnames, rfl⟩ := List.mem_map.1 hfound
  simp only [isSelected, Bool.and_eq_true, beq_iff_eq] at hselected
  exact ⟨hlaw.walk t ht _ names hnames, hselected.1⟩

/-- What is selected are components. -/
theorem isComponent_of_mem_select (hlaw : host.Lawful) (ht : t.Proper) {patterns : List String}
    (h : f ∈ (select host t patterns).files) : f.IsComponent := by
  obtain ⟨⟨pattern, outcome⟩, hpattern, hf⟩ := List.mem_flatMap.1 (mem_of_mem_inPathOrder h)
  obtain ⟨_, _, hselect⟩ := List.mem_map.1 hpattern
  cases outcome with
  | error e => cases hf
  | ok files => exact isComponent_of_mem_selectPattern hlaw ht (Prod.ext_iff.1 hselect).2 hf

theorem pairwise_select (host : Host) (t : FileTree) (patterns : List String) :
    (select host t patterns).files.Pairwise fun a b => a.steps ≠ b.steps :=
  pairwise_inPathOrder _

end CssRune
