/-
**The simple selectors of a complex selector lie in a row.**

Walking a selector lists a pseudo-class before what its argument holds, so the ranges that are met
overlap.  They no longer do when the pseudo-classes that are entered are left out: what remains are
the *atoms* of the walk, and a selector that is laid out has its atoms in a row.

* `ComplexOf.simples`, `ListOf.simples` — the simple selectors outside arguments;
* `SimpleSelector.forall_of_args` — induction on simple selectors through their arguments;
* `ComplexOf.parts_eq`, `SimpleSelector.parts_eq` — the walk, one level at a time;
* `SimpleSelector.isEntered` — the selectors that are no atoms;
* `ComplexOf.Laid.laidHere_of_mem_parts` — everything that is met is laid out;
* `ComplexOf.Laid.row_atoms` — **the atoms of a complex selector are a row**.
-/

import CssRune.Proofs.Style.Selectors

set_option autoImplicit false

namespace CssRune

/-! ### The walk, one level at a time -/

/-- The simple selectors of the compounds of a complex selector. -/
def ComplexOf.simples (c : ComplexSelector) : List SimpleSelector :=
  c.children.flatMap RelativeOf.selectors

/-- The simple selectors of the complex selectors of a list. -/
def ListOf.simples (l : SelectorList) : List SimpleSelector := l.children.flatMap ComplexOf.simples

/-- Whether the walk enters the argument of a selector. -/
def SimpleSelector.isEntered (enters : String → Bool) : SimpleSelector → Bool
  | .pseudoClass name (some _) _ => enters name
  | _ => false

/-- The simple selectors that the walk finds directly below one. -/
def SimpleSelector.entered (enters : String → Bool) : SimpleSelector → List SimpleSelector
  | .pseudoClass name (some args) _ => if enters name then args.simples else []
  | _ => []

section Walk

variable {enters : String → Bool}

theorem partsOfSimples_eq (ss : List SimpleSelector) :
    partsOfSimples enters ss = ss.flatMap (SimpleSelector.parts enters) := by
  induction ss with
  | nil => rfl
  | cons s ss ih => rw [partsOfSimples, ih, List.flatMap_cons]

theorem partsOfRelatives_eq (rs : List RelativeSelector) :
    partsOfRelatives enters rs =
      (rs.flatMap RelativeOf.selectors).flatMap (SimpleSelector.parts enters) := by
  induction rs with
  | nil => rfl
  | cons r rs ih =>
    cases r
    rw [partsOfRelatives, RelativeOf.parts, partsOfSimples_eq, ih, List.flatMap_cons,
      List.flatMap_append]

theorem ComplexOf.parts_eq (c : ComplexSelector) :
    c.parts enters = c.simples.flatMap (SimpleSelector.parts enters) := by
  cases c
  rw [ComplexOf.parts, partsOfRelatives_eq, ComplexOf.simples]

theorem ListOf.parts_eq (l : SelectorList) :
    l.parts enters = l.simples.flatMap (SimpleSelector.parts enters) := by
  obtain ⟨cs, span⟩ := l
  rw [ListOf.parts, ListOf.simples]
  induction cs with
  | nil => rfl
  | cons c cs ih =>
    rw [partsOfComplexes, ih, c.parts_eq, List.flatMap_cons, List.flatMap_append]

theorem SimpleSelector.parts_eq (s : SimpleSelector) :
    s.parts enters = s :: (s.entered enters).flatMap (SimpleSelector.parts enters) := by
  cases s with
  | named kind name span => rfl
  | nesting span => rfl
  | pseudoClass name args span =>
    cases args with
    | none => rfl
    | some args =>
      rw [SimpleSelector.parts, SimpleSelector.entered, args.parts_eq]
      split <;> rfl

variable {s : SimpleSelector}

theorem SimpleSelector.entered_eq_nil (h : s.isEntered enters = false) : s.entered enters = [] := by
  unfold entered
  split
  · exact if_neg (Bool.eq_false_iff.1 h)
  · rfl

theorem SimpleSelector.exists_args_of_isEntered (h : s.isEntered enters = true) :
    ∃ l, s.args? = some l ∧ s.entered enters = l.simples := by
  unfold isEntered at h
  split at h
  · rename_i args _
    exact ⟨args, rfl, by rw [entered, if_pos h]⟩
  · cases h

end Walk

/-! ### Induction through arguments -/

/-- **Induction through arguments**: what holds of a simple selector as soon as it holds of those in
its argument holds of all. -/
theorem SimpleSelector.forall_of_args {P : SimpleSelector → Prop}
    (step : ∀ s, (∀ l, s.args? = some l → ∀ t ∈ l.simples, P t) → P s) (s : SimpleSelector) :
    P s := by
  refine @SimpleSelector.rec P (fun args => ∀ l, args = some l → ∀ t ∈ l.simples, P t)
    (fun l => ∀ t ∈ l.simples, P t) (fun cs => ∀ t ∈ cs.flatMap ComplexOf.simples, P t)
    (fun c => ∀ t ∈ c.simples, P t) (fun rs => ∀ t ∈ rs.flatMap RelativeOf.selectors, P t)
    (fun r => ∀ t ∈ r.selectors, P t) (fun ss => ∀ t ∈ ss, P t)
    ?named ?pseudoClass ?nesting ?none ?some ?list ?noComplex ?complexes ?complex ?noRelative
    ?relatives ?relative ?noSimple ?simples s
  case named => exact fun kind name span => step _ (by rintro _ ⟨⟩)
  case pseudoClass => exact fun name args span ih => step _ ih
  case nesting => exact fun span => step _ (by rintro _ ⟨⟩)
  case none => rintro _ ⟨⟩
  case some =>
    rintro args ih _ ⟨⟩
    exact ih
  case list => exact fun children span ih => ih
  case noComplex => simp
  case complexes =>
    intro c cs ihc ihcs
    rw [List.flatMap_cons, List.forall_mem_append]
    exact ⟨ihc, ihcs⟩
  case complex => exact fun children span ih => ih
  case noRelative => simp
  case relatives =>
    intro r rs ihr ihrs
    rw [List.flatMap_cons, List.forall_mem_append]
    exact ⟨ihr, ihrs⟩
  case relative => exact fun combinator selectors span ih => ih
  case noSimple => simp
  case simples =>
    intro s ss ihs ihss
    rw [List.forall_mem_cons]
    exact ⟨ihs, ihss⟩

/-! ### Layouts -/

section Layouts

variable {source : List Char} {enters : String → Bool}

variable {s : SimpleSelector} {l : SelectorList} {c : ComplexSelector}

theorem SimpleSelector.Laid.here (h : s.Laid source) : s.LaidHere source := by
  cases s with
  | named kind name span => exact h
  | nesting span => exact h
  | pseudoClass name args span =>
    cases args with
    | none => exact h
    | some args =>
      rw [SimpleSelector.Laid] at h
      exact h.1

theorem SimpleSelector.Laid.args (h : s.Laid source) (hl : s.args? = some l) : l.Laid source := by
  cases s with
  | named kind name span => cases hl
  | nesting span => cases hl
  | pseudoClass name args span =>
    cases hl
    rw [SimpleSelector.Laid] at h
    exact h.2

theorem ComplexOf.Laid.nonempty (h : c.Laid source) : c.span.start < c.span.stop := by
  obtain ⟨r, hr, _⟩ := Option.map_eq_some_iff.1 h.here.first
  obtain ⟨hstart, hlt, hstop⟩ :=
    h.here.row.inside r.span (List.mem_map_of_mem (List.mem_of_mem_head? hr))
  omega

theorem ComplexOf.Laid.laid_of_mem (h : c.Laid source) : ∀ s ∈ c.simples, s.Laid source := by
  intro s hs
  obtain ⟨⟨combinator, selectors, span⟩, hr, hmem⟩ := List.mem_flatMap.1 hs
  cases c
  rw [ComplexOf.Laid] at h
  have hrel := relativesLaid_iff.1 h.2 _ hr
  rw [RelativeOf.Laid] at hrel
  exact simplesLaid_iff.1 hrel.2 s hmem

theorem ListOf.Laid.laid_of_mem (h : l.Laid source) : ∀ s ∈ l.simples, s.Laid source := by
  intro s hs
  obtain ⟨c, hc, hmem⟩ := List.mem_flatMap.1 hs
  exact (h.complexes c hc).laid_of_mem s hmem

/-- The simple selectors of a compound are a row in it. -/
theorem RelativeOf.Laid.row_selectors {r : RelativeSelector} (h : r.Laid source) :
    Span.Row 0 r.span.start r.span.stop (r.selectors.map SimpleSelector.span) := by
  cases r
  rw [RelativeOf.Laid] at h
  obtain ⟨⟨compound, hhere⟩, _⟩ := h
  refine hhere.chain.row.mono ?_ (Nat.le_refl _)
  cases hk : RelativeOf.combinator _ with
  | none => exact Nat.le_of_eq (hhere.start hk).symm
  | some k =>
    obtain ⟨_, hstart, hne, hstop⟩ := hhere.combinator k hk
    omega

theorem ComplexOf.Laid.row_simples (h : c.Laid source) :
    Span.Row 0 c.span.start c.span.stop (c.simples.map SimpleSelector.span) := by
  rw [ComplexOf.simples, List.map_flatMap]
  refine h.here.row.flatMap_row fun r hr => ?_
  cases c
  rw [ComplexOf.Laid] at h
  exact (relativesLaid_iff.1 h.2 r hr).row_selectors

theorem ListOf.Laid.row_simples (h : l.Laid source) :
    Span.Row 0 l.span.start l.span.stop (l.simples.map SimpleSelector.span) := by
  rw [ListOf.simples, List.map_flatMap]
  exact h.here.row.flatMap_row fun c hc => (h.complexes c hc).row_simples

/-! ### Everything that is met -/

theorem SimpleSelector.Laid.laidHere_of_mem_parts (h : s.Laid source) :
    ∀ t ∈ s.parts enters, t.LaidHere source := by
  induction s using SimpleSelector.forall_of_args with
  | step s ih =>
    intro t ht
    rw [s.parts_eq] at ht
    rcases List.mem_cons.1 ht with rfl | ht
    · exact h.here
    · obtain ⟨u, hu, ht⟩ := List.mem_flatMap.1 ht
      cases hs : s.isEntered enters with
      | false =>
        rw [entered_eq_nil hs] at hu
        cases hu
      | true =>
        obtain ⟨l, hl, hentered⟩ := exists_args_of_isEntered hs
        rw [hentered] at hu
        exact ih l hl u hu ((h.args hl).laid_of_mem u hu) t ht

theorem ComplexOf.Laid.laidHere_of_mem_parts (h : c.Laid source) :
    ∀ t ∈ c.parts enters, t.LaidHere source := by
  intro t ht
  rw [c.parts_eq] at ht
  obtain ⟨s, hs, ht⟩ := List.mem_flatMap.1 ht
  exact (h.laid_of_mem s hs).laidHere_of_mem_parts t ht

/-- The atoms of a list of selectors that have been met: those that are not entered. -/
def atoms (enters : String → Bool) (ss : List SimpleSelector) : List SimpleSelector :=
  ss.filter fun s => !s.isEntered enters

theorem map_span_atoms_flatMap (ss : List SimpleSelector) :
    (atoms enters (ss.flatMap (SimpleSelector.parts enters))).map SimpleSelector.span =
      ss.flatMap fun s => (atoms enters (s.parts enters)).map SimpleSelector.span := by
  rw [atoms, List.filter_flatMap, List.map_flatMap]
  rfl

/-- The atoms of a simple selector are a row in it. -/
theorem SimpleSelector.Laid.row_atoms (h : s.Laid source) (hs : s.span.start < s.span.stop) :
    Span.Row 0 s.span.start s.span.stop
      ((atoms enters (s.parts enters)).map SimpleSelector.span) := by
  induction s using SimpleSelector.forall_of_args with
  | step s ih =>
    rw [s.parts_eq]
    cases he : s.isEntered enters with
    | false =>
      rw [entered_eq_nil he, List.flatMap_nil, atoms, List.filter_cons_of_pos (by simp [he])]
      exact Span.Row.cons (Nat.le_refl _) hs (Nat.le_refl _) (Span.Row.nil _ _ _)
    | true =>
      obtain ⟨l, hl, hentered⟩ := exists_args_of_isEntered he
      have hatoms : atoms enters (s :: (s.entered enters).flatMap (SimpleSelector.parts enters)) =
          atoms enters (l.simples.flatMap (SimpleSelector.parts enters)) := by
        rw [atoms, List.filter_cons_of_neg (by simp [he]), hentered]
        rfl
      have hrow := (h.args hl).row_simples
      obtain ⟨hstart, hstop⟩ := h.here.args l hl
      rw [hatoms, map_span_atoms_flatMap]
      refine (hrow.flatMap_row fun t ht => ?_).mono (by omega) (by omega)
      exact ih l hl t ht ((h.args hl).laid_of_mem t ht)
        (hrow.inside _ (List.mem_map_of_mem ht)).2.1

/-- **The atoms of a complex selector are a row in it.** -/
theorem ComplexOf.Laid.row_atoms (h : c.Laid source) (enters : String → Bool) :
    Span.Row 0 c.span.start c.span.stop
      ((atoms enters (c.parts enters)).map SimpleSelector.span) := by
  rw [c.parts_eq, map_span_atoms_flatMap]
  refine h.row_simples.flatMap_row fun s hs => ?_
  exact (h.laid_of_mem s hs).row_atoms (h.row_simples.inside _ (List.mem_map_of_mem hs)).2.1

end Layouts

end CssRune
