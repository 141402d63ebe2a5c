/-
**How the parts of a stylesheet stand in each other.**

Rules, at-rules, declarations, blocks, selector lists and complex, relative and simple selectors are
the parts of a stylesheet.  Each part has the parts directly below it in order, and what is true of
one part and its children carries over to everything below it: children are a row inside their
parent.  Ranges that follow on each other without a gap are found in one place only, among the
simple selectors of one relative selector: between any two others stands a combinator, a comma, a
parenthesis or a brace.

* `StylePart`, `StylePart.children`, `StylePart.Below` — the parts;
* `StylePart.Laid.below`, `StylePart.Laid.row` — **children are a row inside their parent**;
* `StylePart.core` — where the simple selectors below a part are, so that the cores of two siblings
  never touch;
* `StylePart.eq_of_touching` — **simple selectors that touch are of one relative selector**;
* `StyleSheet.WellSpanned`, `StyleSheet.wellSpanned_of_read` — **every stylesheet that is read in a
  component is well spanned**.
-/

import CssRune.Proofs.Components
import CssRune.Proofs.Style.Parts
import CssRune.Script.Grammar

set_option autoImplicit false

namespace CssRune

/-! ### Parts -/

/-- A part of a stylesheet. -/
inductive StylePart where
  /-- A rule, an at-rule or a declaration. -/
  | node (n : StyleNode)
  | block (b : StyleBlock)
  | list (l : SelectorList)
  | complex (c : ComplexSelector)
  | relative (r : RelativeSelector)
  | simple (s : SimpleSelector)

namespace StylePart

/-- Where a part is written. -/
def span : StylePart → Span
  | node n => n.span
  | block b => b.span
  | list l => l.span
  | complex c => c.span
  | relative r => r.span
  | simple s => s.span

/-- The parts directly below a part, in the order of the tree. -/
def children : StylePart → List StylePart
  | node (.rule prelude b _) => [list prelude, block b]
  | node (.atRule _ _ b _) => b.toList.map block
  | node (.declaration _) => []
  | block b => b.children.map node
  | list l => l.children.map complex
  | complex c => c.children.map relative
  | relative r => r.selectors.map simple
  | simple s => s.args?.toList.map list

/-- The second part is the first one or somewhere below it. -/
inductive Below : StylePart → StylePart → Prop where
  | refl (p : StylePart) : Below p p
  | step {p q r : StylePart} (hq : q ∈ p.children) (h : Below q r) : Below p r

/-- The layout of a part and all parts below it. -/
def Laid (source : List Char) : StylePart → Prop
  | node n => n.Laid source
  | block b => b.LaidHere source ∧ ∀ n ∈ b.children, n.Laid source
  | list l => l.Laid source
  | complex c => c.Laid source
  | relative r => r.Laid source
  | simple s => s.Laid source ∧ s.span.start < s.span.stop

end StylePart

section Layouts

variable {source : List Char}

/-! ### One level of a layout -/

variable {l : SelectorList} {r : RelativeSelector}

theorem ComplexOf.Laid.relatives {c : ComplexSelector} (h : c.Laid source) :
    ∀ r ∈ c.children, r.Laid source := by
  cases c
  rw [ComplexOf.Laid] at h
  exact relativesLaid_iff.1 h.2

theorem RelativeOf.Laid.here (h : r.Laid source) : ∃ compound, r.LaidHere source compound := by
  cases r
  rw [RelativeOf.Laid] at h
  exact h.1

theorem RelativeOf.Laid.simples (h : r.Laid source) : ∀ s ∈ r.selectors, s.Laid source := by
  cases r
  rw [RelativeOf.Laid] at h
  exact simplesLaid_iff.1 h.2

theorem RelativeOf.LaidHere.le_compound {compound : Nat} (h : r.LaidHere source compound) :
    r.span.start + (if r.combinator.isSome then 1 else 0) ≤ compound := by
  cases hk : r.combinator with
  | none =>
    rw [h.start hk]
    simp
  | some k =>
    obtain ⟨_, hstart, hlt, hle⟩ := h.combinator k hk
    simp only [Option.isSome_some, if_true]
    omega

theorem ListOf.LaidHere.nonempty (h : l.LaidHere source) : l.span.start < l.span.stop := by
  obtain ⟨c, hc, hfirst⟩ := Option.map_eq_some_iff.1 h.first
  obtain ⟨hstart, hlt, hstop⟩ := h.row.inside _ (List.mem_map_of_mem (List.mem_of_mem_head? hc))
  omega

namespace StylePart

variable {p q : StylePart}

/-- The children of a part are laid out. -/
theorem Laid.child (h : p.Laid source) : ∀ q ∈ p.children, q.Laid source := by
  intro q hq
  cases p with
  | node n =>
    cases h with
    | rule here below =>
      rcases List.mem_cons.1 hq with rfl | hq
      · exact here.selectors
      · rw [List.mem_singleton.1 hq]
        exact ⟨here.braces, below⟩
    | atRule here below =>
      obtain ⟨b, hb, rfl⟩ := List.mem_map.1 hq
      rw [Option.mem_toList] at hb
      exact ⟨(here.block b hb).1, below b hb⟩
    | declaration => cases hq
  | block b =>
    obtain ⟨n, hn, rfl⟩ := List.mem_map.1 hq
    exact h.2 n hn
  | list l =>
    obtain ⟨c, hc, rfl⟩ := List.mem_map.1 hq
    exact ListOf.Laid.complexes h c hc
  | complex c =>
    obtain ⟨r, hr, rfl⟩ := List.mem_map.1 hq
    exact ComplexOf.Laid.relatives h r hr
  | relative r =>
    obtain ⟨s, hs, rfl⟩ := List.mem_map.1 hq
    obtain ⟨compound, here⟩ := RelativeOf.Laid.here h
    exact ⟨RelativeOf.Laid.simples h s hs,
      (here.chain.row.inside _ (List.mem_map_of_mem hs)).2.1⟩
  | simple s =>
    obtain ⟨l, hl, rfl⟩ := List.mem_map.1 hq
    exact h.1.args (Option.mem_toList.1 hl)

theorem Laid.below (h : p.Laid source) (hb : p.Below q) : q.Laid source := by
  induction hb with
  | refl => exact h
  | step hq _ ih => exact ih (h.child _ hq)

/-- **Children are a row inside their parent.** -/
theorem Laid.row (h : p.Laid source) :
    Span.Row 0 p.span.start p.span.stop (p.children.map span) := by
  cases p with
  | node n =>
    cases h with
    | @rule prelude block span here below =>
      have hprelude := here.selectors.here.nonempty
      have hbraces := here.braces.braces
      have hstart := here.start_le
      have hblock := here.le_block
      have hstop := here.stop_eq
      refine Span.Row.cons hstart hprelude ?_ (Span.Row.cons hblock ?_ ?_ (Span.Row.nil _ _ _))
      · show prelude.span.stop ≤ span.stop
        omega
      · show block.span.start < block.span.stop
        omega
      · exact Nat.le_of_eq hstop
    | @atRule name prelude block span here below =>
      cases block with
      | none => exact Span.Row.nil _ _ _
      | some b =>
        obtain ⟨hb, hstart, hstop⟩ := here.block b rfl
        have hbraces := hb.braces
        refine Span.Row.cons ?_ ?_ (Nat.le_of_eq hstop) (Span.Row.nil _ _ _)
        · exact Nat.le_of_lt hstart
        · show b.span.start < b.span.stop
          omega
    | declaration => exact Span.Row.nil _ _ _
  | block b =>
    rw [children, List.map_map]
    exact h.1.row.mono (Nat.le_succ _) (Nat.sub_le _ _)
  | list l =>
    rw [children, List.map_map]
    exact (ListOf.Laid.here h).row.close
  | complex c =>
    rw [children, List.map_map]
    exact (ComplexOf.Laid.here h).row
  | relative r =>
    obtain ⟨compound, here⟩ := RelativeOf.Laid.here h
    rw [children, List.map_map]
    have hstart := Nat.le_trans (Nat.le_add_right _ _) here.le_compound
    exact here.chain.row.mono hstart (Nat.le_refl _)
  | simple s =>
    cases hl : s.args? with
    | none =>
      rw [children, hl]
      exact Span.Row.nil _ _ _
    | some l =>
      obtain ⟨hstart, hstop⟩ := h.1.here.args l hl
      rw [children, hl]
      exact Span.Row.cons (Nat.le_of_lt hstart) (h.1.args hl).here.nonempty
        (Nat.le_of_lt hstop) (Span.Row.nil _ _ _)

/-! ### Cores -/

/-- Where the simple selectors below a part are: not where a rule or a block has its braces, a
relative selector its combinator, or a simple selector its own sign and parentheses. -/
def core : StylePart → Span
  | node n => ⟨n.span.start, n.span.stop - 1⟩
  | block b => ⟨b.span.start + 1, b.span.stop - 1⟩
  | relative r => ⟨r.span.start + (if r.combinator.isSome then 1 else 0), r.span.stop⟩
  | simple s => ⟨s.span.start + 1, s.span.stop - 1⟩
  | p => p.span

/-- The cores of children are inside that of their parent. -/
theorem Laid.core_children (h : p.Laid source) :
    ∀ q ∈ p.children, p.core.start ≤ q.core.start ∧ q.core.stop ≤ p.core.stop := by
  intro q hq
  cases p with
  | node n =>
    cases h with
    | @rule prelude block span here below =>
      have hbraces := here.braces.braces
      have hstart := here.start_le
      have hprelude := here.selectors.here.nonempty
      have hblock := here.le_block
      have hstop := here.stop_eq
      rcases List.mem_cons.1 hq with rfl | hq
      · show span.start ≤ prelude.span.start ∧ prelude.span.stop ≤ span.stop - 1
        omega
      · rw [List.mem_singleton.1 hq]
        show span.start ≤ block.span.start + 1 ∧ block.span.stop - 1 ≤ span.stop - 1
        omega
    | @atRule name prelude block span here below =>
      obtain ⟨b, hb, rfl⟩ := List.mem_map.1 hq
      rw [Option.mem_toList] at hb
      obtain ⟨hlaid, hstart, hstop⟩ := here.block b hb
      show span.start ≤ b.span.start + 1 ∧ b.span.stop - 1 ≤ span.stop - 1
      omega
    | declaration => cases hq
  | block b =>
    obtain ⟨n, hn, rfl⟩ := List.mem_map.1 hq
    obtain ⟨hstart, hlt, hstop⟩ := h.1.row.inside _ (List.mem_map_of_mem hn)
    show b.span.start + 1 ≤ n.span.start ∧ n.span.stop - 1 ≤ b.span.stop - 1
    omega
  | list l =>
    obtain ⟨c, hc, rfl⟩ := List.mem_map.1 hq
    obtain ⟨hstart, _, hstop⟩ := (ListOf.Laid.here h).row.inside _ (List.mem_map_of_mem hc)
    exact ⟨hstart, hstop⟩
  | complex c =>
    obtain ⟨r, hr, rfl⟩ := List.mem_map.1 hq
    obtain ⟨hstart, _, hstop⟩ := (ComplexOf.Laid.here h).row.inside _ (List.mem_map_of_mem hr)
    exact ⟨Nat.le_trans hstart (Nat.le_add_right _ _), hstop⟩
  | relative r =>
    obtain ⟨s, hs, rfl⟩ := List.mem_map.1 hq
    obtain ⟨compound, here⟩ := RelativeOf.Laid.here h
    obtain ⟨hstart, hlt, hstop⟩ := here.chain.row.inside _ (List.mem_map_of_mem hs)
    have hle := here.le_compound
    show r.span.start + _ ≤ s.span.start + 1 ∧ s.span.stop - 1 ≤ r.span.stop
    omega
  | simple s =>
    obtain ⟨l, hl, rfl⟩ := List.mem_map.1 hq
    obtain ⟨hstart, hstop⟩ := h.1.here.args l (Option.mem_toList.1 hl)
    show s.span.start + 1 ≤ l.span.start ∧ l.span.stop ≤ s.span.stop - 1
    omega

/-- The cores of siblings do not touch. -/
theorem Laid.apart_children (h : p.Laid source) :
    p.children.Pairwise fun q r => q.core.stop + 1 ≤ r.core.start := by
  cases p with
  | node n =>
    cases h with
    | @rule prelude block span here below =>
      refine List.pairwise_pair.2 ?_
      exact Nat.succ_le_succ here.le_block
    | @atRule name prelude block span here below =>
      cases block with
      | none => exact List.Pairwise.nil
      | some b => exact List.pairwise_singleton _ _
    | declaration => exact List.Pairwise.nil
  | block b =>
    refine List.pairwise_map.2 ((List.pairwise_map.1 h.1.row.apart).imp_of_mem ?_)
    intro m n hm _ hmn
    have hlt := (h.1.row.inside _ (List.mem_map_of_mem hm)).2.1
    show m.span.stop - 1 + 1 ≤ n.span.start
    omega
  | list l =>
    exact List.pairwise_map.2 (List.pairwise_map.1 (ListOf.Laid.here h).row.apart)
  | complex c =>
    -- all but the first have a combinator in front of their core
    have here := ComplexOf.Laid.here h
    have hrow := List.pairwise_map.1 here.row.apart
    have hcombinators := here.combinators
    refine List.pairwise_map.2 ?_
    cases hcs : c.children with
    | nil => exact List.Pairwise.nil
    | cons first rest =>
      rw [hcs] at hrow hcombinators
      have hcore : ∀ r t : RelativeSelector, t ∈ rest → r.span.stop + 0 ≤ t.span.start →
          (relative r).core.stop + 1 ≤ (relative t).core.start := by
        intro r t ht hrt
        show r.span.stop + 1 ≤ t.span.start + (if t.combinator.isSome then 1 else 0)
        rw [hcombinators t ht, if_pos rfl]
        exact Nat.succ_le_succ hrt
      obtain ⟨hfirst, hrest⟩ := List.pairwise_cons.1 hrow
      exact List.pairwise_cons.2 ⟨fun t ht => hcore first t ht (hfirst t ht),
        hrest.imp_of_mem fun _ ht hrt => hcore _ _ ht hrt⟩
  | relative r =>
    obtain ⟨compound, here⟩ := RelativeOf.Laid.here h
    refine List.pairwise_map.2 ((List.pairwise_map.1 here.chain.row.apart).imp ?_)
    intro s t hst
    show s.span.stop - 1 + 1 ≤ t.span.start + 1
    omega
  | simple s =>
    cases hl : s.args? with
    | none =>
      rw [StylePart.children, hl]
      exact List.Pairwise.nil
    | some l =>
      rw [StylePart.children, hl]
      exact List.pairwise_singleton _ _

variable {r r' : RelativeSelector} {s t : SimpleSelector}

/-- The simple selectors of a relative selector below a part are in the core of the part. -/
theorem Laid.inside_core (h : p.Laid source) (hr : p.Below (.relative r)) :
    ∀ s ∈ r.selectors,
      p.core.start ≤ s.span.start ∧ s.span.start < s.span.stop ∧ s.span.stop ≤ p.core.stop := by
  generalize hx : StylePart.relative r = x at hr
  induction hr with
  | refl =>
    subst hx
    intro s hs
    obtain ⟨compound, here⟩ := RelativeOf.Laid.here h
    obtain ⟨hstart, hlt, hstop⟩ := here.chain.row.inside _ (List.mem_map_of_mem hs)
    exact ⟨Nat.le_trans here.le_compound hstart, hlt, hstop⟩
  | step hq _ ih =>
    intro s hs
    obtain ⟨hstart, hlt, hstop⟩ := ih (h.child _ hq) hx s hs
    obtain ⟨hlo, hhi⟩ := h.core_children _ hq
    exact ⟨Nat.le_trans hlo hstart, hlt, Nat.le_trans hstop hhi⟩

/-! ### Touching selectors -/

/-- Relative selectors with simple selectors that touch are not below different siblings. -/
theorem eq_of_touching_below {parts : List StylePart} {q' : StylePart}
    (hlaid : ∀ q ∈ parts, q.Laid source)
    (hapart : parts.Pairwise fun q q' => q.core.stop + 1 ≤ q'.core.start) (hq : q ∈ parts)
    (hq' : q' ∈ parts) (hr : q.Below (.relative r)) (hr' : q'.Below (.relative r'))
    (hs : s ∈ r.selectors) (ht : t ∈ r'.selectors) (htouch : s.span.stop = t.span.start) :
    q = q' := by
  refine Classical.byContradiction fun hne => ?_
  obtain ⟨hstart, hlt, hstop⟩ := (hlaid q hq).inside_core hr s hs
  obtain ⟨hstart', hlt', hstop'⟩ := (hlaid q' hq').inside_core hr' t ht
  have hcores := rel_or_rel_of_pairwise hapart hq hq' hne
  omega

/-- A simple selector and one in the argument of another do not touch. -/
theorem Laid.not_touching_args (h : (relative r).Laid source) (hq : q ∈ (relative r).children)
    (hr' : q.Below (.relative r')) (hs : s ∈ r.selectors) (ht : t ∈ r'.selectors) :
    s.span.stop ≠ t.span.start ∧ t.span.stop ≠ s.span.start := by
  obtain ⟨u, hu, rfl⟩ := List.mem_map.1 hq
  obtain ⟨hstart, hlt, hstop⟩ := (h.child _ hq).inside_core hr' t ht
  have hu' : u.span.start + 1 ≤ t.span.start ∧ t.span.stop ≤ u.span.stop - 1 := ⟨hstart, hstop⟩
  obtain ⟨compound, here⟩ := RelativeOf.Laid.here h
  have hslt := (here.chain.row.inside _ (List.mem_map_of_mem hs)).2.1
  by_cases hsu : s = u
  · subst hsu
    omega
  · -- two simple selectors of one compound are apart
    have hsides := rel_or_rel_of_pairwise (List.pairwise_map.1 here.chain.row.apart) hs hu hsu
    omega

/-- **Simple selectors that touch are of one relative selector.** -/
theorem eq_of_touching (h : p.Laid source) (hr : p.Below (.relative r))
    (hr' : p.Below (.relative r')) (hs : s ∈ r.selectors) (ht : t ∈ r'.selectors)
    (htouch : s.span.stop = t.span.start) : r = r' := by
  generalize hx : StylePart.relative r = x at hr
  induction hr with
  | refl =>
    subst hx
    cases hr' with
    | refl => rfl
    | step hq hr' => exact absurd htouch (h.not_touching_args hq hr' hs ht).1
  | @step p q x hq hb ih =>
    subst hx
    cases hr' with
    | refl => exact absurd htouch (h.not_touching_args hq hb ht hs).2
    | @step _ q' _ hq' hb' =>
      -- the two descents part here, or both go on below the same child
      obtain rfl := eq_of_touching_below h.child h.apart_children hq hq' hb hb' hs ht htouch
      exact ih (h.child _ hq) hb' rfl

end StylePart

end Layouts

/-! ### Stylesheets -/

/-- A stylesheet has a part if it is one of its nodes or below one. -/
def StyleSheet.Has (sheet : StyleSheet) (p : StylePart) : Prop :=
  ∃ n ∈ sheet.children, (StylePart.node n).Below p

/-- The tree of a stylesheet fits the text it was read from.  Every part is inside its parent, after
the siblings before it.  The simple selectors of a relative selector follow on each other, those of
different relative selectors never do, and they are spelled as their names say. -/
structure StyleSheet.WellSpanned (source : List Char) (sheet : StyleSheet) : Prop where
  content : sheet.span.start ≤ sheet.content.start ∧ sheet.content.stop ≤ sheet.span.stop
  top : Span.Row 0 sheet.content.start sheet.content.stop (sheet.children.map StyleNode.span)
  nested : ∀ p, sheet.Has p →
    Span.Row 0 p.span.start p.span.stop (p.children.map StylePart.span)
  contiguous : ∀ r, sheet.Has (.relative r) →
    ∃ start < r.span.stop, Span.Chain start r.span.stop (r.selectors.map SimpleSelector.span)
  spread : ∀ r r', sheet.Has (.relative r) → sheet.Has (.relative r') →
    ∀ s ∈ r.selectors, ∀ t ∈ r'.selectors, s.span.stop = t.span.start → r = r'
  ends : ∀ c, sheet.Has (.complex c) →
    c.children.head?.map (·.span.start) = some c.span.start ∧
      c.children.getLast?.map (·.span.stop) = some c.span.stop
  spelled : ∀ s, sheet.Has (.simple s) → s.Spelled (Text.slice source s.span)

variable {source : List Char} {sheet : StyleSheet}

theorem StyleSheet.Laid.laid_of_has {p : StylePart} (h : sheet.Laid source) (hp : sheet.Has p) :
    p.Laid source := by
  obtain ⟨n, hn, hb⟩ := hp
  exact StylePart.Laid.below (show (StylePart.node n).Laid source from h.below n hn) hb

theorem StyleSheet.Laid.eq_of_touching {r r' : RelativeSelector} {s t : SimpleSelector}
    (h : sheet.Laid source) (hr : sheet.Has (.relative r)) (hr' : sheet.Has (.relative r'))
    (hs : s ∈ r.selectors) (ht : t ∈ r'.selectors) (htouch : s.span.stop = t.span.start) :
    r = r' := by
  obtain ⟨n, hn, hb⟩ := hr
  obtain ⟨n', hn', hb'⟩ := hr'
  have hlaid : ∀ q ∈ sheet.children.map StylePart.node, q.Laid source :=
    List.forall_mem_map.2 h.below
  have hapart : (sheet.children.map StylePart.node).Pairwise fun q q' =>
      q.core.stop + 1 ≤ q'.core.start := by
    refine List.pairwise_map.2 ((List.pairwise_map.1 h.row.apart).imp_of_mem ?_)
    intro m n hm _ hmn
    have hlt := (h.row.inside _ (List.mem_map_of_mem hm)).2.1
    show m.span.stop - 1 + 1 ≤ n.span.start
    omega
  cases StylePart.eq_of_touching_below hlaid hapart (List.mem_map_of_mem hn)
    (List.mem_map_of_mem hn') hb hb' hs ht htouch
  exact StylePart.eq_of_touching (hlaid _ (List.mem_map_of_mem hn)) hb hb' hs ht htouch

/-- The stylesheet of a component is laid out in its source. -/
theorem laid_style_of_read {scripts : ScriptReader} {source : String} {component : Component}
    (h : Component.read scripts source = .ok component) (hsheet : component.style = some sheet) :
    sheet.Laid source.toList := by
  obtain ⟨_, items, _, hlaid, _, _, hstyle⟩ := laid_read h
  have hmem : sheet ∈ items.filterMap TopItem.sheet? := by
    rw [← hstyle, hsheet]
    exact List.mem_singleton.2 rfl
  obtain ⟨i, hi, his⟩ := List.mem_filterMap.1 hmem
  obtain rfl := TopItem.eq_sheet his
  exact hlaid _ hi

/-- **Every stylesheet that is read in a component is well spanned.** -/
theorem StyleSheet.wellSpanned_of_read {scripts : ScriptReader} {source : String}
    {component : Component} {sheet : StyleSheet} (h : Component.read scripts source = .ok component)
    (hsheet : component.style = some sheet) : sheet.WellSpanned source.toList := by
  have hlaid := laid_style_of_read h hsheet
  refine ⟨⟨hlaid.start_le, hlaid.stop_le⟩, hlaid.row, ?_, ?_, ?_, ?_, ?_⟩
  · intro p hp
    exact (hlaid.laid_of_has hp).row
  · intro r hr
    obtain ⟨compound, here⟩ := RelativeOf.Laid.here (hlaid.laid_of_has hr)
    exact ⟨compound, here.nonempty, here.chain⟩
  · intro r r' hr hr' s hs t ht htouch
    exact hlaid.eq_of_touching hr hr' hs ht htouch
  · intro c hc
    have here := ComplexOf.Laid.here (hlaid.laid_of_has hc)
    exact ⟨here.first, here.last⟩
  · intro s hs
    exact (hlaid.laid_of_has hs).1.here.spelled

/-- A stylesheet with a rule nested in an at-rule, selectors in the argument of a pseudo-class, and
a second rule. -/
def nestedStyle : String :=
  "<style>@media x\x7b.a.b:is(.c>#d,::before) e,&:hover\x7bf:g\x7d\x7d .h\x7b\x7d</style>"

/-- Its two nodes are a row, and its first complex selector has a compound of three selectors that
follow on each other and one of a single selector after a blank. -/
theorem StyleSheet.wellSpanned_of_read_nestedStyle :
    ∃ component sheet, Component.read ScriptReader.grammar nestedStyle = .ok component ∧
      component.style = some sheet ∧ sheet.content = ⟨7, 60⟩ ∧
      sheet.children.map StyleNode.span = [⟨7, 55⟩, ⟨56, 60⟩] ∧
      (component.selectors.map fun p => p.2.simples.map SimpleSelector.span) =
        [[⟨16, 18⟩, ⟨18, 20⟩, ⟨20, 39⟩, ⟨40, 41⟩], [⟨42, 43⟩, ⟨43, 49⟩], [⟨56, 58⟩]] ∧
      sheet.WellSpanned nestedStyle.toList := by
  have heval : ((Component.read ScriptReader.grammar nestedStyle).toOption.bind fun component =>
      component.style.map fun sheet => (sheet.content, sheet.children.map StyleNode.span,
        component.selectors.map fun p => p.2.simples.map SimpleSelector.span)) =
      some (⟨7, 60⟩, [⟨7, 55⟩, ⟨56, 60⟩],
        [[⟨16, 18⟩, ⟨18, 20⟩, ⟨20, 39⟩, ⟨40, 41⟩], [⟨42, 43⟩, ⟨43, 49⟩], [⟨56, 58⟩]]) := by
    decide +kernel
  obtain ⟨component, hread, heval⟩ := Option.bind_eq_some_iff.1 heval
  obtain ⟨sheet, hsheet, heval⟩ := Option.map_eq_some_iff.1 heval
  simp only [Prod.mk.injEq] at heval
  rw [toOption_eq_some_iff] at hread
  exact ⟨component, sheet, hread, hsheet, heval.1, heval.2.1, heval.2.2,
    StyleSheet.wellSpanned_of_read hread hsheet⟩

end CssRune
