/-
**Classes have names that can be read.**

The classes of a stylesheet stand in the preludes of its rules, and a prelude is kept as it was
read.  So what is known of selector lists that are read is known of the selectors of a component,
and above all that the name of a class is an identifier: a backslash takes the next character along,
and all other characters are those of names.

Main results:

* `preluded_of_mem_selectors` — the selectors of a component were read as parts of preludes;
* `afterIdent_of_mem_runesIn` — **the name of a rune class is an identifier**.
-/

import CssRune.Proofs.Markup.StyleElements
import CssRune.Proofs.Preprocessing
import CssRune.Proofs.Rune.Commutation
import CssRune.Proofs.Style.Classes
import CssRune.Proofs.Style.Rounds

set_option autoImplicit false

namespace CssRune

/-! ### Preludes are kept as they are read -/

/-- A complex selector was read as part of a prelude, whose range it is listed with. -/
def Preluded (p : Span × ComplexSelector) : Prop :=
  ∃ c l, readSelectorList none c = .ok l ∧ l.span = p.1 ∧ p.2 ∈ l.children

/-- The complex selectors of a node that is read were read as parts of preludes. -/
theorem holdsOfRead_preluded : HoldsOfRead fun n => ∀ p ∈ n.selectors, Preluded p where
  rule := by
    intro c prelude block span hprelude below
    rw [StyleNode.selectors, BlockOf.selectors_eq, SelectorList.withList, List.forall_mem_append,
      List.forall_mem_map]
    refine ⟨fun x hx => ⟨c, prelude, hprelude, rfl, hx⟩, fun p hp => ?_⟩
    obtain ⟨n, hn, hp⟩ := List.mem_flatMap.1 hp
    exact below n hn p hp
  atRule := by
    intro name range block span _ below p hp
    cases block with
    | none => cases hp
    | some b =>
      rw [StyleNode.selectors, BlockOf.selectors_eq] at hp
      obtain ⟨n, hn, hp⟩ := List.mem_flatMap.1 hp
      exact below b rfl n hn p hp
  declaration := by
    intro d p hp
    cases hp

section Components

variable {scripts : ScriptReader} {source : String} {component : Component}

/-- **The complex selectors of a component were read as parts of preludes.** -/
theorem preluded_of_mem_selectors (hread : Component.read scripts source = .ok component) :
    ∀ p ∈ component.selectors, Preluded p := by
  intro p hp
  obtain ⟨sheet, hsheet, hp⟩ := List.mem_flatMap.1 hp
  obtain ⟨_, hsheet⟩ := Component.readsStyle_of_read hread (Option.mem_toList.1 hsheet)
  obtain ⟨⟨nodes, finish⟩, hnodes, h⟩ := bind_eq_ok_iff.1 hsheet
  rw [← pure_eq_ok_iff.1 h, selectorsOfNodes_eq] at hp
  obtain ⟨n, hn, hp⟩ := List.mem_flatMap.1 hp
  exact holdsOfRead_preluded.of_readItemsF _ false _ nodes finish hnodes n hn p hp

/-! ### Names are identifiers -/

/-- The classes of a complex selector that was read have identifiers for names. -/
theorem Preluded.afterIdent {p : Span × ComplexSelector} (h : Preluded p) {name : String}
    {span : Span} (hclass : (name, span) ∈ classesIn p.2.simples) :
    afterIdent name.toList = [] := by
  obtain ⟨c, l, hread, _, hmem⟩ := h
  obtain ⟨source, hwithin, _⟩ := c.exists_within
  obtain ⟨xs, hitems, hl⟩ := exists_items (escapesArgs _ _) hwithin hread
  obtain ⟨x, hx, hvalue⟩ := List.mem_map.1 (hl ▸ hmem)
  obtain ⟨start, hsound⟩ := hitems.sound x hx
  rw [← hvalue, ← hsound.classes] at hclass
  obtain ⟨sign, hsign, hname⟩ := List.mem_filterMap.1 hclass
  cases sign with
  | char ch => cases hname
  | class_ name' span' =>
    cases hname
    exact hsound.placed.afterIdent hsign

/-- **The name of a rune class is an identifier.** -/
theorem afterIdent_of_mem_runesIn {usage : Usage} {o : Occurrence}
    (hread : Component.read scripts source = .ok component)
    (ho : o ∈ component.runesIn usage) : afterIdent o.name.toList = [] := by
  obtain ⟨p, hp, ho⟩ := List.mem_flatMap.1 ho
  have hparts := (mem_runesIn_iff.1 ho).1
  rw [p.2.parts_eq] at hparts
  have hclass : (o.name, o.span) ∈ classesIn p.2.simples := List.mem_filterMap.2 ⟨_, hparts, rfl⟩
  exact (preluded_of_mem_selectors hread p hp).afterIdent hclass

end Components

end CssRune
