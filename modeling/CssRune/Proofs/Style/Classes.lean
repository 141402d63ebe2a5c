/-
**The classes that a stylesheet defines.**

A class is defined by a class selector in the prelude of a rule, however deep the rule is nested in
rules and at-rules, and however deep the class selector stands in the arguments of `:is`, `:where`,
`:not` and `:has`.  It is not defined by what stands in the argument of `:global`, nor by the block
of a keyframe rule.  This is said here by two relations, one for rules and one for class selectors,
and compared with the walks that list selectors.

The walks have no rule for keyframes, and enter every argument that is a selector list except those
of `:global`.  They find what is defined all the same, because the readers keep no node of a
keyframe rule and no selector list of any other pseudo-class.

Main definition:

* `Component.Defines` — **the stylesheet of a component defines a class**.

Main results:

* `HoldsOfRead.of_readItemsF` — **induction on the nodes that are read**;
* `shaped_readItemsF`, `shaped_of_read` — nothing is kept of keyframes;
* `defines_iff_of_read` — **the walk finds the classes that are defined**.
-/

import CssRune.Proofs.Components
import CssRune.Proofs.Style.Parts
import CssRune.Proofs.Style.Shapes

set_option autoImplicit false

namespace CssRune

/-! ### What a stylesheet defines -/

/-- The pseudo-classes whose argument is matched against the document like any other selector. -/
def matchingPseudoClasses : List String := ["is", "where", "not", "has"]

/-- Whether an at-rule holds keyframes; its name may start with that of a vendor. -/
def isKeyframes (name : String) : Bool := name.endsWith "keyframes"

/-- A class selector stands among simple selectors, or in an argument among them. -/
inductive HasClass (name : String) : List SimpleSelector → Prop where
  | here {ss : List SimpleSelector} {span : Span} (h : .named .class_ name span ∈ ss) :
      HasClass name ss
  | inArgument {ss : List SimpleSelector} {pseudo : String} {args : SelectorList} {span : Span}
      (h : .pseudoClass pseudo (some args) span ∈ ss) (hpseudo : pseudo ∈ matchingPseudoClasses)
      (below : HasClass name args.simples) : HasClass name ss

/-- A rule with a prelude stands among nodes, or in a block among them that holds no keyframes. -/
inductive HasRule (prelude : SelectorList) : List StyleNode → Prop where
  | here {nodes : List StyleNode} {block : StyleBlock} {span : Span}
      (h : .rule prelude block span ∈ nodes) : HasRule prelude nodes
  | inRule {nodes : List StyleNode} {other : SelectorList} {block : StyleBlock} {span : Span}
      (h : .rule other block span ∈ nodes) (below : HasRule prelude block.children) :
      HasRule prelude nodes
  | inAtRule {nodes : List StyleNode} {name : String} {range : Span} {block : StyleBlock}
      {span : Span} (h : .atRule name range (some block) span ∈ nodes)
      (hname : isKeyframes name = false) (below : HasRule prelude block.children) :
      HasRule prelude nodes

/-- The stylesheet of a component defines a class. -/
def Component.Defines (component : Component) (name : String) : Prop :=
  ∃ sheet, component.style = some sheet ∧
    ∃ prelude, HasRule prelude sheet.children ∧ HasClass name prelude.simples

/-! ### What readers keep -/

/-- A simple selector keeps a selector list only as the argument of a pseudo-class that takes one,
and so do the selectors in it. -/
inductive SimpleSelector.Argued : SimpleSelector → Prop where
  | plain {s : SimpleSelector} (h : s.args? = none) : SimpleSelector.Argued s
  | selectors {name : String} {args : SelectorList} {span : Span}
      (takes : takesSelectors name = true)
      (below : ∀ t ∈ args.simples, SimpleSelector.Argued t) :
      SimpleSelector.Argued (.pseudoClass name (some args) span)

/-- A node keeps arguments where they are taken, and nothing of keyframes; so do the nodes below
it. -/
inductive StyleNode.Shaped : StyleNode → Prop where
  | rule {prelude : SelectorList} {block : StyleBlock} {span : Span}
      (selectors : ∀ s ∈ prelude.simples, s.Argued)
      (below : ∀ n ∈ block.children, StyleNode.Shaped n) :
      StyleNode.Shaped (.rule prelude block span)
  | atRule {name : String} {range : Span} {block : Option StyleBlock} {span : Span}
      (keyframes : isKeyframes name = true → ∀ b, block = some b → b.children = [])
      (below : ∀ b, block = some b → ∀ n ∈ b.children, StyleNode.Shaped n) :
      StyleNode.Shaped (.atRule name range block span)
  | declaration {d : Declaration} : StyleNode.Shaped (.declaration d)

/-! ### Reading selectors -/

/-- A reader of arguments keeps selector lists only where they are taken. -/
def KeepsTaken (args : Cursor → Except ParseError SelectorList) : Prop :=
  ∀ c l, args c = .ok l → ∀ s ∈ l.simples, s.Argued

section Selectors

variable {args : Cursor → Except ParseError SelectorList} {beyond : Option Char} {c : Cursor}

theorem argued_readSimple (hargs : KeepsTaken args) {s : Step SimpleSelector c}
    (h : readSimple args beyond c = .ok (some s)) : s.value.Argued := by
  rcases readSimple_cases h with ⟨name, _, _, hs⟩ | ⟨name, _, list, _, _, _, _, htakes, hlist, hs⟩ |
    ⟨_, _, _, hplain, _⟩
  · rw [hs]
    exact .plain rfl
  · rw [hs]
    exact .selectors htakes (hargs _ list hlist)
  · exact .plain hplain

theorem argued_readCompound (hargs : KeepsTaken args) {r : Pace (List SimpleSelector) c}
    (h : readCompound args beyond c = .ok r) : ∀ s ∈ r.value, s.Argued := by
  fun_induction readCompound args beyond c with
  | case1 c ih =>
    obtain ⟨first, hfirst, h⟩ := bind_eq_ok_iff.1 h
    cases first with
    | none =>
      cases h
      simp
    | some s =>
      obtain ⟨more, hmore, h⟩ := bind_eq_ok_iff.1 h
      cases h
      exact List.forall_mem_cons.2 ⟨argued_readSimple hargs hfirst, ih s hmore⟩

theorem argued_readRelatives (hargs : KeepsTaken args) {isFirst : Bool}
    {r : Pace (List RelativeSelector) c} (h : readRelatives args beyond isFirst c = .ok r) :
    ∀ s ∈ r.value.flatMap RelativeOf.selectors, s.Argued := by
  fun_induction readRelatives args beyond isFirst c with
  | case1 isFirst c ih =>
    obtain ⟨blanks, _, h⟩ := bind_eq_ok_iff.1 h
    split at h
    · cases h
      simp
    · cases h
      simp
    · obtain ⟨x, hx, h⟩ := bind_eq_ok_iff.1 h
      obtain ⟨rest, hrest, h⟩ := bind_eq_ok_iff.1 h
      obtain ⟨_, _, _, _, _, compound, hcompound, _, _, hvalue⟩ := readRelative_eq_ok hx
      rw [← pure_eq_ok_iff.1 h, List.flatMap_cons, List.forall_mem_append, hvalue]
      exact ⟨argued_readCompound hargs hcompound, ih blanks x hrest⟩

theorem argued_readComplex (hargs : KeepsTaken args) {r : Pace ComplexSelector c}
    (h : readComplex args beyond c = .ok r) : ∀ s ∈ r.value.simples, s.Argued := by
  obtain ⟨blanks, _, h⟩ := bind_eq_ok_iff.1 h
  obtain ⟨relatives, hrelatives, h⟩ := bind_eq_ok_iff.1 h
  split at h
  · cases h
  · cases h
    exact argued_readRelatives hargs hrelatives

theorem argued_readComplexes (hargs : KeepsTaken args) {r : Pace (List ComplexSelector) c}
    (h : readComplexes args beyond c = .ok r) :
    ∀ s ∈ r.value.flatMap ComplexOf.simples, s.Argued := by
  fun_induction readComplexes args beyond c with
  | case1 c ih =>
    obtain ⟨complex, hcomplex, h⟩ := bind_eq_ok_iff.1 h
    obtain ⟨blanks, _, h⟩ := bind_eq_ok_iff.1 h
    have hfirst := argued_readComplex hargs hcomplex
    split at h
    · rename_i rest hrest
      obtain ⟨more, hmore, h⟩ := bind_eq_ok_iff.1 h
      rw [← pure_eq_ok_iff.1 h, List.flatMap_cons, List.forall_mem_append]
      exact ⟨hfirst, ih complex blanks rest hrest hmore⟩
    · rw [← pure_eq_ok_iff.1 h, List.flatMap_singleton]
      exact hfirst

end Selectors

/-- The reader of selector lists keeps arguments where they are taken, whatever the bound on their
nesting. -/
theorem keepsTaken_readSelectorListF (depth : Nat) (beyond : Option Char) :
    KeepsTaken (readSelectorListF depth beyond) := by
  induction depth generalizing beyond with
  | zero =>
    intro c l h
    cases h
  | succ depth ih =>
    intro c l h
    rw [readSelectorListF] at h
    obtain ⟨blanks, _, h⟩ := bind_eq_ok_iff.1 h
    obtain ⟨complexes, hcomplexes, h⟩ := bind_eq_ok_iff.1 h
    split at h
    · cases h
      exact argued_readComplexes (ih none) hcomplexes
    · cases h

/-! ### Reading stylesheets -/

/-- What is true of every node that is read: it is true of a rule whose prelude was read, of an
at-rule, which keeps nothing of keyframes, and of declarations, as soon as it is true of the nodes
in the block. -/
structure HoldsOfRead (P : StyleNode → Prop) : Prop where
  rule : ∀ {c : Cursor} {prelude : SelectorList} {block : StyleBlock} {span : Span},
    readSelectorList none c = .ok prelude → (∀ n ∈ block.children, P n) →
    P (.rule prelude block span)
  atRule : ∀ {name : String} {range : Span} {block : Option StyleBlock} {span : Span},
    (isKeyframes name = true → ∀ b, block = some b → b.children = []) →
    (∀ b, block = some b → ∀ n ∈ b.children, P n) → P (.atRule name range block span)
  declaration : ∀ d, P (.declaration d)

/-- A reader of nodes gives nodes of which something is true. -/
def Yields (P : StyleNode → Prop) (items : ItemReader) : Prop :=
  ∀ nested c nodes close, items nested c = .ok (nodes, close) → ∀ n ∈ nodes, P n

namespace HoldsOfRead

variable {P : StyleNode → Prop} {items : ItemReader} {beyond : Option Char} {c after : Cursor}
  {node : StyleNode}

theorem of_readBlock {block : StyleBlock} (hitems : Yields P items)
    (h : readBlock items c = .ok (block, after)) : ∀ n ∈ block.children, P n := by
  obtain ⟨⟨nodes, close⟩, hread, h⟩ := bind_eq_ok_iff.1 h
  cases h
  exact hitems true c.next nodes close hread

theorem of_readRule (hP : HoldsOfRead P) (hitems : Yields P items)
    (h : readRule items beyond c = .ok (node, after)) : P node := by
  obtain ⟨d, _, h⟩ := bind_eq_ok_iff.1 h
  split at h
  · cases h
  · obtain ⟨prelude, hprelude, h⟩ := bind_eq_ok_iff.1 h
    obtain ⟨⟨block, stop⟩, hblock, h⟩ := bind_eq_ok_iff.1 h
    cases h
    exact hP.rule hprelude (of_readBlock hitems hblock)

theorem of_readAtRule (hP : HoldsOfRead P) (hitems : Yields P items)
    (h : readAtRule items beyond c = .ok (node, after)) : P node := by
  simp only [readAtRule] at h
  split at h
  · cases h
  · obtain ⟨d, _, h⟩ := bind_eq_ok_iff.1 h
    split at h
    · split at h
      · -- the block of a keyframe rule is stepped over
        obtain ⟨⟨b, e⟩, hb, h⟩ := bind_eq_ok_iff.1 h
        cases h
        obtain ⟨stop, _, hb⟩ := bind_eq_ok_iff.1 hb
        cases hb
        exact hP.atRule (by rintro _ _ ⟨⟩; rfl) (by rintro _ ⟨⟩; simp)
      · rename_i hname
        obtain ⟨⟨b, e⟩, hb, h⟩ := bind_eq_ok_iff.1 h
        cases h
        exact hP.atRule (fun hkeyframes => absurd hkeyframes hname)
          (by rintro _ ⟨⟩; exact of_readBlock hitems hb)
    · cases h
      exact hP.atRule (by rintro _ _ ⟨⟩) (by rintro _ ⟨⟩)
    · cases h
      exact hP.atRule (by rintro _ _ ⟨⟩) (by rintro _ ⟨⟩)

theorem of_readItem (hP : HoldsOfRead P) {nested : Bool} (hitems : Yields P items)
    (h : readItem items beyond nested c = .ok (node, after)) : P node := by
  unfold readItem at h
  split at h
  · exact hP.of_readAtRule hitems h
  · obtain ⟨d, _, h⟩ := bind_eq_ok_iff.1 h
    split at h
    · obtain ⟨⟨declaration, stop⟩, _, h⟩ := bind_eq_ok_iff.1 h
      cases h
      exact hP.declaration declaration
    · exact hP.of_readRule hitems h

/-- **Induction on the nodes that are read**, whatever the bound on the steps of the reader. -/
theorem of_readItemsF (hP : HoldsOfRead P) (fuel : Nat) : Yields P (readItemsF beyond fuel) := by
  induction fuel with
  | zero =>
    intro nested c nodes close h
    cases h
  | succ fuel ih =>
    intro nested c nodes close h
    rw [readItemsF] at h
    obtain ⟨blanks, _, h⟩ := bind_eq_ok_iff.1 h
    simp only [] at h
    split at h
    · split at h
      · cases h
      · cases h
        simp
    · split at h
      · cases h
        simp
      · cases h
    · exact ih nested _ nodes close h
    · obtain ⟨⟨node, after⟩, hnode, h⟩ := bind_eq_ok_iff.1 h
      obtain ⟨⟨more, finish⟩, hmore, h⟩ := bind_eq_ok_iff.1 h
      cases h
      exact List.forall_mem_cons.2 ⟨hP.of_readItem ih hnode, ih nested _ more finish hmore⟩

end HoldsOfRead

/-- The reader of nodes keeps arguments where they are taken, and nothing of keyframes. -/
theorem yields_shaped_readItemsF {beyond : Option Char} (fuel : Nat) :
    Yields StyleNode.Shaped (readItemsF beyond fuel) := by
  have hshaped : HoldsOfRead StyleNode.Shaped :=
    { rule := fun hprelude below => .rule (keepsTaken_readSelectorListF _ _ _ _ hprelude) below
      atRule := fun keyframes below => .atRule keyframes below
      declaration := fun _ => .declaration }
  exact hshaped.of_readItemsF fuel

variable {source : List Char} {span : Span} {sheet : StyleSheet} {scripts : ScriptReader}
  {regions regions' : Regions} {component : Component} {name : String}

theorem shaped_readStyleSheet {content : Span}
    (h : readStyleSheet source content span = .ok sheet) : ∀ n ∈ sheet.children, n.Shaped := by
  obtain ⟨⟨nodes, finish⟩, hread, h⟩ := bind_eq_ok_iff.1 h
  cases h
  exact yields_shaped_readItemsF _ false _ nodes finish hread

/-! ### Reading components -/

/-- The stylesheet found so far, if there is one, keeps nothing of keyframes. -/
def Regions.Shaped (r : Regions) : Prop :=
  ∀ sheet, r.style = some sheet → ∀ n ∈ sheet.children, n.Shaped

theorem shaped_addRegion {tag : OpeningTag} {raw : RawContent} (hregions : regions.Shaped)
    (h : addRegion scripts source regions tag raw span = .ok regions') : regions'.Shaped := by
  unfold addRegion at h
  split at h
  · split at h
    · cases h
    · obtain ⟨sheet, hsheet, h⟩ := bind_eq_ok_iff.1 h
      cases h
      rintro _ ⟨⟩
      exact shaped_readStyleSheet hsheet
  · obtain ⟨s, _, h⟩ := bind_eq_ok_iff.1 h
    intro sheet hsheet
    rw [(Regions.scripts_addScript h).2] at hsheet
    exact hregions sheet hsheet

theorem shaped_readTop {setting : ScriptSetting} {c : Cursor} {nodes : List MarkupNode}
    (hregions : regions.Shaped) (h : readTop setting source regions c = .ok (nodes, regions')) :
    regions'.Shaped := by
  replace h := topRun_of_readTop h
  induction h with
  | done => exact hregions
  | leaf _ _ ih => exact ih hregions
  | region _ _ _ _ hadd _ ih => exact ih (shaped_addRegion hregions hadd)
  | element _ _ _ _ _ ih => exact ih hregions

/-- The stylesheet of a component that is read keeps nothing of keyframes. -/
theorem shaped_of_read {source : String} (h : Component.read scripts source = .ok component)
    (hsheet : component.style = some sheet) : ∀ n ∈ sheet.children, n.Shaped := by
  obtain ⟨⟨nodes, regions⟩, hread, h⟩ := bind_eq_ok_iff.1 h
  rw [← pure_eq_ok_iff.1 h] at hsheet
  exact shaped_readTop (by rintro _ ⟨⟩) hread sheet hsheet

/-! ### What the walks find -/

theorem mem_matchingPseudoClasses (htakes : takesSelectors name = true)
    (hglobal : name ≠ globalPseudoClass) : name ∈ matchingPseudoClasses := by
  rw [takesSelectors, List.contains_iff_mem] at htakes
  simp only [List.mem_cons, List.not_mem_nil, or_false] at htakes
  rw [matchingPseudoClasses]
  simp only [List.mem_cons, List.not_mem_nil, or_false]
  rcases htakes with h | h | h | h | h
  · exact .inl h
  · exact .inr (.inl h)
  · exact .inr (.inr (.inl h))
  · exact .inr (.inr (.inr h))
  · exact absurd h hglobal

section Walks

variable {name : String} {span : Span} {ss : List SimpleSelector} {nodes : List StyleNode}

/-- A class selector that the walk finds stands where it defines a class. -/
theorem SimpleSelector.Argued.hasClass {s : SimpleSelector} (h : s.Argued)
    (hmem : .named .class_ name span ∈ s.parts (· != globalPseudoClass)) (hs : s ∈ ss) :
    HasClass name ss := by
  induction h generalizing ss with
  | @plain s hplain =>
    -- without an argument the walk finds the selector itself and nothing below it
    have hentered : s.isEntered (· != globalPseudoClass) = false := by
      unfold isEntered
      split
      · cases hplain
      · rfl
    rw [s.parts_eq, entered_eq_nil hentered] at hmem
    rw [← List.mem_singleton.1 hmem] at hs
    exact .here hs
  | @selectors pseudo args pspan htakes _ ih =>
    rw [SimpleSelector.parts_eq, entered] at hmem
    rcases List.mem_cons.1 hmem with hself | hbelow
    · cases hself
    · obtain ⟨t, ht, hmem⟩ := List.mem_flatMap.1 hbelow
      split at ht
      · rename_i hne
        have hmatching := mem_matchingPseudoClasses htakes (bne_iff_ne.1 hne)
        exact .inArgument hs hmatching (ih t ht hmem ht)
      · cases ht

/-- A class selector that defines a class is found by the walk. -/
theorem HasClass.exists_mem_parts (h : HasClass name ss) :
    ∃ span, .named .class_ name span ∈
      ss.flatMap (SimpleSelector.parts (· != globalPseudoClass)) := by
  induction h with
  | @here ss span h =>
    refine ⟨span, List.mem_flatMap.2 ⟨_, h, ?_⟩⟩
    rw [SimpleSelector.parts_eq]
    exact List.mem_cons_self
  | @inArgument ss pseudo args pspan h hpseudo _ ih =>
    obtain ⟨span, hmem⟩ := ih
    have hne : (pseudo != globalPseudoClass) = true := by
      rw [matchingPseudoClasses] at hpseudo
      simp only [List.mem_cons, List.not_mem_nil, or_false] at hpseudo
      rcases hpseudo with rfl | rfl | rfl | rfl
      all_goals rfl
    refine ⟨span, List.mem_flatMap.2 ⟨_, h, ?_⟩⟩
    rw [SimpleSelector.parts_eq, SimpleSelector.entered, if_pos hne]
    exact List.mem_cons_of_mem _ hmem

/-- A rule that the walk finds stands where it defines classes, and keeps arguments where they are
taken. -/
theorem StyleNode.Shaped.exists_hasRule {n : StyleNode} (h : n.Shaped) {p : Span × ComplexSelector}
    (hp : p ∈ n.selectors) (hn : n ∈ nodes) :
    ∃ prelude, HasRule prelude nodes ∧ p.2 ∈ prelude.children ∧
      ∀ s ∈ prelude.simples, s.Argued := by
  induction h generalizing nodes with
  | @rule prelude block span hselectors _ ih =>
    rw [StyleNode.selectors, BlockOf.selectors_eq] at hp
    rcases List.mem_append.1 hp with hp | hp
    · obtain ⟨c, hc, rfl⟩ := List.mem_map.1 hp
      exact ⟨prelude, .here hn, hc, hselectors⟩
    · obtain ⟨m, hm, hp⟩ := List.mem_flatMap.1 hp
      obtain ⟨inner, hrule, hc, hargued⟩ := ih m hm hp hm
      exact ⟨inner, .inRule hn hrule, hc, hargued⟩
  | @atRule atName range block span hkeyframes _ ih =>
    cases block with
    | none => cases hp
    | some b =>
      rw [StyleNode.selectors, BlockOf.selectors_eq] at hp
      obtain ⟨m, hm, hp⟩ := List.mem_flatMap.1 hp
      obtain ⟨inner, hrule, hc, hargued⟩ := ih b rfl m hm hp hm
      have hname : isKeyframes atName = false := by
        cases hk : isKeyframes atName with
        | false => rfl
        | true =>
          rw [hkeyframes hk b rfl] at hm
          cases hm
      exact ⟨inner, .inAtRule hn hname hrule, hc, hargued⟩
  | declaration => cases hp

/-- The complex selectors of a rule that defines classes are found by the walk. -/
theorem HasRule.mem_selectors {prelude : SelectorList} (h : HasRule prelude nodes)
    {c : ComplexSelector} (hc : c ∈ prelude.children) :
    (prelude.span, c) ∈ nodes.flatMap StyleNode.selectors := by
  induction h with
  | @here nodes block span h =>
    refine List.mem_flatMap.2 ⟨_, h, ?_⟩
    rw [StyleNode.selectors]
    exact List.mem_append_left _ (List.mem_map_of_mem hc)
  | @inRule nodes other block span h _ ih =>
    refine List.mem_flatMap.2 ⟨_, h, ?_⟩
    rw [StyleNode.selectors, BlockOf.selectors_eq]
    exact List.mem_append_right _ ih
  | @inAtRule nodes name range block span h _ _ ih =>
    refine List.mem_flatMap.2 ⟨_, h, ?_⟩
    rw [StyleNode.selectors, BlockOf.selectors_eq]
    exact ih

end Walks

/-- **The walk finds the classes that are defined**, in a component that has been read. -/
theorem defines_iff_of_read {source : String}
    (hread : Component.read scripts source = .ok component) :
    component.Defines name ↔ ∃ p ∈ component.selectors, ∃ span,
      .named .class_ name span ∈ p.2.parts (· != globalPseudoClass) := by
  constructor
  · rintro ⟨sheet, hsheet, prelude, hrule, hclass⟩
    obtain ⟨span, hmem⟩ := hclass.exists_mem_parts
    rw [ListOf.simples, List.flatMap_assoc] at hmem
    obtain ⟨c, hc, hmem⟩ := List.mem_flatMap.1 hmem
    refine ⟨(prelude.span, c), ?_, span, c.parts_eq ▸ hmem⟩
    rw [Component.selectors, hsheet, Option.toList_some, List.flatMap_singleton,
      selectorsOfNodes_eq]
    exact hrule.mem_selectors hc
  · rintro ⟨p, hp, span, hmem⟩
    obtain ⟨sheet, hsheet, hp⟩ := List.mem_flatMap.1 hp
    rw [Option.mem_toList] at hsheet
    rw [selectorsOfNodes_eq] at hp
    obtain ⟨n, hn, hp⟩ := List.mem_flatMap.1 hp
    obtain ⟨prelude, hrule, hc, hargued⟩ :=
      (shaped_of_read hread hsheet n hn).exists_hasRule hp hn
    rw [p.2.parts_eq] at hmem
    obtain ⟨s, hs, hmem⟩ := List.mem_flatMap.1 hmem
    have hs' : s ∈ prelude.simples := List.mem_flatMap.2 ⟨p.2, hc, hs⟩
    exact ⟨sheet, hsheet, prelude, hrule, (hargued s hs').hasClass hmem hs'⟩

end CssRune
