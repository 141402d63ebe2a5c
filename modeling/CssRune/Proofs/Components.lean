/-
**Where the parts of a component are written.**

At the top level a component is made of nodes of markup, scripts and a stylesheet.  They come one
after the other, whatever their order, and fill the whole source.  So nothing that is edited in one
of them shares a byte with what is edited in another.

* `TopItem` — a node, a script or a stylesheet at the top level;
* `TopRun`, `topRun_of_readTop` — what the loop at the top level does, step by step;
* `laid_readTop`, `laid_read` — **the items at the top level fill the source**;
* `Component.selectors` — the complex selectors of the stylesheet of a component;
* `sited_read` — **rune calls and complex selectors share no byte**.
-/

import CssRune.Component.Reader
import CssRune.Proofs.Markup.Calls
import CssRune.Proofs.Style.Sheets

set_option autoImplicit false

namespace CssRune

/-! ### Layouts -/

/-- The layout of a script: it is read from its content, which stands inside the element. -/
structure ScriptBlock.Laid (reader : ScriptReader) (source : List Char) (s : ScriptBlock) :
    Prop where
  cuts : s.span.Cuts source
  content : s.content.Cuts source
  start_le : s.span.start ≤ s.content.start
  stop_le : s.content.stop ≤ s.span.stop
  read : reader.program s.lang (Text.slice source s.content) = some s.program

/-- The layout of a stylesheet: its nodes are a row in its content, which stands inside the
element. -/
structure StyleSheet.Laid (source : List Char) (s : StyleSheet) : Prop where
  cuts : s.span.Cuts source
  content : s.content.Cuts source
  start_le : s.span.start ≤ s.content.start
  stop_le : s.content.stop ≤ s.span.stop
  row : Span.Row 0 s.content.start s.content.stop (s.children.map StyleNode.span)
  below : ∀ n ∈ s.children, n.Laid source

/-- What can stand at the top level of a component. -/
inductive TopItem where
  | node (n : MarkupNode)
  | script (s : ScriptBlock)
  | sheet (s : StyleSheet)

namespace TopItem

/-- Where an item is written. -/
def span : TopItem → Span
  | node n => n.span
  | script s => s.span
  | sheet s => s.span

/-- The item if it is a node of markup. -/
def node? : TopItem → Option MarkupNode
  | node n => some n
  | _ => none

/-- The item if it is a script. -/
def script? : TopItem → Option ScriptBlock
  | script s => some s
  | _ => none

/-- The item if it is a stylesheet. -/
def sheet? : TopItem → Option StyleSheet
  | sheet s => some s
  | _ => none

/-- The layout of an item. -/
def Laid (setting : ScriptSetting) (source : List Char) : TopItem → Prop
  | node n => n.Laid setting source
  | script s => s.Laid setting.reader source
  | sheet s => s.Laid source

variable {i : TopItem}

theorem eq_node {n : MarkupNode} (h : i.node? = some n) : i = node n := by
  cases i <;> cases h
  rfl

theorem eq_script {s : ScriptBlock} (h : i.script? = some s) : i = script s := by
  cases i <;> cases h
  rfl

theorem eq_sheet {s : StyleSheet} (h : i.sheet? = some s) : i = sheet s := by
  cases i <;> cases h
  rfl

end TopItem

/-- The scripts found so far, that of the instances first. -/
def Regions.scripts (r : Regions) : List ScriptBlock :=
  r.instanceScript.toList ++ r.moduleScript.toList

/-! ### Scripts and stylesheets -/

variable {s : ScriptBlock} {scripts : ScriptReader} {source : List Char} {component : Component}

theorem Regions.scripts_addScript {r r' : Regions} (h : r.addScript s = .ok r') :
    (s :: r.scripts).Perm r'.scripts ∧ r'.style = r.style := by
  unfold addScript at h
  split at h
  · split at h
    · cases h
    · rename_i hnone
      cases h
      have hempty : r.instanceScript = none := Option.not_isSome_iff_eq_none.1 hnone
      rw [scripts, hempty]
      exact ⟨List.Perm.refl _, rfl⟩
  · split at h
    · cases h
    · rename_i hnone
      cases h
      have hempty : r.moduleScript = none := Option.not_isSome_iff_eq_none.1 hnone
      rw [scripts, hempty, Option.toList_none, List.append_nil]
      exact ⟨(List.perm_append_singleton s _).symm, rfl⟩

section Readers

variable {setting : ScriptSetting} {source : List Char} {c : Cursor}

variable {regions regions' : Regions} {d : Cursor} {nodes : List MarkupNode} {items : List TopItem}

/-- What a script or style element adds to the regions is laid out in it. -/
theorem laid_addRegion {tag : OpeningTag} {close after : Cursor} (hc : c.Within source)
    (hopen : c.Leads d) (hraw : d.Leads close) (hclose : close.Leads after)
    (h : addRegion setting.reader source regions tag
      ⟨String.ofList (d.upTo close), ⟨d.pos, close.pos⟩⟩ ⟨c.pos, after.pos⟩ = .ok regions') :
    ∃ item : TopItem, item.span = ⟨c.pos, after.pos⟩ ∧ item.Laid setting source ∧
      item.node? = none ∧ (item.script?.toList ++ regions.scripts).Perm regions'.scripts ∧
      regions'.style.toList = regions.style.toList ++ item.sheet?.toList := by
  have hcuts := Span.cuts_of_leads ((hopen.trans hraw).trans hclose) hc
  have hcontent := Span.cuts_of_leads hraw (hopen.within hc)
  unfold addRegion at h
  split at h
  · split at h
    · cases h
    · rename_i hnone
      obtain ⟨sheet, hsheet, h⟩ := bind_eq_ok_iff.1 h
      rw [← pure_eq_ok_iff.1 h, Option.not_isSome_iff_eq_none.1 hnone]
      obtain ⟨hc', hs', hrow, hbelow⟩ := laid_readStyleSheet hcontent hsheet
      refine ⟨.sheet sheet, hs', ?_, rfl, List.Perm.refl _, rfl⟩
      refine ⟨hs' ▸ hcuts, hc' ▸ hcontent, ?_, ?_, hc' ▸ hrow, hbelow⟩
      · rw [hc', hs']
        exact hopen.pos_le
      · rw [hc', hs']
        exact hclose.pos_le
  · obtain ⟨s, hs, h⟩ := bind_eq_ok_iff.1 h
    obtain ⟨hscripts, hstyle⟩ := Regions.scripts_addScript h
    unfold readScriptBlock at hs
    split at hs
    · rename_i program hprogram
      cases hs
      rw [String.toList_ofList, ← hraw.slice (hopen.within hc)] at hprogram
      refine ⟨.script _, rfl, ⟨hcuts, hcontent, hopen.pos_le, hclose.pos_le, hprogram⟩, rfl,
        hscripts, ?_⟩
      rw [hstyle]
      exact (List.append_nil _).symm
    · cases hs

/-! ### The top level -/

/-- The items that a reader of the top level finds: they fill the text it reads, and together with
the regions found before they are the nodes and regions it gives back. -/
structure TopRead (setting : ScriptSetting) (source : List Char) (c : Cursor) (regions : Regions)
    (nodes : List MarkupNode) (regions' : Regions) (items : List TopItem) : Prop where
  chain : Span.Chain c.pos (c.pos + Text.byteLength c.rest) (items.map TopItem.span)
  laid : ∀ i ∈ items, i.Laid setting source
  nodes_eq : nodes = items.filterMap TopItem.node?
  scripts : (items.filterMap TopItem.script? ++ regions.scripts).Perm regions'.scripts
  style : regions'.style.toList = regions.style.toList ++ items.filterMap TopItem.sheet?

theorem TopRead.nil (h : c.rest = []) :
    TopRead setting source c regions [] regions [] where
  chain := by
    rw [h]
    rfl
  laid := by simp
  nodes_eq := rfl
  scripts := List.Perm.refl _
  style := (List.append_nil _).symm

/-- An item that is a node, and the items after it. -/
theorem TopRead.cons_node {n : MarkupNode} (hleads : c.Leads d) (hlt : c.pos < d.pos)
    (hspan : n.span = ⟨c.pos, d.pos⟩) (hn : n.Laid setting source)
    (h : TopRead setting source d regions nodes regions' items) :
    TopRead setting source c regions (n :: nodes) regions' (.node n :: items) where
  chain := by
    rw [← hleads.end_eq, List.map_cons]
    show Span.Chain _ _ (n.span :: _)
    rw [hspan]
    exact ⟨rfl, hlt, h.chain⟩
  laid := List.forall_mem_cons.2 ⟨hn, h.laid⟩
  nodes_eq := by
    rw [h.nodes_eq]
    rfl
  scripts := h.scripts
  style := h.style

/-- An item that is a region, and the items after it. -/
theorem TopRead.cons_region {item : TopItem} {between : Regions} (hleads : c.Leads d)
    (hlt : c.pos < d.pos) (hspan : item.span = ⟨c.pos, d.pos⟩) (hitem : item.Laid setting source)
    (hnode : item.node? = none)
    (hscripts : (item.script?.toList ++ regions.scripts).Perm between.scripts)
    (hstyle : between.style.toList = regions.style.toList ++ item.sheet?.toList)
    (h : TopRead setting source d between nodes regions' items) :
    TopRead setting source c regions nodes regions' (item :: items) where
  chain := by
    rw [← hleads.end_eq, List.map_cons, hspan]
    exact ⟨rfl, hlt, h.chain⟩
  laid := List.forall_mem_cons.2 ⟨hitem, h.laid⟩
  nodes_eq := by
    rw [h.nodes_eq, List.filterMap_cons_none hnode]
  scripts := by
    have hcons : (item :: items).filterMap TopItem.script? =
        item.script?.toList ++ items.filterMap TopItem.script? := by
      cases hs : item.script? with
      | none => exact List.filterMap_cons_none hs
      | some s => exact List.filterMap_cons_some hs
    rw [hcons]
    refine List.Perm.trans ?_ h.scripts
    refine ((List.perm_append_comm).append_right _).trans ?_
    rw [List.append_assoc]
    exact hscripts.append_left _
  style := by
    rw [h.style, hstyle, List.append_assoc]
    cases hs : item.sheet? with
    | none => rw [List.filterMap_cons_none hs]; rfl
    | some s => rw [List.filterMap_cons_some hs]; rfl

/-- A run of the loop at the top level, up to the end of the text: what it reads next and what it
does with it.  The regions it ends with are a parameter. -/
inductive TopRun (setting : ScriptSetting) (source : List Char) (last : Regions) :
    Regions → Cursor → List MarkupNode → Prop where
  | done {c : Cursor} (hend : c.rest = []) : TopRun setting source last last c []
  | leaf {regions : Regions} {c : Cursor} {leaf : Step MarkupNode c} {nodes : List MarkupNode}
      (hleaf : readLeaf setting c = .ok (some leaf))
      (hmore : TopRun setting source last regions leaf.next nodes) :
      TopRun setting source last regions c (leaf.value :: nodes)
  | region {regions between : Regions} {c : Cursor} {cs : List Char} {hopen : c.rest = '<' :: cs}
      {tag : Step OpeningTag c} {raw : Step RawContent tag.next} {nodes : List MarkupNode}
      (hleaf : readLeaf setting c = .ok none) (htag : readOpeningTag setting c cs hopen = .ok tag)
      (hspecial : tag.value.isSpecial = true) (hraw : readRaw tag.value.name tag.next = .ok raw)
      (hadd : addRegion setting.reader source regions tag.value raw.value
        ⟨tag.value.start, raw.next.pos⟩ = .ok between)
      (hmore : TopRun setting source last between raw.next nodes) :
      TopRun setting source last regions c nodes
  | element {regions : Regions} {c : Cursor} {cs : List Char} {hopen : c.rest = '<' :: cs}
      {tag : Step OpeningTag c} {body : Pace (List MarkupNode) tag.next} {nodes : List MarkupNode}
      (hleaf : readLeaf setting c = .ok none) (htag : readOpeningTag setting c cs hopen = .ok tag)
      (hspecial : tag.value.isSpecial = false)
      (hbody : readBodyWith setting tag.value tag.next
        (fun _ => readChildren setting tag.value.name tag.next) = .ok body)
      (hmore : TopRun setting source last regions body.next nodes) :
      TopRun setting source last regions c
        (elementOf tag.value body.value body.next.pos :: nodes)

theorem topRun_of_readTop {last : Regions}
    (h : readTop setting source regions c = .ok (nodes, last)) :
    TopRun setting source last regions c nodes := by
  induction hn : c.length using Nat.strongRecOn generalizing regions nodes c with
  | ind n ih =>
    subst hn
    rw [readTop] at h
    obtain ⟨leaf, hleaf, h⟩ := bind_eq_ok_iff.1 h
    cases leaf with
    | some leaf =>
      obtain ⟨⟨more, last⟩, hmore, h⟩ := bind_eq_ok_iff.1 h
      cases h
      exact .leaf hleaf (ih _ leaf.shorter hmore rfl)
    | none =>
      simp only [] at h
      split at h
      · rename_i hend
        cases h
        exact .done hend
      · obtain ⟨tag, _, h⟩ := bind_eq_ok_iff.1 h
        cases h
      · obtain ⟨tag, htag, h⟩ := bind_eq_ok_iff.1 h
        split at h
        · rename_i hspecial
          obtain ⟨raw, hraw, h⟩ := bind_eq_ok_iff.1 h
          obtain ⟨between, hadd, h⟩ := bind_eq_ok_iff.1 h
          exact .region hleaf htag hspecial hraw hadd
            (ih _ (Nat.lt_trans raw.shorter tag.shorter) h rfl)
        · rename_i hspecial
          obtain ⟨body, hbody, h⟩ := bind_eq_ok_iff.1 h
          obtain ⟨⟨more, last⟩, hmore, h⟩ := bind_eq_ok_iff.1 h
          cases h
          exact .element hleaf htag (Bool.eq_false_iff.2 hspecial) hbody
            (ih _ (Nat.lt_of_le_of_lt body.noLonger tag.shorter) hmore rfl)
      · -- what is no leaf starts a tag, so nothing is left for this case
        rename_i hend _ htag
        rcases rest_of_readLeaf_none hleaf with hnil | ⟨cs, hcs⟩
        · exact absurd hnil hend
        · exact absurd hcs (htag cs)

theorem leads_readElement {cs : List Char} {hopen : c.rest = '<' :: cs} {tag : Step OpeningTag c}
    {body : Pace (List MarkupNode) tag.next} (hc : c.Within source)
    (htag : readOpeningTag setting c cs hopen = .ok tag)
    (hbody : readBodyWith setting tag.value tag.next
      (fun _ => readChildren setting tag.value.name tag.next) = .ok body) :
    c.Leads body.next ∧ (elementOf tag.value body.value body.next.pos).span =
      ⟨c.pos, body.next.pos⟩ ∧
      (elementOf tag.value body.value body.next.pos).Laid setting source := by
  have hwithin := (laid_readOpeningTag hc htag).1.within hc
  obtain ⟨hleads, hnodes⟩ := laid_readBodyWith hwithin
    (fun t ht => laid_readChildren hwithin ht) hbody
  obtain ⟨hall, _, hspan, hlaid⟩ := laid_elementOf hc htag hleads hnodes
  exact ⟨hall, hspan, hlaid⟩

/-- The items at the top level fill the text up to its end. -/
theorem laid_readTop (hc : c.Within source)
    (h : readTop setting source regions c = .ok (nodes, regions')) :
    ∃ items, TopRead setting source c regions nodes regions' items := by
  replace h := topRun_of_readTop h
  induction h with
  | done hend => exact ⟨[], .nil hend⟩
  | @leaf _ _ leaf _ hleaf _ ih =>
    obtain ⟨hleads, hspan, hlaid⟩ := laid_readLeaf hc hleaf
    obtain ⟨items, hitems⟩ := ih (hleads.within hc)
    exact ⟨_, .cons_node hleads (hleads.pos_lt leaf.shorter) hspan hlaid hitems⟩
  | @region _ _ _ _ _ tag raw _ _ htag _ hraw hadd _ ih =>
    obtain ⟨hopening, hstart, _⟩ := laid_readOpeningTag hc htag
    obtain ⟨close, hcontent, hclose, hvalue⟩ := readRaw_leads hraw
    rw [hvalue, hstart] at hadd
    obtain ⟨item, hspan, hlaid, hnode, hscripts, hstyle⟩ :=
      laid_addRegion hc hopening hcontent hclose hadd
    have hleads := (hopening.trans hcontent).trans hclose
    have hlt := Nat.lt_trans raw.shorter tag.shorter
    obtain ⟨items, hitems⟩ := ih (hleads.within hc)
    exact ⟨_, .cons_region hleads (hleads.pos_lt hlt) hspan hlaid hnode hscripts hstyle hitems⟩
  | @element _ _ _ _ tag body _ _ htag _ hbody _ ih =>
    obtain ⟨hleads, hspan, hlaid⟩ := leads_readElement hc htag hbody
    have hlt := Nat.lt_of_le_of_lt body.noLonger tag.shorter
    obtain ⟨items, hitems⟩ := ih (hleads.within hc)
    exact ⟨_, .cons_node hleads (hleads.pos_lt hlt) hspan hlaid hitems⟩

end Readers

/-- The setting in which the expressions of a source are read. -/
def settingOf (scripts : ScriptReader) (source : String) : ScriptSetting :=
  ⟨scripts, detectLang source.toList⟩

/-- **The items at the top level of a component fill its source.** -/
theorem laid_read {source : String} (h : Component.read scripts source = .ok component) :
    component.source = source ∧ ∃ items : List TopItem,
      Span.Chain 0 (Text.byteLength source.toList) (items.map TopItem.span) ∧
      (∀ i ∈ items, i.Laid (settingOf scripts source) source.toList) ∧
      component.fragment = items.filterMap TopItem.node? ∧
      (items.filterMap TopItem.script?).Perm component.scripts ∧
      component.style.toList = items.filterMap TopItem.sheet? := by
  obtain ⟨⟨nodes, regions⟩, hread, h⟩ := bind_eq_ok_iff.1 h
  cases h
  obtain ⟨items, hitems⟩ := laid_readTop (Cursor.within_start source.toList) hread
  refine ⟨rfl, items, ?_, hitems.laid, hitems.nodes_eq, ?_, hitems.style⟩
  · have hchain := hitems.chain
    rwa [Nat.zero_add] at hchain
  · have hscripts := hitems.scripts
    rwa [show Regions.empty.scripts = [] from rfl, List.append_nil] at hscripts

/-! ### What can be edited -/

/-- The complex selectors of the stylesheet of a component, each with the range of its list. -/
def Component.selectors (c : Component) : List (Span × ComplexSelector) :=
  c.style.toList.flatMap fun sheet => selectorsOfNodes sheet.children

/-- The ranges of what can be edited in an item: rune calls and complex selectors. -/
def TopItem.marks : TopItem → List Span
  | node n => callSpans n.parts
  | script s => callSpans s.parts
  | sheet s => (selectorsOfNodes s.children).map (·.2.span)

theorem ScriptBlock.Laid.sited {reader : ScriptReader} (hlaw : reader.Lawful)
    (h : s.Laid reader source) :
    Span.Sited source s.span.start s.span.stop (callSpans s.parts) := by
  obtain ⟨hclear, hcuts⟩ := (hlaw.program _ _ _ h.read).clear_runeCalls h.content.isAt_slice
  have hcalls : callSpans s.parts = (Script.Node.runeCallsOfAll s.content.start
      (s.program.directives ++ s.program.statements)).map RuneCall.span := by
    rw [callSpans, ScriptBlock.parts, List.flatMap_map, Script.Node.runeCallsOfAll_eq]
    rfl
  have hlength := h.content.byteLength_slice
  have hle := h.content.le
  have hstart := h.start_le
  have hstop := h.stop_le
  rw [hcalls]
  exact ⟨hclear.mono (by omega) (by omega), List.forall_mem_map.2 hcuts⟩

theorem StyleSheet.Laid.row_selectors {s : StyleSheet} (h : s.Laid source) :
    Span.Row 0 s.content.start s.content.stop ((selectorsOfNodes s.children).map (·.2.span)) := by
  rw [selectorsOfNodes_eq]
  exact row_flatMap_selectors h.row fun n hn => (h.below n hn).row_selectors

theorem StyleSheet.Laid.laid_of_mem_selectors {s : StyleSheet} (h : s.Laid source) :
    ∀ p ∈ selectorsOfNodes s.children, p.2.Laid source := by
  intro p hp
  rw [selectorsOfNodes_eq] at hp
  obtain ⟨n, hn, hp⟩ := List.mem_flatMap.1 hp
  exact (h.below n hn).laid_of_mem_selectors p hp

theorem TopItem.Laid.sited {setting : ScriptSetting} {i : TopItem} (hlaw : setting.reader.Lawful)
    (h : i.Laid setting source) : Span.Sited source i.span.start i.span.stop i.marks := by
  cases i with
  | node n => exact MarkupNode.Laid.sited hlaw h
  | script s => exact ScriptBlock.Laid.sited hlaw h
  | sheet s =>
    have hlaid : s.Laid source := h
    refine ⟨(hlaid.row_selectors.clear).mono hlaid.start_le hlaid.stop_le, ?_⟩
    exact List.forall_mem_map.2 fun p hp => (hlaid.laid_of_mem_selectors p hp).here.cuts

/-- What all items have, sorted by the kind of item. -/
theorem perm_flatMap_items {α : Type} [DecidableEq α] (f : TopItem → List α)
    (items : List TopItem) :
    (items.flatMap f).Perm ((items.filterMap TopItem.node?).flatMap (fun n => f (.node n)) ++
      (items.filterMap TopItem.script?).flatMap (fun s => f (.script s)) ++
      (items.filterMap TopItem.sheet?).flatMap fun s => f (.sheet s)) := by
  refine List.perm_iff_count.2 fun a => ?_
  induction items with
  | nil => rfl
  | cons i items ih =>
    simp only [List.count_append] at ih
    cases i
    all_goals
      simp only [List.flatMap_cons, List.filterMap_cons, TopItem.node?, TopItem.script?,
        TopItem.sheet?, List.count_append]
      omega

/-- **Rune calls and complex selectors share no byte**: all of them together are pieces of the
source that lie apart. -/
theorem sited_read {source : String} (hlaw : scripts.Lawful)
    (h : Component.read scripts source = .ok component) :
    Span.Sited source.toList 0 (Text.byteLength source.toList)
      (component.runeCalls.map RuneCall.span ++ component.selectors.map (·.2.span)) := by
  obtain ⟨_, items, hchain, hlaid, hfragment, hscripts, hstyle⟩ := laid_read h
  have hlaw' : (settingOf scripts source).reader.Lawful := hlaw
  have hsited : Span.Sited source.toList 0 (Text.byteLength source.toList)
      (items.flatMap TopItem.marks) :=
    Span.Sited.flatMap_of_row hchain.row fun i hi => (hlaid i hi).sited hlaw'
  refine hsited.perm ((perm_flatMap_items TopItem.marks items).trans ?_)
  have hcalls : component.runeCalls.map RuneCall.span =
      component.fragment.flatMap (fun n => callSpans n.parts) ++
        component.scripts.flatMap (fun s => callSpans s.parts) := by
    show callSpans component.parts = _
    rw [Component.parts, callSpans_append, partsOfNodes_eq, callSpans_flatMap, callSpans_flatMap]
  rw [hcalls, Component.selectors, List.map_flatMap, hfragment, hstyle]
  exact ((hscripts.flatMap_right _).append_left _).append_right _

/-- The complex selectors of a component are laid out. -/
theorem laid_of_mem_selectors {source : String}
    (h : Component.read scripts source = .ok component) :
    ∀ p ∈ component.selectors, p.2.Laid source.toList := by
  obtain ⟨_, items, _, hlaid, _, _, hstyle⟩ := laid_read h
  intro p hp
  rw [Component.selectors, hstyle] at hp
  obtain ⟨sheet, hsheet, hp⟩ := List.mem_flatMap.1 hp
  obtain ⟨i, hi, his⟩ := List.mem_filterMap.1 hsheet
  cases i with
  | node n => cases his
  | script s => cases his
  | sheet s =>
    cases his
    exact StyleSheet.Laid.laid_of_mem_selectors (hlaid _ hi) p hp

end CssRune
