/-
**What a site holds.**

A walk is written as one function for each kind of node.  Here the two trees are one: every site has
the sites directly below it in order, and whatever a site is, walking over it is to show it and then
to walk over those sites one after the other.  This is said once for all kinds of sites; what
follows about walks uses nothing else about them.

Main results:

* `Site.walk_eq` — **a walk shows a site and then walks over the sites below it**;
* `Site.induction` — what a site has if all sites directly below it have it, all sites have.
-/

import CssRune.Proofs.Style.Selectors
import CssRune.Walk

set_option autoImplicit false

namespace CssRune

/-! ### The sites below a site -/

/-- A piece of a value as a site. -/
def ValueChunk.site : ValueChunk → Site
  | .text t => .text t
  | .expression tag => .expressionTag tag

/-- The sites of a value. -/
def AttributeValue.sites : AttributeValue → List Site
  | .absent => []
  | .expression tag => [.expressionTag tag]
  | .chunks cs => cs.map ValueChunk.site

/-- An attribute as a site. -/
def AttributeNode.site : AttributeNode → Site
  | .plain a => .plainAttribute a
  | .spread a => .spread a
  | .directive d => .directive d

/-- What a node is, as a site. -/
def MarkupNode.site : MarkupNode → Site
  | .element name attributes children selfClosing span =>
    .element name attributes children selfClosing span
  | .text t => .text t
  | .comment t => .comment t
  | .expression tag => .expressionTag tag
  | .block tag => .blockTag tag

/-- What a node of a stylesheet is, as a site. -/
def StyleNode.site : StyleNode → Site
  | .rule prelude block span => .rule prelude block span
  | .atRule name prelude block span => .atRule name prelude block span
  | .declaration d => .declaration d

namespace Site

/-- The sites directly below a site, in the order of the tree. -/
def children : Site → List Site
  | .fragment nodes => nodes.map .node
  | .node n => [n.site]
  | .element _ attributes children _ _ => attributes.map AttributeNode.site ++ [.fragment children]
  | .plainAttribute a => a.value.sites
  | .spread a => [.expression a.expression]
  | .directive d => d.value.toList.map .expressionTag
  | .expressionTag tag => [.expression tag.expression]
  | .blockTag tag => tag.expression.toList.map .expression
  | .stylesheet sheet => sheet.children.map .styleNode
  | .styleNode n => [n.site]
  | .rule prelude body _ => [.selectorList prelude, .block body]
  | .atRule _ _ body _ => body.toList.map .block
  | .block b => b.children.map .styleNode
  | .selectorList l => l.children.map .complexSelector
  | .complexSelector c => c.children.map .relativeSelector
  | .relativeSelector r => r.selectors.map .selector
  | .selector x => x.args?.toList.map .selectorList
  | .text _ | .comment _ | .expression _ | .declaration _ => []

/-! ### Induction -/

section Sizes

variable {α : Type} [SizeOf α] {f : α → Site} {site c : Site}

theorem sizeOf_le_of_mem_map {xs : List α} (hf : ∀ x, sizeOf (f x) = 1 + sizeOf x)
    (h : c ∈ xs.map f) : sizeOf c ≤ sizeOf xs := by
  obtain ⟨x, hx, rfl⟩ := List.mem_map.1 h
  have hlt := List.sizeOf_lt_of_mem hx
  rw [hf]
  omega

theorem sizeOf_le_of_mem_toList {o : Option α} (hf : ∀ x, sizeOf (f x) = 1 + sizeOf x)
    (h : c ∈ o.toList.map f) : sizeOf c ≤ sizeOf o := by
  cases o with
  | none => cases h
  | some x =>
    rw [List.mem_singleton.1 h]
    exact Nat.le_of_eq ((hf x).trans (Option.some.sizeOf_spec x).symm)

theorem sizeOf_span_pos (span : Span) : 0 < sizeOf span := by
  rw [Span.mk.sizeOf_spec]
  omega

/-- A site is smaller than the one directly above it. -/
theorem sizeOf_lt_of_mem_children (h : c ∈ site.children) : sizeOf c < sizeOf site := by
  cases site
  case fragment nodes =>
    have hle := sizeOf_le_of_mem_map node.sizeOf_spec h
    rw [fragment.sizeOf_spec]
    omega
  case node n =>
    rw [List.mem_singleton.1 h]
    cases n <;> simp [MarkupNode.site]
  case element name attributes nodes selfClosing span =>
    rw [element.sizeOf_spec]
    rcases List.mem_append.1 h with h | h
    · obtain ⟨a, ha, rfl⟩ := List.mem_map.1 h
      have hlt := List.sizeOf_lt_of_mem ha
      have hsite : sizeOf a.site = sizeOf a := by cases a <;> simp [AttributeNode.site]
      omega
    · rw [List.mem_singleton.1 h, fragment.sizeOf_spec]
      have hspan := sizeOf_span_pos span
      omega
  case plainAttribute a =>
    obtain ⟨name, value, span⟩ := a
    simp only [plainAttribute.sizeOf_spec, Attribute.mk.sizeOf_spec]
    cases value with
    | absent => cases h
    | expression tag =>
      rw [List.mem_singleton.1 h, expressionTag.sizeOf_spec, AttributeValue.expression.sizeOf_spec]
      omega
    | chunks cs =>
      obtain ⟨chunk, hchunk, rfl⟩ := List.mem_map.1 h
      have hlt := List.sizeOf_lt_of_mem hchunk
      have hsite : sizeOf chunk.site = sizeOf chunk := by cases chunk <;> simp [ValueChunk.site]
      rw [AttributeValue.chunks.sizeOf_spec]
      omega
  case styleNode n =>
    rw [List.mem_singleton.1 h]
    cases n <;> simp [StyleNode.site]
  case rule prelude body span =>
    have hspan := sizeOf_span_pos span
    rw [rule.sizeOf_spec]
    rcases List.mem_cons.1 h with rfl | h
    · rw [selectorList.sizeOf_spec]
      omega
    · rw [List.mem_singleton.1 h, block.sizeOf_spec]
      omega
  case atRule name prelude body span =>
    have hle := sizeOf_le_of_mem_toList block.sizeOf_spec h
    rw [atRule.sizeOf_spec]
    omega
  case selector x =>
    have hle := sizeOf_le_of_mem_toList selectorList.sizeOf_spec h
    cases x with
    | named kind name span => cases h
    | nesting span => cases h
    | pseudoClass name args span =>
      simp only [SimpleSelector.args?, selector.sizeOf_spec,
        SimpleSelector.pseudoClass.sizeOf_spec] at hle ⊢
      omega
  case text | comment | expression | declaration => cases h
  -- what is left holds one expression, at most one, or a list of its own
  case spread x | expressionTag x =>
    rw [List.mem_singleton.1 h]
    cases x
    simp
    omega
  case directive x | blockTag x =>
    have hle := sizeOf_le_of_mem_toList (by simp) h
    cases x
    simp at hle ⊢
    omega
  case stylesheet x | block x | selectorList x | complexSelector x | relativeSelector x =>
    have hle := sizeOf_le_of_mem_map (by simp) h
    cases x
    simp at hle ⊢
    omega

end Sizes

theorem induction {P : Site → Prop} (step : ∀ site, (∀ c ∈ site.children, P c) → P site)
    (site : Site) : P site :=
  step site fun c _ => induction step c
termination_by sizeOf site
decreasing_by exact sizeOf_lt_of_mem_children ‹_›

end Site

/-! ### Walks -/

section Walks

variable {m : Type → Type} [Monad m] {σ α β : Type}

theorem walkAll_map (walk : β → m Unit) (f : α → β) (as : List α) :
    walkAll walk (as.map f) = walkAll (fun a => walk (f a)) as := by
  induction as with
  | nil => rfl
  | cons a as ih => rw [List.map_cons, walkAll, ih, walkAll]

variable (visit : Visitor m σ) (s : σ)

theorem walkMarkupNodes_eq (nodes : List MarkupNode) :
    walkMarkupNodes visit s nodes = walkAll (walkMarkupNode visit s) nodes := by
  induction nodes with
  | nil => rw [walkMarkupNodes, walkAll]
  | cons n nodes ih => rw [walkMarkupNodes, walkAll, ih]

theorem walkComplexes_eq (cs : List ComplexSelector) :
    walkComplexes visit s cs = walkAll (walkComplex visit s) cs := by
  induction cs with
  | nil => rw [walkComplexes, walkAll]
  | cons c cs ih => rw [walkComplexes, walkAll, ih]

theorem walkRelatives_eq (rs : List RelativeSelector) :
    walkRelatives visit s rs = walkAll (walkRelative visit s) rs := by
  induction rs with
  | nil => rw [walkRelatives, walkAll]
  | cons r rs ih => rw [walkRelatives, walkAll, ih]

theorem walkSimples_eq (xs : List SimpleSelector) :
    walkSimples visit s xs = walkAll (walkSimple visit s) xs := by
  induction xs with
  | nil => rw [walkSimples, walkAll]
  | cons x xs ih => rw [walkSimples, walkAll, ih]

theorem walkStyleNodes_eq (nodes : List StyleNode) :
    walkStyleNodes visit s nodes = walkAll (walkStyleNode visit s) nodes := by
  induction nodes with
  | nil => rw [walkStyleNodes, walkAll]
  | cons n nodes ih => rw [walkStyleNodes, walkAll, ih]

/-- The walk that starts at a site. -/
def Site.walk (visit : Visitor m σ) (s : σ) : Site → m Unit
  | .fragment nodes => walkMarkup visit s nodes
  | .node n => walkMarkupNode visit s n
  | .element name attributes children selfClosing span =>
    walkInto visit s (.element name attributes children selfClosing span) fun s => do
      walkAll (walkAttributeNode visit s) attributes
      walkMarkup visit s children
  | .plainAttribute a => walkAttributeNode visit s (.plain a)
  | .spread a => walkAttributeNode visit s (.spread a)
  | .directive d => walkAttributeNode visit s (.directive d)
  | .text t => walkLeaf visit s (.text t)
  | .comment t => walkLeaf visit s (.comment t)
  | .expressionTag tag => walkExpressionTag visit s tag
  | .blockTag tag => walkBlockTag visit s tag
  | .expression e => walkExpression visit s e
  | .stylesheet sheet => walkStyleSheet visit s sheet
  | .styleNode n => walkStyleNode visit s n
  | .rule prelude body span =>
    walkInto visit s (.rule prelude body span) fun s => do
      walkList visit s prelude
      walkBlock visit s body
  | .atRule name prelude body span =>
    walkInto visit s (.atRule name prelude body span) fun s =>
      walkAll (walkBlock visit s) body.toList
  | .block b => walkBlock visit s b
  | .declaration d => walkLeaf visit s (.declaration d)
  | .selectorList l => walkList visit s l
  | .complexSelector c => walkComplex visit s c
  | .relativeSelector r => walkRelative visit s r
  | .selector x => walkSimple visit s x

theorem walkChunk_eq (chunk : ValueChunk) : walkChunk visit s chunk = chunk.site.walk visit s := by
  cases chunk <;> rfl

theorem walkAttributeNode_eq (a : AttributeNode) :
    walkAttributeNode visit s a = a.site.walk visit s := by
  cases a <;> rfl

theorem walkMarkupNode_eq (n : MarkupNode) :
    walkMarkupNode visit s n = walkInto visit s (.node n) fun s => n.site.walk visit s := by
  cases n <;> simp only [walkMarkupNode, MarkupNode.site, Site.walk, walkMarkup]

section Lawful

variable [LawfulMonad m]

theorem walkAll_append (walk : α → m Unit) (as bs : List α) :
    walkAll walk (as ++ bs) = (do walkAll walk as; walkAll walk bs) := by
  induction as with
  | nil => simp [walkAll]
  | cons a as ih => simp [walkAll, ih]

theorem walkAll_singleton (walk : α → m Unit) (a : α) : walkAll walk [a] = walk a := by
  simp [walkAll]

theorem walkValue_eq (v : AttributeValue) :
    walkValue visit s v = walkAll (Site.walk visit s) v.sites := by
  cases v with
  | absent => rfl
  | expression tag => simp only [walkValue, AttributeValue.sites, walkAll_singleton, Site.walk]
  | chunks cs => simp only [walkValue, AttributeValue.sites, walkAll_map, ← walkChunk_eq]

theorem walkStyleNode_eq (n : StyleNode) :
    walkStyleNode visit s n = walkInto visit s (.styleNode n) fun s => n.site.walk visit s := by
  cases n with
  | rule prelude body span => simp only [walkStyleNode, StyleNode.site, Site.walk]
  | atRule name prelude body span =>
    cases body with
    | none =>
      simp only [walkStyleNode, StyleNode.site, Site.walk, Option.toList, walkAll, walkLeaf]
    | some body =>
      simp only [walkStyleNode, StyleNode.site, Site.walk, Option.toList, walkAll_singleton]
  | declaration d => simp only [walkStyleNode, StyleNode.site, Site.walk]

theorem walkSimple_eq (x : SimpleSelector) :
    walkSimple visit s x =
      walkInto visit s (.selector x) fun s => walkAll (walkList visit s) x.args?.toList := by
  cases x with
  | named kind name span =>
    simp only [walkSimple, walkLeaf, SimpleSelector.args?, Option.toList, walkAll]
  | nesting span => simp only [walkSimple, walkLeaf, SimpleSelector.args?, Option.toList, walkAll]
  | pseudoClass name args span =>
    cases args with
    | none => simp only [walkSimple, walkLeaf, SimpleSelector.args?, Option.toList, walkAll]
    | some args => simp only [walkSimple, SimpleSelector.args?, Option.toList, walkAll_singleton]

/-- **A walk shows a site and then walks over the sites below it.** -/
theorem Site.walk_eq (site : Site) :
    site.walk visit s =
      walkInto visit s site fun s => walkAll (Site.walk visit s) site.children := by
  cases site with
  | fragment nodes =>
    simp only [children, walkAll_map]
    simp only [walk, walkMarkup, walkMarkupNodes_eq]
  | node n =>
    simp only [children, walkAll_singleton, ← walkMarkupNode_eq]
    rfl
  | element name attributes nodes selfClosing span =>
    simp only [children, walkAll_append, walkAll_map, walkAll_singleton, ← walkAttributeNode_eq]
    rfl
  | plainAttribute a =>
    simp only [children, ← walkValue_eq]
    rfl
  | spread a =>
    simp only [children, walkAll_singleton]
    rfl
  | directive d =>
    simp only [children, walkAll_map]
    rfl
  | text t => rfl
  | comment t => rfl
  | expressionTag tag =>
    simp only [children, walkAll_singleton]
    rfl
  | blockTag tag =>
    simp only [children, walkAll_map]
    rfl
  | expression e => rfl
  | stylesheet sheet =>
    simp only [children, walkAll_map]
    simp only [walk, walkStyleSheet, walkStyleNodes_eq]
  | styleNode n =>
    simp only [children, walkAll_singleton, ← walkStyleNode_eq]
    rfl
  | rule prelude body span => simp [walk, children, walkAll]
  | atRule name prelude body span =>
    simp only [children, walkAll_map]
    rfl
  | block b =>
    cases b
    simp only [children, walkAll_map]
    simp only [walk, walkBlock, walkStyleNodes_eq]
  | declaration d => rfl
  | selectorList l =>
    cases l
    simp only [children, walkAll_map]
    simp only [walk, walkList, walkComplexes_eq]
  | complexSelector c =>
    cases c
    simp only [children, walkAll_map]
    simp only [walk, walkComplex, walkRelatives_eq]
  | relativeSelector r =>
    cases r
    simp only [children, walkAll_map]
    simp only [walk, walkRelative, walkSimples_eq]
  | selector x =>
    simp only [children, walkAll_map]
    simp only [walk, walkSimple_eq]

end Lawful

end Walks

end CssRune
