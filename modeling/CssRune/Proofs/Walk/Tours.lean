/-
**Walks over components that are read.**

In a tree that is read from a source, what a site holds is written inside its range, one piece after
the other.  The visits of a walk over it therefore start at offsets that never decrease.  With this
all is said about a walk and its log: which sites come, in which order and with which states, what a
limit does, and what it means to leave out what some sites hold.

Main results:

* `MarkupNode.Laid.rises`, `StylePart.Laid.rises` — nodes of markup and parts of stylesheets that
  are laid out in a source;
* `Component.logs_of_read` — **walks over the trees of a component and their logs**.
-/

import CssRune.Proofs.Markup.Refusals
import CssRune.Proofs.Walk.Logs
import CssRune.Script.Grammar

set_option autoImplicit false

namespace CssRune

/-! ### Numbers that rise -/

/-- The numbers lie between two others and never decrease. -/
structure Rising (lo hi : Nat) (xs : List Nat) : Prop where
  inside : ∀ x ∈ xs, lo ≤ x ∧ x ≤ hi
  sorted : xs.Pairwise (· ≤ ·)

namespace Rising

variable {lo mid hi lo' hi' x : Nat} {xs ys : List Nat}

theorem nil (lo hi : Nat) : Rising lo hi [] := ⟨by simp, List.Pairwise.nil⟩

theorem mono (h : Rising lo hi xs) (hlo : lo' ≤ lo) (hhi : hi ≤ hi') : Rising lo' hi' xs := by
  refine ⟨fun x hx => ?_, h.sorted⟩
  obtain ⟨h₁, h₂⟩ := h.inside x hx
  omega

theorem append (h : Rising lo mid xs) (h' : Rising mid hi ys) (hlo : lo ≤ mid) (hhi : mid ≤ hi) :
    Rising lo hi (xs ++ ys) := by
  refine ⟨List.forall_mem_append.2 ⟨(h.mono (Nat.le_refl lo) hhi).inside,
    (h'.mono hlo (Nat.le_refl hi)).inside⟩,
    List.pairwise_append.2 ⟨h.sorted, h'.sorted, fun x hx y hy => ?_⟩⟩
  exact Nat.le_trans (h.inside x hx).2 (h'.inside y hy).1

theorem cons (hlo : lo ≤ x) (hhi : x ≤ hi) (h : Rising x hi xs) : Rising lo hi (x :: xs) := by
  refine ⟨fun y hy => ?_, List.pairwise_cons.2 ⟨fun y hy => (h.inside y hy).1, h.sorted⟩⟩
  rcases List.mem_cons.1 hy with rfl | hy
  · exact ⟨hlo, hhi⟩
  · obtain ⟨h₁, h₂⟩ := h.inside y hy
    omega

end Rising

/-! ### Where visits start -/

variable {σ : Type}

/-- Where the site of a visit starts; a fragment has no place of its own. -/
def Visit.start? (v : Visit σ) : Option Nat := v.site.span.map Span.start

theorem Visit.filterMap_start_nest (i : Nat) (vss : List (List (Visit σ))) :
    (nest i vss).filterMap start? = vss.flatMap fun vs => vs.filterMap start? := by
  induction vss generalizing i with
  | nil => rfl
  | cons vs vss ih =>
    rw [nest, List.filterMap_append, ih, List.filterMap_map, List.flatMap_cons]
    rfl

namespace Site

variable {rules : LogRules σ} {lo hi : Nat}

/-- Where the visits below a site start. -/
def starts (rules : LogRules σ) (s : σ) (site : Site) : List Nat :=
  (site.visits rules s).filterMap Visit.start?

theorem starts_eq (s : σ) (site : Site) :
    site.starts rules s = (site.span.map Span.start).toList ++
      site.children.flatMap (starts rules (rules.down s site)) := by
  have hself : Visit.start? ⟨[], site, s⟩ = site.span.map Span.start := rfl
  have hbelow : (Visit.nest 0 (site.children.map (visits rules (rules.down s site)))).filterMap
      Visit.start? = site.children.flatMap (starts rules (rules.down s site)) := by
    rw [Visit.filterMap_start_nest, List.flatMap_map]
    rfl
  rw [starts, visits_eq, ← hbelow]
  cases hspan : site.span.map Span.start with
  | none => exact List.filterMap_cons_none (hself.trans hspan)
  | some start => exact List.filterMap_cons_some (hself.trans hspan)

/-- The visits below a site start between two offsets, in source order. -/
def Rises (rules : LogRules σ) (lo hi : Nat) (site : Site) : Prop :=
  ∀ s, Rising lo hi (site.starts rules s)

theorem rises_of_span {site : Site} {span : Span} (hspan : site.span = some span)
    (hlo : lo ≤ span.start) (hhi : span.start ≤ hi)
    (h : ∀ s, Rising span.start hi (site.children.flatMap (starts rules s))) :
    site.Rises rules lo hi := by
  intro s
  rw [starts_eq, hspan]
  exact Rising.cons hlo hhi (h _)

/-- Sites that are a row in the source. -/
theorem rising_flatMap_of_row {α : Type} {gap : Nat} {span : α → Span} {f : α → Site}
    {xs : List α} (hrow : Span.Row gap lo hi (xs.map span))
    (h : ∀ x ∈ xs, (f x).Rises rules (span x).start (span x).stop) (s : σ) :
    Rising lo hi ((xs.map f).flatMap (starts rules s)) := by
  rw [List.flatMap_map]
  exact Span.Row.flatMap Rising.nil (fun h hlo => h.mono hlo (Nat.le_refl _)) Rising.append hrow
    fun x hx => h x hx s

theorem rising_flatMap_singleton {c : Site} (h : c.Rises rules lo hi) (s : σ) :
    Rising lo hi ([c].flatMap (starts rules s)) := by
  rw [List.flatMap_singleton]
  exact h s

theorem rising_flatMap_toList {α : Type} {f : α → Site} {o : Option α}
    (h : ∀ x, o = some x → (f x).Rises rules lo hi) (s : σ) :
    Rising lo hi ((o.toList.map f).flatMap (starts rules s)) := by
  cases o with
  | none => exact Rising.nil _ _
  | some x => exact rising_flatMap_singleton (h x rfl) s

end Site

/-! ### Markup -/

section Markup

variable {rules : LogRules σ} {setting : ScriptSetting} {source : List Char} {lo hi : Nat}

theorem Expression.ReadWithin.rises {e : Expression} (h : e.ReadWithin setting source lo hi) :
    (Site.expression e).Rises rules lo hi := by
  obtain ⟨text, _, hlo, hhi, _⟩ := h
  refine Site.rises_of_span rfl hlo ?_ fun s => Rising.nil _ _
  show e.offset ≤ hi
  omega

theorem ExpressionTag.Laid.rises {tag : ExpressionTag} (h : tag.Laid setting source) :
    (Site.expressionTag tag).Rises rules tag.span.start tag.span.stop :=
  Site.rises_of_span rfl (Nat.le_refl _) (Nat.le_of_lt h.nonempty)
    (Site.rising_flatMap_singleton h.expression.rises)

theorem ValueChunk.Laid.rises {c : ValueChunk} (h : c.Laid setting source) :
    c.site.Rises rules c.span.start c.span.stop := by
  cases c with
  | text t =>
    exact Site.rises_of_span rfl (Nat.le_refl _) (Nat.le_of_lt h.nonempty)
      fun s => Rising.nil _ _
  | expression tag => exact ExpressionTag.Laid.rises h

theorem AttributeValue.LaidWithin.rising {v : AttributeValue}
    (h : v.LaidWithin setting source lo hi) (s : σ) :
    Rising lo hi (v.sites.flatMap (Site.starts rules s)) := by
  cases v with
  | absent => exact Rising.nil _ _
  | expression tag =>
    obtain ⟨hlaid, hlo, hhi⟩ := h
    exact (Site.rising_flatMap_singleton hlaid.rises s).mono hlo hhi
  | chunks cs =>
    obtain ⟨hrow, hlaid⟩ := h
    exact Site.rising_flatMap_of_row hrow (fun c hc => (hlaid c hc).rises) s

theorem AttributeNode.Laid.rises {a : AttributeNode} (h : a.Laid setting source) :
    a.site.Rises rules a.span.start a.span.stop := by
  obtain ⟨_, hnonempty, hholds⟩ := h
  cases a with
  | plain a =>
    exact Site.rises_of_span rfl (Nat.le_refl _) (Nat.le_of_lt hnonempty)
      (AttributeValue.LaidWithin.rising hholds)
  | spread a =>
    exact Site.rises_of_span rfl (Nat.le_refl _) (Nat.le_of_lt hnonempty)
      (Site.rising_flatMap_singleton (Expression.ReadWithin.rises hholds))
  | directive d =>
    refine Site.rises_of_span rfl (Nat.le_refl _) (Nat.le_of_lt hnonempty)
      (Site.rising_flatMap_toList fun tag htag s => ?_)
    obtain ⟨hlaid, hlo, hhi⟩ := hholds tag htag
    exact (hlaid.rises s).mono hlo hhi

theorem Site.rises_fragment {nodes : List MarkupNode}
    (hrow : Span.Row 0 lo hi (nodes.map MarkupNode.span))
    (h : ∀ n ∈ nodes, (Site.node n).Rises rules n.span.start n.span.stop) :
    (Site.fragment nodes).Rises rules lo hi := by
  intro s
  rw [starts_eq]
  exact rising_flatMap_of_row hrow h _

theorem Site.rises_node {n : MarkupNode} (h : n.site.Rises rules n.span.start n.span.stop)
    (hnonempty : n.span.start ≤ n.span.stop) :
    (Site.node n).Rises rules n.span.start n.span.stop :=
  Site.rises_of_span rfl (Nat.le_refl _) hnonempty (Site.rising_flatMap_singleton h)

/-- The visits of a node that is laid out start inside of it, in source order. -/
theorem MarkupNode.Laid.rises {n : MarkupNode} (h : n.Laid setting source) :
    (Site.node n).Rises rules n.span.start n.span.stop := by
  induction h with
  | @element name attributes children selfClosing span inner close here attributes_laid _ ih =>
    have hinner := here.inner_gt
    have hchain := here.chain.le
    have hclose := here.close_le
    have hle : span.start ≤ span.stop := by omega
    refine Site.rises_node ?_ hle
    refine Site.rises_of_span rfl (Nat.le_refl _) hle fun s => ?_
    have hattributes : Rising span.start inner
        ((attributes.map AttributeNode.site).flatMap (Site.starts rules s)) :=
      (Site.rising_flatMap_of_row here.row (fun a ha => (attributes_laid a ha).rises) s).mono
        (Nat.le_succ _) (Nat.le_refl _)
    have hchildren := (Site.rises_fragment here.chain.row ih s).mono (Nat.le_refl _) hclose
    rw [MarkupNode.site, Site.children, List.flatMap_append, List.flatMap_singleton]
    exact hattributes.append hchildren (Nat.le_of_lt hinner) (Nat.le_trans hchain hclose)
  | text here =>
    have hle := Nat.le_of_lt here.nonempty
    exact Site.rises_node (Site.rises_of_span rfl (Nat.le_refl _) hle fun s => Rising.nil _ _) hle
  | comment cuts nonempty =>
    have hle := Nat.le_of_lt nonempty
    exact Site.rises_node (Site.rises_of_span rfl (Nat.le_refl _) hle fun s => Rising.nil _ _) hle
  | expression here => exact Site.rises_node here.rises (Nat.le_of_lt here.nonempty)
  | @block tag cuts nonempty here =>
    have hle := Nat.le_of_lt nonempty
    exact Site.rises_node (Site.rises_of_span rfl (Nat.le_refl _) hle
      (Site.rising_flatMap_toList fun e he => (here e he).rises)) hle

end Markup

/-! ### Stylesheets -/

namespace StylePart

variable {rules : LogRules σ} {source : List Char}

/-- A part of a stylesheet as a site. -/
def site : StylePart → Site
  | node n => n.site
  | block b => .block b
  | list l => .selectorList l
  | complex c => .complexSelector c
  | relative r => .relativeSelector r
  | simple s => .selector s

/-- A part of a stylesheet as the site that comes first: a node is shown as such. -/
def first : StylePart → Site
  | node n => .styleNode n
  | p => p.site

theorem span_site (p : StylePart) : p.site.span = some p.span := by
  cases p with
  | node n => cases n <;> rfl
  | _ => rfl

theorem children_site (p : StylePart) : p.site.children = p.children.map first := by
  cases p with
  | node n =>
    cases n with
    | rule prelude b span => rfl
    | atRule name prelude b span => cases b <;> rfl
    | declaration d => rfl
  | block b =>
    rw [children, List.map_map]
    rfl
  | list l =>
    rw [children, List.map_map]
    rfl
  | complex c =>
    rw [children, List.map_map]
    rfl
  | relative r =>
    rw [children, List.map_map]
    rfl
  | simple s =>
    rw [children, List.map_map]
    rfl

theorem first_cases (p : StylePart) :
    p.first = p.site ∨ p.first.span = some p.span ∧ p.first.children = [p.site] := by
  cases p with
  | node n => exact .inr ⟨rfl, rfl⟩
  | _ => exact .inl rfl

/-- The visits of a part that is laid out start inside of it, in source order. -/
theorem Laid.rises {p : StylePart} (h : p.Laid source) (hle : p.span.start ≤ p.span.stop) :
    p.first.Rises rules p.span.start p.span.stop := by
  -- a node is two sites, so both are followed down at once
  have hsite : ∀ (site : Site) (p : StylePart), site = p.first ∨ site = p.site → p.Laid source →
      p.span.start ≤ p.span.stop → site.Rises rules p.span.start p.span.stop := by
    intro site
    induction site using Site.induction with
    | step site ih =>
      intro p hp hlaid hle
      have hinner : site = p.site → site.Rises rules p.span.start p.span.stop := by
        rintro rfl
        refine Site.rises_of_span p.span_site (Nat.le_refl _) hle fun s => ?_
        rw [children_site]
        refine Site.rising_flatMap_of_row hlaid.row (fun q hq => ?_) s
        refine ih _ ?_ q (.inl rfl) (hlaid.child q hq) ?_
        · rw [children_site]
          exact List.mem_map_of_mem hq
        · exact Nat.le_of_lt (hlaid.row.inside _ (List.mem_map_of_mem hq)).2.1
      rcases hp with rfl | rfl
      · rcases p.first_cases with hfirst | ⟨hspan, hchildren⟩
        · exact hinner hfirst
        · refine Site.rises_of_span hspan (Nat.le_refl _) hle fun s => ?_
          rw [hchildren]
          refine Site.rising_flatMap_singleton (ih _ ?_ p (.inr rfl) hlaid hle) s
          rw [hchildren]
          exact List.mem_singleton.2 rfl
      · exact hinner rfl
  exact hsite _ p (.inl rfl) h hle

end StylePart

/-! ### Components -/

section Components

variable {ε : Type} {scripts : ScriptReader} {source : String} {component : Component}

theorem TopItem.sublist_spans_of_nodes (items : List TopItem) :
    ((items.filterMap TopItem.node?).map MarkupNode.span).Sublist (items.map TopItem.span) := by
  induction items with
  | nil => exact List.Sublist.slnil
  | cons i items ih =>
    cases i with
    | node n => exact ih.cons_cons n.span
    | script s => exact ih.cons s.span
    | sheet s => exact ih.cons s.span

theorem Component.row_fragment_of_read (h : Component.read scripts source = .ok component) :
    Span.Row 0 0 (Text.byteLength source.toList) (component.fragment.map MarkupNode.span) := by
  obtain ⟨_, items, hchain, _, hfragment, _, _⟩ := laid_read h
  rw [hfragment]
  exact hchain.row.sublist (TopItem.sublist_spans_of_nodes items)

theorem Component.rises_fragment_of_read (h : Component.read scripts source = .ok component)
    (rules : LogRules σ) :
    (Site.fragment component.fragment).Rises rules 0 (Text.byteLength source.toList) :=
  Site.rises_fragment (Component.row_fragment_of_read h) fun n hn => by
    obtain ⟨rfl, hlaid⟩ := Component.laid_of_read h
    exact (hlaid.nodes n hn).rises

theorem StyleSheet.Laid.rises {sheet : StyleSheet} {source : List Char} (h : sheet.Laid source)
    (rules : LogRules σ) :
    (Site.stylesheet sheet).Rises rules sheet.span.start sheet.span.stop := by
  have hle : sheet.span.start ≤ sheet.span.stop := by
    obtain ⟨_, _, hstop⟩ := h.cuts
    omega
  refine Site.rises_of_span rfl (Nat.le_refl _) hle fun s => ?_
  refine (Site.rising_flatMap_of_row h.row (fun n hn => ?_) s).mono h.start_le h.stop_le
  exact StylePart.Laid.rises (p := .node n) (h.below n hn)
    (Nat.le_of_lt (h.row.inside _ (List.mem_map_of_mem hn)).2.1)

/-- The visits of a walk over a tree that is read: they come in pre-order, every site of the tree
is visited and nothing else, where visits start never decreases, and every visit has the state that
the nearest logged site above it passed down. -/
structure Site.Toured (rules : LogRules σ) (s : σ) (site : Site) (visits : List (Visit σ)) :
    Prop where
  preorder : visits.Pairwise Visit.Before
  sites : ∀ path x, (∃ v ∈ visits, v.path = path ∧ v.site = x) ↔ site.at? path = some x
  starts : visits.Pairwise fun u v => ∀ a, u.start? = some a → ∀ b, v.start? = some b → a ≤ b
  handed : ∀ v ∈ visits, v.Handed rules s visits

theorem Site.Rises.toured {rules : LogRules σ} {lo hi : Nat} {site : Site}
    (h : site.Rises rules lo hi) (s : σ) : site.Toured rules s (site.visits rules s) :=
  ⟨pairwise_before_visits rules site s, exists_visit_iff rules s site,
    List.pairwise_filterMap.1 (h s).sorted, fun _ hv => handed_of_mem_visits rules hv⟩

/-- A walk is logged as a list of visits says.  A full walk logs all of them that are to be logged;
leaving out what sites of some kinds hold takes those below such sites out of the log; with a limit
the walk fails over the first event that there is no room for, and the log ends before it. -/
structure LogRules.Logs (rules : LogRules σ) (fault : WalkEvent σ → ε) (visits : List (Visit σ))
    (walk : Visitor (Logging ε σ) σ → Logging ε σ Unit) : Prop where
  full : ∀ log, (walk (rules.visitor (fun _ => false) none fault)).run.run log =
    (.ok (), log ++ (visits.filter fun v => rules.logs v.site.kind).map Visit.event)
  pruned : ∀ prunes log, (walk (rules.visitor prunes none fault)).run.run log =
    (.ok (), log ++ rules.logOf prunes visits)
  within : ∀ prunes log n, (rules.logOf prunes visits).length ≤ n →
    (walk (rules.visitor prunes (some (log.length + n)) fault)).run.run log =
      (.ok (), log ++ rules.logOf prunes visits)
  stopped : ∀ prunes log n e, (rules.logOf prunes visits)[n]? = some e →
    (walk (rules.visitor prunes (some (log.length + n)) fault)).run.run log =
      (.error (fault e), log ++ (rules.logOf prunes visits).take n)

theorem LogRules.logOf_false (rules : LogRules σ) (visits : List (Visit σ)) :
    rules.logOf (fun _ => false) visits =
      (visits.filter fun v => rules.logs v.site.kind).map Visit.event := by
  refine congrArg (List.map Visit.event) (List.filter_congr fun v _ => ?_)
  rw [List.any_eq_false.2 fun u _ => by simp, Bool.not_false, Bool.and_true]

theorem Site.logs_walk (rules : LogRules σ) (fault : WalkEvent σ → ε) (s : σ) (site : Site) :
    rules.Logs fault (site.visits rules s) fun visit => site.walk visit s := by
  have hpruned : ∀ prunes log, (site.walk (rules.visitor prunes none fault) s).run.run log =
      (.ok (), log ++ rules.logOf prunes (site.visits rules s)) := fun prunes log =>
    (spends_walk rules prunes none fault site s).fits log fun n hn => by cases hn
  refine ⟨fun log => ?_, hpruned, fun prunes log n hlen => ?_, fun prunes log n e he => ?_⟩
  · rw [hpruned, LogRules.logOf_false]
  · refine (spends_walk rules prunes _ fault site s).fits log fun k hk => ?_
    cases hk
    omega
  · have hroom : log.length + n - log.length = n := Nat.add_sub_cancel_left _ _
    rw [(spends_walk rules prunes _ fault site s).fails log _ e rfl (by rwa [hroom]), hroom]

/-- **Walks over the trees of a component and their logs.**  For the markup and for the stylesheet
of every component that is read, and for whatever is logged and passed down, there is one list of
visits: every site once, in pre-order and in source order, each with the state that the nearest
logged site above it passed down.  A walk logs these visits; what is below sites whose contents are
left out is missing from the log and nothing else; and a walk that fails instead of logging an event
ends with that failure, with exactly the events before it in the log. -/
theorem Component.logs_of_read (h : Component.read scripts source = .ok component)
    (rules : LogRules σ) (s : σ) (fault : WalkEvent σ → ε) :
    (∃ visits, (Site.fragment component.fragment).Toured rules s visits ∧
      rules.Logs fault visits fun visit => walkMarkup visit s component.fragment) ∧
    ∀ sheet, component.style = some sheet →
      ∃ visits, (Site.stylesheet sheet).Toured rules s visits ∧
        rules.Logs fault visits fun visit => walkStyleSheet visit s sheet := by
  constructor
  · exact ⟨_, (rises_fragment_of_read h rules).toured s, Site.logs_walk rules fault s (.fragment _)⟩
  · intro sheet hsheet
    exact ⟨_, ((laid_style_of_read h hsheet).rises rules).toured s,
      Site.logs_walk rules fault s (.stylesheet sheet)⟩

/-- An element with an expression in an attribute, and a rule with a selector in another. -/
def nestedSites : String :=
  "<p a=\"b\x7bc\x7d\">d</p><style>e:not(.f)\x7bg:h\x7d</style>"

/-- Its twelve logged sites, with the number of logged sites around each, and the first four of
those that are left when attributes and rules are not gone into. -/
theorem Component.logs_of_read_nestedSites :
    ∃ component sheet, Component.read ScriptReader.grammar nestedSites = .ok component ∧
      component.style = some sheet ∧
      ((component.walk [] none).events.map fun e => (e.site.kind, e.state)) =
        [(.fragment, 0), (.element, 1), (.plainAttribute, 2), (.text, 3), (.expression, 3),
          (.fragment, 2), (.text, 3), (.rule, 0), (.selector, 1), (.selector, 1), (.selector, 2),
          (.declaration, 1)] ∧
      ((component.walk [.plainAttribute, .rule] (some 4)).events.map fun e =>
          (e.site.kind, e.state)) =
        [(.fragment, 0), (.element, 1), (.plainAttribute, 2), (.fragment, 2)] ∧
      (∃ visits, (Site.fragment component.fragment).Toured reportRules 0 visits ∧
        reportRules.Logs (fun _ => ()) visits fun visit =>
          walkMarkup visit 0 component.fragment) ∧
      ∃ visits, (Site.stylesheet sheet).Toured reportRules 0 visits ∧
        reportRules.Logs (fun _ => ()) visits fun visit => walkStyleSheet visit 0 sheet := by
  have heval : ((Component.read ScriptReader.grammar nestedSites).toOption.map fun component =>
      (component.style.isSome, (component.walk [] none).events.map fun e => (e.site.kind, e.state),
        (component.walk [.plainAttribute, .rule] (some 4)).events.map fun e =>
          (e.site.kind, e.state))) =
      some (true,
        [(.fragment, 0), (.element, 1), (.plainAttribute, 2), (.text, 3), (.expression, 3),
          (.fragment, 2), (.text, 3), (.rule, 0), (.selector, 1), (.selector, 1), (.selector, 2),
          (.declaration, 1)],
        [(.fragment, 0), (.element, 1), (.plainAttribute, 2), (.fragment, 2)]) := by
    decide +kernel
  obtain ⟨component, hread, heval⟩ := Option.map_eq_some_iff.1 heval
  simp only [Prod.mk.injEq] at heval
  obtain ⟨hstyle, hevents, hpruned⟩ := heval
  obtain ⟨sheet, hsheet⟩ := Option.isSome_iff_exists.1 hstyle
  rw [toOption_eq_some_iff] at hread
  obtain ⟨hmarkup, hsheets⟩ := Component.logs_of_read hread reportRules 0 fun _ => ()
  exact ⟨component, sheet, hread, hsheet, hevents, hpruned, hmarkup, hsheets sheet hsheet⟩

end Components

end CssRune
