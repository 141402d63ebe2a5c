/-
**Where rune calls stand in markup.**

A node of markup that is laid out has its expressions apart from one another, and a lawful reader of
scripts keeps the rune calls of one expression apart.  So the rune calls of a node share no byte,
and all of them stand inside the node.

* `callSpans` — the ranges of the rune calls of parts of markup;
* `MarkupNode.Laid.sited` — **the rune calls of a node share no byte**.
-/

import CssRune.Proofs.Markup.Nodes
import CssRune.Proofs.Script.Calls
import CssRune.Rune.Literals

set_option autoImplicit false

namespace CssRune

/-! ### Rune calls -/

/-- The ranges of the rune calls of parts of markup. -/
def callSpans (ps : List MarkupPart) : List Span :=
  (ps.flatMap MarkupPart.runeCalls).map RuneCall.span

theorem callSpans_append (ps qs : List MarkupPart) :
    callSpans (ps ++ qs) = callSpans ps ++ callSpans qs := by
  rw [callSpans, List.flatMap_append, List.map_append]
  rfl

theorem callSpans_flatMap {α : Type} (f : α → List MarkupPart) (xs : List α) :
    callSpans (xs.flatMap f) = xs.flatMap fun x => callSpans (f x) := by
  induction xs with
  | nil => rfl
  | cons x xs ih => rw [List.flatMap_cons, callSpans_append, ih, List.flatMap_cons]

section Layouts

variable {setting : ScriptSetting} {source : List Char} {lo hi : Nat}

/-- The rune calls of an expression share no byte. -/
theorem Expression.ReadWithin.sited (hlaw : setting.reader.Lawful) {e : Expression}
    (h : e.ReadWithin setting source lo hi) (inClass : Bool) :
    Span.Sited source lo hi (callSpans [.expression inClass e]) := by
  obtain ⟨text, hat, hlo, hhi, hread⟩ := h
  obtain ⟨hclear, hcuts⟩ := (hlaw.expression _ _ _ hread).clear_runeCalls hat
  have hcalls : callSpans [.expression inClass e] =
      (Script.Node.runeCallsOfAll e.offset [e.node]).map RuneCall.span := rfl
  rw [hcalls]
  exact ⟨hclear.mono hlo hhi, List.forall_mem_map.2 hcuts⟩

theorem ExpressionTag.Laid.sited (hlaw : setting.reader.Lawful) {tag : ExpressionTag}
    (h : tag.Laid setting source) (inClass : Bool) :
    Span.Sited source tag.span.start tag.span.stop
      (callSpans [.expression inClass tag.expression]) :=
  h.expression.sited hlaw inClass

theorem ValueChunk.Laid.sited (hlaw : setting.reader.Lawful) {x : ValueChunk}
    (h : x.Laid setting source) (inClass : Bool) :
    Span.Sited source x.span.start x.span.stop (callSpans (x.parts inClass)) := by
  cases x with
  | text t =>
    rw [ValueChunk.parts]
    split
    · exact Span.Sited.nil _ _ _
    · exact Span.Sited.nil _ _ _
  | expression tag => exact ExpressionTag.Laid.sited hlaw h inClass

theorem AttributeValue.LaidWithin.sited (hlaw : setting.reader.Lawful) {v : AttributeValue}
    (h : v.LaidWithin setting source lo hi) (inClass : Bool) :
    Span.Sited source lo hi (callSpans (v.parts inClass)) := by
  cases v with
  | absent => exact Span.Sited.nil _ _ _
  | expression tag =>
    obtain ⟨hlaid, hstart, hstop⟩ := h
    exact (hlaid.sited hlaw inClass).mono hstart hstop
  | chunks cs =>
    rw [AttributeValue.parts, callSpans_flatMap]
    exact Span.Sited.flatMap_of_row h.1 fun x hx => (h.2 x hx).sited hlaw inClass

theorem AttributeNode.Laid.sited (hlaw : setting.reader.Lawful) {a : AttributeNode}
    (h : a.Laid setting source) :
    Span.Sited source a.span.start a.span.stop (callSpans a.parts) := by
  have hholds := h.holds
  cases a with
  | plain a => exact AttributeValue.LaidWithin.sited hlaw hholds _
  | spread s => exact Expression.ReadWithin.sited hlaw hholds false
  | directive d =>
    have hvalue : Span.Sited source d.span.start d.span.stop
        (callSpans (d.value.toList.map fun tag => .expression false tag.expression)) := by
      cases hv : d.value with
      | none => exact Span.Sited.nil _ _ _
      | some tag =>
        obtain ⟨hlaid, hstart, hstop⟩ := hholds tag hv
        exact (hlaid.sited hlaw false).mono hstart hstop
    rw [AttributeNode.parts, callSpans_append]
    split
    · exact hvalue
    · exact hvalue

theorem partsOfNodes_eq (nodes : List MarkupNode) :
    partsOfNodes nodes = nodes.flatMap MarkupNode.parts := by
  induction nodes with
  | nil => rfl
  | cons n ns ih => rw [partsOfNodes, ih, List.flatMap_cons]

/-- **The rune calls of a node share no byte**, and each stands inside the node. -/
theorem MarkupNode.Laid.sited (hlaw : setting.reader.Lawful) {n : MarkupNode}
    (h : n.Laid setting source) :
    Span.Sited source n.span.start n.span.stop (callSpans n.parts) := by
  induction h with
  | @element name attributes children selfClosing span inner close here hattributes _ ih =>
    have hle := here.chain.le
    have hrow : Span.Sited source (span.start + 1) inner
        (callSpans (attributes.flatMap AttributeNode.parts)) := by
      rw [callSpans_flatMap]
      exact Span.Sited.flatMap_of_row here.row fun a ha => (hattributes a ha).sited hlaw
    have hchain : Span.Sited source inner close
        (callSpans (children.flatMap MarkupNode.parts)) := by
      rw [callSpans_flatMap]
      exact Span.Sited.flatMap_of_row here.chain.row ih
    rw [MarkupNode.parts, partsOfNodes_eq, callSpans_append]
    exact (hrow.append hchain here.inner_gt hle).mono (Nat.le_succ _) here.close_le
  | text => exact Span.Sited.nil _ _ _
  | comment => exact Span.Sited.nil _ _ _
  | expression here => exact here.sited hlaw false
  | @block tag _ _ here =>
    rw [MarkupNode.parts]
    cases he : tag.expression with
    | none => exact Span.Sited.nil _ _ _
    | some e => exact (here e he).sited hlaw false

end Layouts

end CssRune
