/-
**Where rune calls stand in a script.**

The reader of scripts is given from outside, so what its trees look like is a law it has to obey:
every call takes a non-empty piece of the text it was read from, and of two calls one is part of the
other or they share no byte.  Rune calls that are in no other one then share no byte either.

* `Script.Node.forall_of_children` — induction on trees;
* `Script.Node.calls` — the ranges of all calls of a tree;
* `Script.Node.Separate` — of two calls one is part of the other or they share no byte;
* `Script.CallsLaid`, `ScriptReader.Lawful` — the law of readers;
* `Script.CallsLaid.clear_runeCalls` — **rune calls share no byte**.
-/

import CssRune.Proofs.Markup.Braces
import CssRune.Proofs.Spans
import CssRune.Rune.Call
import CssRune.Script.Reader

set_option autoImplicit false

namespace CssRune

namespace Script

/-- Whether a node is a call. -/
def Kind.isCall : Kind → Bool
  | call _ => true
  | _ => false

namespace Node

/-! ### Trees -/

theorem forall_of_children {P : Node → Prop}
    (step : ∀ kind span children, (∀ n ∈ children, P n) → P (mk kind span children)) (n : Node) :
    P n := by
  refine @Node.rec P (fun ns => ∀ n ∈ ns, P n) ?node ?nil ?cons n
  case node => exact fun kind span children ih => step kind span children ih
  case nil => simp
  case cons =>
    intro n ns hn hns
    exact List.forall_mem_cons.2 ⟨hn, hns⟩

mutual

/-- The ranges of the calls of a tree, a call before those in it. -/
def calls : Node → List Span
  | mk kind span children => (if kind.isCall then [span] else []) ++ callsOfAll children

/-- The ranges of the calls of a list of trees. -/
def callsOfAll : List Node → List Span
  | [] => []
  | n :: ns => n.calls ++ callsOfAll ns

end

mutual

/-- Of two calls of the tree one is part of the other or they share no byte. -/
def Separate : Node → Prop
  | mk _ _ children => SeparateAll children

/-- Of two calls of the trees one is part of the other or they share no byte. -/
def SeparateAll : List Node → Prop
  | [] => True
  | n :: ns => n.Separate ∧ (∀ s ∈ n.calls, ∀ t ∈ callsOfAll ns, s.intersects t = false) ∧
      SeparateAll ns

end

theorem callsOfAll_eq (ns : List Node) : callsOfAll ns = ns.flatMap calls := by
  induction ns with
  | nil => rfl
  | cons n ns ih => rw [callsOfAll, ih, List.flatMap_cons]

theorem runeCallsOfAll_eq (offset : Nat) (ns : List Node) :
    runeCallsOfAll offset ns = ns.flatMap (runeCalls offset) := by
  induction ns with
  | nil => rfl
  | cons n ns ih => rw [runeCallsOfAll, ih, List.flatMap_cons]

theorem isCall_of_calledClasses? {kind : Kind} {span : Span} {children : List Node}
    (h : (mk kind span children).calledClasses?.isSome = true) : kind.isCall = true := by
  unfold calledClasses? at h
  split at h
  · rename_i heq
    cases heq
    rfl
  · cases h

/-! ### Rune calls -/

variable {offset : Nat} {n : Node} {call : RuneCall} {ns : List Node}

/-- A rune call is one of the calls. -/
theorem exists_calls_of_mem_runeCalls (h : call ∈ n.runeCalls offset) :
    ∃ s ∈ n.calls, call.span = s.shift offset := by
  induction n using Node.forall_of_children with
  | step kind span children ih =>
    rw [runeCalls] at h
    rw [calls]
    split at h
    · rename_i classes hclasses
      rw [List.mem_singleton.1 h, if_pos (isCall_of_calledClasses? (by rw [hclasses]; rfl))]
      exact ⟨span, List.mem_append_left _ (List.mem_singleton.2 rfl), rfl⟩
    · rw [runeCallsOfAll_eq] at h
      obtain ⟨child, hchild, hcall⟩ := List.mem_flatMap.1 h
      obtain ⟨s, hs, hspan⟩ := ih child hchild hcall
      refine ⟨s, List.mem_append_right _ ?_, hspan⟩
      rw [callsOfAll_eq]
      exact List.mem_flatMap.2 ⟨child, hchild, hs⟩

theorem exists_calls_of_mem_runeCallsOfAll (h : call ∈ runeCallsOfAll offset ns) :
    ∃ s ∈ callsOfAll ns, call.span = s.shift offset := by
  rw [runeCallsOfAll_eq] at h
  obtain ⟨n, hn, hcall⟩ := List.mem_flatMap.1 h
  obtain ⟨s, hs, hspan⟩ := exists_calls_of_mem_runeCalls hcall
  rw [callsOfAll_eq]
  exact ⟨s, List.mem_flatMap.2 ⟨n, hn, hs⟩, hspan⟩

/-- Rune calls of a list of trees share no byte if those of each tree do not. -/
theorem pairwise_runeCallsOfAll (h : SeparateAll ns) (hns : ∀ n ∈ ns, n.Separate →
      (n.runeCalls offset).Pairwise fun a b => a.span.intersects b.span = false) :
    (runeCallsOfAll offset ns).Pairwise fun a b => a.span.intersects b.span = false := by
  induction ns with
  | nil => exact List.Pairwise.nil
  | cons n ns ih =>
    rw [SeparateAll] at h
    obtain ⟨hn, happart, hrest⟩ := h
    rw [runeCallsOfAll, List.pairwise_append]
    refine ⟨hns n List.mem_cons_self hn,
      ih hrest fun m hm => hns m (List.mem_cons_of_mem n hm), fun a ha b hb => ?_⟩
    obtain ⟨s, hs, hspan⟩ := exists_calls_of_mem_runeCalls ha
    obtain ⟨t, ht, hspan'⟩ := exists_calls_of_mem_runeCallsOfAll hb
    rw [hspan, hspan', Span.intersects_shift]
    exact happart s hs t ht

theorem pairwise_runeCalls (h : n.Separate) :
    (n.runeCalls offset).Pairwise fun a b => a.span.intersects b.span = false := by
  induction n using Node.forall_of_children with
  | step kind span children ih =>
    rw [runeCalls]
    rw [Separate] at h
    split
    · exact List.pairwise_singleton _ _
    · exact pairwise_runeCallsOfAll h ih

end Node

/-! ### The law of readers -/

/-- The calls of trees that are read from a text: each takes a piece of it, and of two calls one is
part of the other or they share no byte. -/
structure CallsLaid (text : List Char) (ns : List Node) : Prop where
  inside : ∀ s ∈ Node.callsOfAll ns, s.start < s.stop ∧ s.Cuts text
  separate : Node.SeparateAll ns

/-- **Rune calls that are in no other one share no byte**, and each takes a piece of the source. -/
theorem CallsLaid.clear_runeCalls {source text : List Char} {offset : Nat} {ns : List Node}
    (h : CallsLaid text ns) (htext : Text.IsAt source offset text) :
    Span.Clear offset (offset + Text.byteLength text)
        ((Node.runeCallsOfAll offset ns).map RuneCall.span) ∧
      ∀ call ∈ Node.runeCallsOfAll offset ns, call.span.Cuts source := by
  refine ⟨⟨fun s hs => ?_, ?_⟩, fun call hcall => ?_⟩
  · obtain ⟨call, hcall, rfl⟩ := List.mem_map.1 hs
    obtain ⟨s, hs, hspan⟩ := Node.exists_calls_of_mem_runeCallsOfAll hcall
    obtain ⟨hne, hcuts⟩ := h.inside s hs
    have hstop := hcuts.stop_le
    rw [hspan]
    simp only [Span.shift_start, Span.shift_stop]
    omega
  · rw [List.pairwise_map]
    exact Node.pairwise_runeCallsOfAll h.separate fun n _ hn => Node.pairwise_runeCalls hn
  · obtain ⟨s, hs, hspan⟩ := Node.exists_calls_of_mem_runeCallsOfAll hcall
    rw [hspan]
    exact (h.inside s hs).2.shift htext

end Script

/-- The law of readers of scripts: the calls of what they read are laid out in the text. -/
structure ScriptReader.Lawful (reader : ScriptReader) : Prop where
  expression : ∀ lang text node, reader.expression lang text = some node →
    Script.CallsLaid text [node]
  program : ∀ lang text program, reader.program lang text = some program →
    Script.CallsLaid text (program.directives ++ program.statements)

/-- The reader that knows nothing but a rune call of one plain string. -/
def ScriptReader.callsOnly : ScriptReader where
  expression _ text :=
    let start := (runeName ++ "(\"").toList
    let stop := "\")".toList
    if start.isPrefixOf text && stop.isSuffixOf text then
      let classes := (text.drop start.length).dropLast.dropLast
      some (.mk (.call 1) ⟨0, Text.byteLength text⟩
        [.mk (.identifier runeName) ⟨0, 4⟩ [],
          .mk (.string (String.ofList classes)) ⟨5, Text.byteLength text - 1⟩ []])
    else none
  program _ _ := none

/-- The law of readers can be met. -/
theorem ScriptReader.lawful_callsOnly : callsOnly.Lawful := by
  refine ⟨fun lang text node h => ?_, fun lang text program h => by cases h⟩
  simp only [callsOnly] at h
  split at h
  · rename_i htext
    cases h
    obtain ⟨hstart, _⟩ := Bool.and_eq_true_iff.1 htext
    obtain ⟨rest, rfl⟩ := List.isPrefixOf_iff_prefix.1 hstart
    have hpos : 0 < Text.byteLength ((runeName ++ "(\"").toList ++ rest) :=
      Text.byteLength_pos (by simp [runeName])
    refine ⟨List.forall_mem_singleton.2 ⟨hpos, _, Text.isAt_self _, (Nat.zero_add _).symm⟩, ?_⟩
    simp [Script.Node.SeparateAll, Script.Node.Separate, Script.Node.callsOfAll,
      Script.Node.calls, Script.Kind.isCall]
  · cases h

end CssRune
