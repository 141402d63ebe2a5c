/-
**Stylesheets read in another place.**

What is read from a stylesheet depends on its text and on nothing around it, except for one
character: when the text is followed by `*`, a slash at its very end looks like the start of a
comment.  Otherwise, reading the same text `n` bytes further on gives the same nodes with `n` added
to all their ranges, or the same refusal `n` bytes further on.

Main results:

* `apart_nextDelimiter`, `apart_passBlock`, `apart_readItem` — each reader of stylesheets reads
  alike in two places;
* `apart_readItemsF` — **nodes are read alike wherever their text stands**;
* `readStyleSheet_of_slice` — **a stylesheet in a source is read as its text on its own**.
-/

import CssRune.Proofs.Spans
import CssRune.Proofs.Style.Shifts
import CssRune.Style.Sheet.Reader

set_option autoImplicit false

namespace CssRune

/-! ### Nodes in another place -/

/-- A declaration in another place. -/
def Declaration.shift (n : Nat) (d : Declaration) : Declaration :=
  ⟨d.property, d.value.shift n, d.span.shift n⟩

mutual

/-- A node with its ranges moved. -/
def StyleNode.shift (n : Nat) : StyleNode → StyleNode
  | .rule prelude block span => .rule (prelude.shift n) (block.shift n) (span.shift n)
  | .atRule name prelude none span => .atRule name (prelude.shift n) none (span.shift n)
  | .atRule name prelude (some block) span =>
    .atRule name (prelude.shift n) (some (block.shift n)) (span.shift n)
  | .declaration d => .declaration (d.shift n)
termination_by structural s => s

/-- A block with its ranges moved. -/
def BlockOf.shift (n : Nat) : BlockOf StyleNode → BlockOf StyleNode
  | ⟨children, span⟩ => ⟨shiftNodes n children, span.shift n⟩
termination_by structural s => s

/-- Nodes with their ranges moved. -/
def shiftNodes (n : Nat) : List StyleNode → List StyleNode
  | [] => []
  | node :: nodes => node.shift n :: shiftNodes n nodes
termination_by structural s => s

end

theorem StyleNode.shift_atRule (n : Nat) (name : String) (prelude : Span)
    (block : Option StyleBlock) (span : Span) : (StyleNode.atRule name prelude block span).shift n =
      .atRule name (prelude.shift n) (block.map (BlockOf.shift n)) (span.shift n) := by
  cases block with
  | none => rfl
  | some block => rfl

section Readers

variable {n : Nat} {beyond beyond' : Option Char} {c d : Cursor}

/-- A block and the cursor after it, read in two places. -/
def BlockApart (n : Nat) (r s : StyleBlock × Cursor) : Prop := r.1 = s.1.shift n ∧ r.2.Apart n s.2

/-! ### Delimiters, blocks that are not read, and declarations -/

theorem apart_declarationAt {stop stop' : Cursor} (h : d.Apart n c) (hstop : stop'.Apart n stop) :
    Apart n (fun r s => r = s.shift n) (declarationAt d stop') (declarationAt c stop) := by
  simp only [declarationAt, h.upTo hstop, h.pos]
  split
  · exact .error rfl
  · split
    · exact .error rfl
    · refine .ok ?_
      simp only [Declaration.shift, Span.shift, Nat.add_right_comm _ n, Nat.add_max_add_right]

section Delimiters

variable (hbeyond : beyond' = some '*' ↔ beyond = some '*') (h : d.Apart n c)

include hbeyond h

theorem apart_nextDelimiter {depth : Nat} :
    Apart n (Pace.Apart n id) (nextDelimiter beyond' depth d) (nextDelimiter beyond depth c) := by
  induction hk : c.length using Nat.strongRecOn generalizing depth c d with
  | ind k ih =>
    subst hk
    obtain ⟨pos, rest⟩ := c
    obtain rfl : d = ⟨pos + n, rest⟩ := h.eq
    rw [nextDelimiter.eq_1 beyond' depth ⟨pos + n, rest⟩,
      nextDelimiter.eq_1 beyond depth ⟨pos, rest⟩]
    cases rest with
    | nil => exact .ok ⟨rfl, h⟩
    | cons ch rest =>
      simp only [hbeyond]
      split
      · split
        · exact .error rfl
        · rename_i after hr
          exact (ih _ (length_moveTo_quoted rfl hr) (h.moveTo after) rfl).bind fun _ _ hr =>
            .ok ⟨hr.value, hr.next⟩
      · split
        · split
          · exact .error rfl
          · rename_i after hr
            exact (ih _ (length_moveTo_comment rfl hr) (h.moveTo after) rfl).bind fun _ _ hr =>
              .ok ⟨hr.value, hr.next⟩
        · split
          · exact .error rfl
          · split
            · exact .ok ⟨rfl, h⟩
            · exact (ih _ (Cursor.length_next_of_cons rfl) h.next rfl).bind fun _ _ hr =>
                .ok ⟨hr.value, hr.next⟩

theorem apart_passBlockFrom {depth : Nat} :
    Apart n (Cursor.Apart n) (passBlockFrom beyond' depth d) (passBlockFrom beyond depth c) := by
  induction hk : c.length using Nat.strongRecOn generalizing depth c d with
  | ind k ih =>
    subst hk
    rw [passBlockFrom.eq_1 beyond' depth d, passBlockFrom.eq_1 beyond depth c]
    refine (apart_nextDelimiter hbeyond h).bind fun r s hrs => ?_
    obtain ⟨value, ⟨pos, rest⟩, hle⟩ := s
    obtain ⟨_, next, _⟩ := r
    obtain rfl : next = ⟨pos + n, rest⟩ := hrs.next.eq
    obtain rfl := hrs.value
    cases rest with
    | nil => exact .error rfl
    | cons ch rest =>
      have hlt : (Cursor.moveTo ⟨pos, ch :: rest⟩ rest).length < c.length :=
        Nat.lt_of_lt_of_le (Cursor.length_moveTo_lt rfl) hle
      have hnext := hrs.next.moveTo rest
      simp only []
      split
      · exact ih _ hlt hnext rfl
      · exact .ok hnext
      · exact ih _ hlt hnext rfl
      · exact ih _ hlt hnext rfl
      · exact .error rfl

theorem apart_passBlock : Apart n (BlockApart n) (passBlock beyond' d) (passBlock beyond c) := by
  refine (apart_passBlockFrom hbeyond h.next).bind fun r s hrs => .ok ⟨?_, hrs⟩
  rw [h.span hrs]
  rfl

theorem apart_readDeclaration :
    Apart n (fun r s => r.1 = s.1.shift n ∧ r.2.Apart n s.2) (readDeclaration beyond' d)
      (readDeclaration beyond c) := by
  refine (apart_nextDelimiter hbeyond h).bind fun r s hrs =>
    (apart_declarationAt h hrs.next).bind fun x y hxy => .ok ⟨hxy, ?_⟩
  simp only [hrs.value, id]
  split
  · exact hrs.next.next
  · exact hrs.next

end Delimiters

/-! ### Rules and at-rules -/

/-- Nodes and the cursor after them, read in two places. -/
def NodesApart (n : Nat) (r s : List StyleNode × Cursor) : Prop :=
  r.1 = shiftNodes n s.1 ∧ r.2.Apart n s.2

/-- Two readers of nodes that read alike in two places. -/
def ItemsApart (n : Nat) (items' items : ItemReader) : Prop :=
  ∀ (nested : Bool) (c d : Cursor), d.Apart n c →
    Apart n (NodesApart n) (items' nested d) (items nested c)

/-- A node and the cursor after it, read in two places. -/
def NodeApart (n : Nat) (r s : StyleNode × Cursor) : Prop := r.1 = s.1.shift n ∧ r.2.Apart n s.2

variable {items items' : ItemReader}

theorem apart_readBlock (hitems : ItemsApart n items' items) (h : d.Apart n c) :
    Apart n (BlockApart n) (readBlock items' d) (readBlock items c) := by
  refine (hitems true _ _ h.next).bind fun r s hrs => .ok ⟨?_, hrs.2.next⟩
  rw [hrs.1, h.span hrs.2.next]
  rfl

theorem trimmedSpan_shift (n pos : Nat) (text : List Char) :
    trimmedSpan (pos + n) text = (trimmedSpan pos text).shift n := by
  simp only [trimmedSpan, Span.shift, Nat.add_right_comm _ n]

section Rules

variable (hitems : ItemsApart n items' items)
  (hbeyond : beyond' = some '*' ↔ beyond = some '*') (h : d.Apart n c)

include hitems hbeyond h

theorem apart_readRule :
    Apart n (NodeApart n) (readRule items' beyond' d) (readRule items beyond c) := by
  refine (apart_nextDelimiter hbeyond h).bind fun r s hrs => ?_
  simp only [hrs.value, id]
  split
  · exact .error hrs.next.pos
  · have hprelude : Cursor.Apart n ⟨d.pos, Text.trimSpaceRight (d.upTo r.next)⟩
        ⟨c.pos, Text.trimSpaceRight (c.upTo s.next)⟩ := ⟨h.pos, by rw [h.upTo hrs.next]⟩
    refine (apart_readSelectorList hprelude).bind fun l l' hl =>
      (apart_readBlock hitems hrs.next).bind fun b b' hb => .ok ⟨?_, hb.2⟩
    simp only [hl, hb.1, h.span hb.2]
    rfl

theorem apart_readAtRule :
    Apart n (NodeApart n) (readAtRule items' beyond' d) (readAtRule items beyond c) := by
  simp only [readAtRule]
  rw [h.next.rest]
  generalize c.next.rest.takeWhile isIdentChar = name
  split
  · exact .error h.next.pos
  · have hafter := h.next.skip name.length
    refine (apart_nextDelimiter hbeyond hafter).bind fun r s hrs => ?_
    have hprelude :
        trimmedSpan (d.next.skip name.length).pos ((d.next.skip name.length).upTo r.next) =
          (trimmedSpan (c.next.skip name.length).pos
            ((c.next.skip name.length).upTo s.next)).shift n := by
      rw [hafter.pos, hafter.upTo hrs.next, trimmedSpan_shift]
    have hnode : ∀ {block block' : Option StyleBlock} {stop stop' : Cursor},
        block = block'.map (BlockOf.shift n) → stop.Apart n stop' →
        NodeApart n
          (.atRule (String.ofList name) (trimmedSpan (d.next.skip name.length).pos
            ((d.next.skip name.length).upTo r.next)) block ⟨d.pos, stop.pos⟩, stop)
          (.atRule (String.ofList name) (trimmedSpan (c.next.skip name.length).pos
            ((c.next.skip name.length).upTo s.next)) block' ⟨c.pos, stop'.pos⟩, stop') := by
      intro block block' stop stop' hblock hstop
      refine ⟨?_, hstop⟩
      rw [StyleNode.shift_atRule, hprelude, hblock, h.span hstop]
    simp only [hrs.value, id]
    split
    · split
      · refine (apart_passBlock hbeyond hrs.next).bind fun b b' hb => .ok (hnode ?_ hb.2)
        rw [hb.1]
        rfl
      · refine (apart_readBlock hitems hrs.next).bind fun b b' hb => .ok (hnode ?_ hb.2)
        rw [hb.1]
        rfl
    · exact .ok (hnode rfl hrs.next.next)
    · exact .ok (hnode rfl hrs.next)

theorem apart_readItem {nested : Bool} :
    Apart n (NodeApart n) (readItem items' beyond' nested d) (readItem items beyond nested c) := by
  unfold readItem
  rw [h.rest]
  split
  · exact apart_readAtRule hitems hbeyond h
  · refine (apart_nextDelimiter hbeyond h).bind fun r s hrs => ?_
    simp only [hrs.value, id]
    split
    · refine (apart_readDeclaration hbeyond h).bind fun r s hrs => .ok ⟨?_, hrs.2⟩
      simp only [hrs.1]
      rfl
    · exact apart_readRule hitems hbeyond h

end Rules

/-- **Nodes are read alike wherever their text stands.** -/
theorem apart_readItemsF (fuel : Nat) (hbeyond : beyond' = some '*' ↔ beyond = some '*') :
    ItemsApart n (readItemsF beyond' fuel) (readItemsF beyond fuel) := by
  induction fuel with
  | zero =>
    intro nested c d h
    exact .error h.pos
  | succ fuel ih =>
    intro nested c d h
    refine (apart_passBlanks h).bind fun b b' hb => ?_
    simp only [hb.next.rest]
    split
    · split
      · exact .error hb.next.pos
      · exact .ok ⟨rfl, hb.next⟩
    · split
      · exact .ok ⟨rfl, hb.next⟩
      · exact .error hb.next.pos
    · exact ih nested _ _ hb.next.next
    · refine (apart_readItem ih hbeyond hb.next).bind fun r s hrs =>
        (ih nested _ _ hrs.2).bind fun rs ss hrest => .ok ⟨?_, hrest.2⟩
      rw [hrs.1, hrest.1]
      rfl

end Readers

/-! ### Stylesheets -/

/-- The outcome of reading a stylesheet from its text alone, as it is in a source that has the text
at `content`: all ranges of the nodes are moved, and so is the place of a refusal. -/
def placeSheet (content span : Span) : Except ParseError StyleSheet → Except ParseError StyleSheet
  | .ok sheet => .ok ⟨shiftNodes content.start sheet.children, content, span⟩
  | .error e => .error ⟨e.fault, e.offset + content.start⟩

/-- The range of a whole text. -/
def wholeOf (text : List Char) : Span := ⟨0, Text.byteLength text⟩

theorem slice_wholeOf (text : List Char) : Text.slice text (wholeOf text) = text := by
  have h := Text.takeBytes_byteLength_append text []
  rw [List.append_nil] at h
  rw [Text.slice, wholeOf, Text.dropBytes_zero, Nat.sub_zero, h]

theorem dropBytes_wholeOf (text : List Char) : Text.dropBytes (wholeOf text).stop text = [] := by
  have h := Text.dropBytes_byteLength_append text []
  rwa [List.append_nil] at h

/-- **A stylesheet in a source is read as its text on its own**, unless a `*` follows it. -/
theorem readStyleSheet_of_slice {source : List Char} {content : Span} (span own : Span)
    (hbeyond : (Text.dropBytes content.stop source).head? ≠ some '*') :
    readStyleSheet source content span =
      placeSheet content span (readStyleSheet (Text.slice source content)
        (wholeOf (Text.slice source content)) own) := by
  have hnone :
      (Text.dropBytes content.stop source).head? = some '*' ↔ (none : Option Char) = some '*' :=
    ⟨fun h => absurd h hbeyond, fun h => nomatch h⟩
  have hstart : Cursor.Apart content.start ⟨content.start, Text.slice source content⟩
      ⟨0, Text.slice source content⟩ := ⟨(Nat.zero_add _).symm, rfl⟩
  have hread := apart_readItemsF ((Text.slice source content).length + 1) hnone false _ _ hstart
  simp only [readStyleSheet, slice_wholeOf, dropBytes_wholeOf, List.head?_nil]
  show _ = placeSheet content span (readItemsF none _ false ⟨0, Text.slice source content⟩ >>= _)
  generalize readItemsF _ _ false ⟨content.start, Text.slice source content⟩ = placed at hread ⊢
  generalize readItemsF none _ false ⟨0, Text.slice source content⟩ = alone at hread ⊢
  cases hread with
  | error h =>
    rw [h]
    rfl
  | @ok r s h =>
    show Except.ok (StyleSheet.mk r.1 content span) =
      Except.ok ⟨shiftNodes content.start s.1, content, span⟩
    rw [h.1]

end CssRune
