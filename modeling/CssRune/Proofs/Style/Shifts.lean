/-
**Reading the same text in another place.**

Nothing a reader of selectors does depends on where its text stands: read `n` bytes further on, the
same text gives the same tree with all ranges moved by `n` bytes, or is refused in the same way at
an offset that is `n` bytes further on.

Main definition:

* `Apart` — **outcomes of reading the same text in two places**.

Main results:

* `Apart.bind` — readers one after the other;
* `apart_passBlanks`, `apart_readSimple`, `apart_readRelatives` — one lemma for each reader;
* `apart_readSelectorList` — **selector lists are read alike everywhere**.
-/

import CssRune.Proofs.Reading
import CssRune.Style.Selector.Reader

set_option autoImplicit false

namespace CssRune

/-! ### Selectors in another place -/

/-- A combinator in another place. -/
def Combinator.shift (n : Nat) (k : Combinator) : Combinator := ⟨k.kind, k.span.shift n⟩

mutual

/-- A simple selector with its ranges moved. -/
def SimpleSelector.shift (n : Nat) : SimpleSelector → SimpleSelector
  | .named kind name span => .named kind name (span.shift n)
  | .nesting span => .nesting (span.shift n)
  | .pseudoClass name none span => .pseudoClass name none (span.shift n)
  | .pseudoClass name (some args) span => .pseudoClass name (some (args.shift n)) (span.shift n)
termination_by structural s => s

/-- A selector list with its ranges moved. -/
def ListOf.shift (n : Nat) : ListOf SimpleSelector → ListOf SimpleSelector
  | ⟨children, span⟩ => ⟨shiftComplexes n children, span.shift n⟩
termination_by structural s => s

/-- Complex selectors with their ranges moved. -/
def shiftComplexes (n : Nat) : List (ComplexOf SimpleSelector) → List (ComplexOf SimpleSelector)
  | [] => []
  | c :: cs => c.shift n :: shiftComplexes n cs
termination_by structural s => s

/-- A complex selector with its ranges moved. -/
def ComplexOf.shift (n : Nat) : ComplexOf SimpleSelector → ComplexOf SimpleSelector
  | ⟨children, span⟩ => ⟨shiftRelatives n children, span.shift n⟩
termination_by structural s => s

/-- Relative selectors with their ranges moved. -/
def shiftRelatives (n : Nat) : List (RelativeOf SimpleSelector) → List (RelativeOf SimpleSelector)
  | [] => []
  | r :: rs => r.shift n :: shiftRelatives n rs
termination_by structural s => s

/-- A relative selector with its ranges moved. -/
def RelativeOf.shift (n : Nat) : RelativeOf SimpleSelector → RelativeOf SimpleSelector
  | ⟨combinator, selectors, span⟩ =>
    ⟨combinator.map (Combinator.shift n), shiftSimples n selectors, span.shift n⟩
termination_by structural s => s

/-- Simple selectors with their ranges moved. -/
def shiftSimples (n : Nat) : List SimpleSelector → List SimpleSelector
  | [] => []
  | s :: ss => s.shift n :: shiftSimples n ss
termination_by structural s => s

end

theorem SimpleSelector.shift_pseudoClass (n : Nat) (name : String) (args : Option SelectorList)
    (span : Span) : (SimpleSelector.pseudoClass name args span).shift n =
      .pseudoClass name (args.map (ListOf.shift n)) (span.shift n) := by
  cases args with
  | none => rfl
  | some args => rfl

theorem RelativeOf.span_shift (n : Nat) (r : RelativeSelector) :
    (r.shift n).span = r.span.shift n := by
  cases r
  rfl

theorem ComplexOf.span_shift (n : Nat) (c : ComplexSelector) :
    (c.shift n).span = c.span.shift n := by
  cases c
  rfl

theorem getLast?_shiftRelatives (n : Nat) (rs : List RelativeSelector) :
    (shiftRelatives n rs).getLast? = rs.getLast?.map (RelativeOf.shift n) := by
  induction rs with
  | nil => rfl
  | cons r rs ih =>
    rw [shiftRelatives, List.getLast?_cons, List.getLast?_cons, ih]
    cases rs.getLast? <;> rfl

theorem getLast?_shiftComplexes (n : Nat) (cs : List ComplexSelector) :
    (shiftComplexes n cs).getLast? = cs.getLast?.map (ComplexOf.shift n) := by
  induction cs with
  | nil => rfl
  | cons c cs ih =>
    rw [shiftComplexes, List.getLast?_cons, List.getLast?_cons, ih]
    cases cs.getLast? <;> rfl

/-! ### Cursors in two places -/

/-- The same text is left at two cursors, of which the first is `n` bytes after the second. -/
structure Cursor.Apart (n : Nat) (d c : Cursor) : Prop where
  pos : d.pos = c.pos + n
  rest : d.rest = c.rest

namespace Cursor.Apart

variable {n : Nat} {c d c' d' : Cursor} (h : d.Apart n c)

include h

theorem eq : d = ⟨c.pos + n, c.rest⟩ := by
  rw [← h.pos, ← h.rest]

theorem length : d.length = c.length := congrArg List.length h.rest

theorem upTo (h' : d'.Apart n c') : d.upTo d' = c.upTo c' := by
  rw [Cursor.upTo, Cursor.upTo, h.rest, h'.rest]

theorem moveTo (suffix : List Char) : (d.moveTo suffix).Apart n (c.moveTo suffix) := by
  refine ⟨?_, rfl⟩
  simp only [Cursor.moveTo, h.pos, h.rest, Nat.add_right_comm]

theorem skip (k : Nat) : (d.skip k).Apart n (c.skip k) := by
  refine ⟨?_, ?_⟩
  · simp only [Cursor.skip, h.pos, h.rest, Nat.add_right_comm]
  · simp only [Cursor.skip, h.rest]

theorem next : d.next.Apart n c.next := by
  obtain ⟨pos, rest⟩ := c
  obtain rfl : d = ⟨pos + n, rest⟩ := h.eq
  cases rest with
  | nil => exact ⟨rfl, rfl⟩
  | cons ch rest => exact ⟨Nat.add_right_comm .., rfl⟩

theorem span (h' : d'.Apart n c') : (⟨d.pos, d'.pos⟩ : Span) = Span.shift ⟨c.pos, c'.pos⟩ n := by
  rw [h.pos, h'.pos]
  rfl

end Cursor.Apart

/-! ### Outcomes in two places -/

/-- Outcomes of reading the same text in two places, the first `n` bytes after the second: the same
refusal at offsets `n` bytes apart, or results that are related. -/
inductive Apart (n : Nat) {α β : Type} (R : α → β → Prop) :
    Except ParseError α → Except ParseError β → Prop where
  | error {fault : SyntaxFault} {offset offset' : Nat} (h : offset' = offset + n) :
      Apart n R (.error ⟨fault, offset'⟩) (.error ⟨fault, offset⟩)
  | ok {a : α} {b : β} (h : R a b) : Apart n R (.ok a) (.ok b)

/-- Two values read in two places, the first one moved by `f`, and where reading them ended. -/
structure Pace.Apart {α : Type} (n : Nat) (f : α → α) {c d : Cursor} (p : Pace α d)
    (q : Pace α c) : Prop where
  value : p.value = f q.value
  next : p.next.Apart n q.next

/-- Two values read in two places, the first one moved by `f`, and where reading them ended. -/
structure Step.Apart {α : Type} (n : Nat) (f : α → α) {c d : Cursor} (s : Step α d)
    (t : Step α c) : Prop where
  value : s.value = f t.value
  next : s.next.Apart n t.next

/-- Both are missing, or both are there and related. -/
inductive BothOrNone {α β : Type} (R : α → β → Prop) : Option α → Option β → Prop where
  | none : BothOrNone R none none
  | some {a : α} {b : β} (h : R a b) : BothOrNone R (some a) (some b)

section Outcomes

variable {n : Nat} {α β γ δ : Type} {R : α → β → Prop} {S : γ → δ → Prop}
  {x : Except ParseError α} {y : Except ParseError β}

/-- **Readers one after the other.** -/
theorem Apart.bind {f : α → Except ParseError γ} {g : β → Except ParseError δ} (h : Apart n R x y)
    (hstep : ∀ a b, R a b → Apart n S (f a) (g b)) : Apart n S (x >>= f) (y >>= g) := by
  cases h with
  | error h => exact .error h
  | ok h => exact hstep _ _ h

theorem Apart.map {f : α → γ} {g : β → δ} (h : Apart n R x y)
    (hresult : ∀ a b, R a b → S (f a) (g b)) : Apart n S (x.map f) (y.map g) := by
  cases h with
  | error h => exact .error h
  | ok h => exact .ok (hresult _ _ h)

end Outcomes

section Readers

variable {n : Nat} {c d : Cursor}

/-! ### Blanks, identifiers, brackets and combinators -/

section Tokens

variable (h : d.Apart n c)

include h

theorem apart_passBlanks : Apart n (Pace.Apart n id) (passBlanks d) (passBlanks c) := by
  induction hk : c.length using Nat.strongRecOn generalizing c d with
  | ind k ih =>
    subst hk
    obtain ⟨pos, rest⟩ := c
    obtain rfl : d = ⟨pos + n, rest⟩ := h.eq
    rw [passBlanks.eq_1 ⟨pos + n, rest⟩, passBlanks.eq_1 ⟨pos, rest⟩]
    cases rest with
    | nil => exact .ok ⟨rfl, h⟩
    | cons ch rest =>
      simp only []
      split
      · exact (ih _ (Cursor.length_next_of_cons rfl) h.next rfl).bind fun _ _ hr =>
          .ok ⟨hr.value, hr.next⟩
      · split
        · split
          · exact .error rfl
          · rename_i after hr
            exact (ih _ (length_moveTo_comment rfl hr) (h.moveTo after) rfl).bind fun _ _ hr =>
              .ok ⟨hr.value, hr.next⟩
        · exact .ok ⟨rfl, h⟩

theorem apart_readIdent : Apart n (Step.Apart n id) (readIdent d) (readIdent c) := by
  obtain ⟨pos, rest⟩ := c
  obtain rfl : d = ⟨pos + n, rest⟩ := h.eq
  simp only [readIdent]
  by_cases hshort : (Cursor.moveTo ⟨pos, rest⟩ (afterIdent rest)).length < Cursor.length ⟨pos, rest⟩
  · rw [dif_pos hshort, dif_pos (by simpa [Cursor.length] using hshort)]
    exact .ok ⟨by simp [Cursor.upTo], h.moveTo _⟩
  · rw [dif_neg hshort, dif_neg (by simpa [Cursor.length] using hshort)]
    exact .error rfl

theorem apart_closingBracket {open_ close : Char} {depth : Nat} :
    Apart n (BothOrNone (Step.Apart n id)) (closingBracket open_ close depth d)
      (closingBracket open_ close depth c) := by
  induction hk : c.length using Nat.strongRecOn generalizing depth c d with
  | ind k ih =>
    subst hk
    obtain ⟨pos, rest⟩ := c
    obtain rfl : d = ⟨pos + n, rest⟩ := h.eq
    rw [closingBracket.eq_1 open_ close depth ⟨pos + n, rest⟩,
      closingBracket.eq_1 open_ close depth ⟨pos, rest⟩]
    cases rest with
    | nil => exact .ok .none
    | cons ch rest =>
      simp only []
      split
      · split
        · exact .error rfl
        · rename_i after hr
          refine (ih _ (length_moveTo_quoted rfl hr) (h.moveTo after) rfl).bind fun _ _ hr => ?_
          cases hr with
          | none => exact .ok .none
          | some hr => exact .ok (.some ⟨hr.value, hr.next⟩)
      · split
        · exact .ok (.some ⟨rfl, h.moveTo rest⟩)
        · refine (ih _ (Cursor.length_next_of_cons rfl) h.next rfl).bind fun _ _ hr => ?_
          cases hr with
          | none => exact .ok .none
          | some hr => exact .ok (.some ⟨hr.value, hr.next⟩)

theorem apart_readMarked {kind : NamedKind} {size : Nat} :
    Apart n (Step.Apart n (SimpleSelector.shift n)) (readMarked kind d size)
      (readMarked kind c size) := by
  refine (apart_readIdent (h.skip size)).bind fun s t hst => .ok ⟨?_, hst.next⟩
  show SimpleSelector.named kind s.value _ = SimpleSelector.named kind t.value _
  rw [hst.value, h.span hst.next]
  rfl

/-- The texts of two pairs of brackets. -/
theorem apart_readParens :
    Apart n (BothOrNone fun s t => s.value.Apart n t.value ∧ s.next.Apart n t.next)
      (readParens d) (readParens c) := by
  obtain ⟨pos, rest⟩ := c
  obtain rfl : d = ⟨pos + n, rest⟩ := h.eq
  by_cases hopen : ∃ tail, rest = '(' :: tail
  · obtain ⟨tail, rfl⟩ := hopen
    simp only [readParens]
    refine (apart_closingBracket (h.moveTo tail)).bind fun s t hst => ?_
    cases hst with
    | none => exact .error rfl
    | some hst =>
      refine .ok (.some ⟨⟨Nat.add_right_comm .., ?_⟩, hst.next⟩)
      show (Cursor.upTo _ _).dropLast = (Cursor.upTo _ _).dropLast
      rw [(h.moveTo tail).upTo hst.next]
  · have hnone : ∀ pos, readParens ⟨pos, rest⟩ = .ok none := by
      intro pos
      unfold readParens
      split
      · rename_i tail htail
        exact absurd ⟨tail, htail⟩ hopen
      · rfl
    rw [hnone, hnone]
    exact .ok .none

theorem apart_readCombinator {isFirst : Bool} {gap : Nat} :
    (readCombinator isFirst (gap + n) d).Apart n (Option.map (Combinator.shift n))
      (readCombinator isFirst gap c) := by
  obtain ⟨pos, rest⟩ := c
  obtain rfl : d = ⟨pos + n, rest⟩ := h.eq
  rw [readCombinator.eq_def isFirst (gap + n) ⟨pos + n, rest⟩]
  split
  case h_5 =>
    simp only [readCombinator, Nat.add_lt_add_iff_right]
    split
    · exact ⟨rfl, h⟩
    · exact ⟨rfl, h⟩
  all_goals
    rename_i hrest
    cases hrest
    exact ⟨congrArg (fun stop => some (Combinator.mk _ ⟨pos + n, stop⟩)) (Nat.add_right_comm ..),
      h.moveTo _⟩

end Tokens

/-! ### Simple selectors and compounds -/

variable {args : Cursor → Except ParseError SelectorList} {beyond : Option Char}

/-- A reader of arguments reads them alike everywhere. -/
def ArgsApart (n : Nat) (args : Cursor → Except ParseError SelectorList) : Prop :=
  ∀ c d : Cursor, d.Apart n c → Apart n (fun l l' => l = l'.shift n) (args d) (args c)

section Selectors

variable (hargs : ArgsApart n args) (h : d.Apart n c)

include hargs h

theorem apart_readSimple :
    Apart n (BothOrNone (Step.Apart n (SimpleSelector.shift n))) (readSimple args beyond d)
      (readSimple args beyond c) := by
  have hmarked : ∀ kind size, Apart n (BothOrNone (Step.Apart n (SimpleSelector.shift n)))
      (some <$> readMarked kind d size) (some <$> readMarked kind c size) :=
    fun kind size => (apart_readMarked h).map fun _ _ hr => .some hr
  obtain ⟨pos, rest⟩ := c
  obtain rfl : d = ⟨pos + n, rest⟩ := h.eq
  rw [readSimple.eq_def args beyond ⟨pos + n, rest⟩]
  split
  all_goals rename_i hrest; cases hrest
  · exact hmarked .class_ 1
  · exact hmarked .id 1
  case h_3.refl tail =>
    simp only [readSimple]
    refine (apart_closingBracket (h.moveTo tail)).bind fun s t hst => ?_
    cases hst with
    | none => exact .error rfl
    | some hst =>
      refine .ok (.some ⟨?_, hst.next⟩)
      simp only [(h.moveTo tail).upTo hst.next, hst.next.pos]
      rfl
  case h_4.refl tail =>
    simp only [readSimple]
    refine (apart_readMarked h).bind fun r t hrt => ?_
    refine (apart_readParens hrt.next).bind fun p q hpq => ?_
    cases hpq with
    | none => exact .ok (.some hrt)
    | some hpq =>
      refine .ok (.some ⟨?_, hpq.2⟩)
      simp only [hrt.value, hpq.2.pos]
      cases t.value with
      | named => rfl
      | pseudoClass name list => cases list <;> rfl
      | nesting => rfl
  case h_5.refl tail _ =>
    simp only [readSimple]
    split
    · exact .error (Nat.add_right_comm ..)
    · refine (apart_readIdent (h.moveTo tail)).bind fun r t hrt =>
        (apart_readParens hrt.next).bind fun p q hpq => ?_
      cases hpq with
      | none =>
        refine .ok (.some ⟨?_, hrt.next⟩)
        simp only [hrt.value, hrt.next.pos]
        rfl
      | @some p q hpq =>
        have hlist : Apart n (fun l l' => l = l'.map (ListOf.shift n)) (some <$> args p.value)
            (some <$> args q.value) := (hargs _ _ hpq.1).map fun _ _ hl => congrArg some hl
        simp only [hrt.value, id]
        split
        · refine hlist.bind fun l l' hl => .ok (.some ⟨?_, hpq.2⟩)
          simp only [hpq.2.pos, hl]
          rw [SimpleSelector.shift_pseudoClass]
          rfl
        · refine .ok (.some ⟨?_, hpq.2⟩)
          simp only [hpq.2.pos]
          rfl
  · refine .ok (.some ⟨?_, h.moveTo _⟩)
    simp only [Nat.add_right_comm pos n 1]
    rfl
  · refine .ok (.some ⟨?_, h.moveTo _⟩)
    simp only [Nat.add_right_comm pos n 1]
    rfl
  · simp only [readSimple]
    split
    · exact hmarked .type 0
    · exact .ok .none
  · exact .ok .none

theorem apart_readCompound : Apart n (Pace.Apart n (shiftSimples n)) (readCompound args beyond d)
      (readCompound args beyond c) := by
  induction hk : c.length using Nat.strongRecOn generalizing c d with
  | ind k ih =>
    subst hk
    rw [readCompound.eq_1 args beyond d, readCompound.eq_1 args beyond c]
    refine (apart_readSimple hargs h).bind fun s t hst => ?_
    cases hst with
    | none => exact .ok ⟨rfl, h⟩
    | @some s t hst =>
      refine (ih _ t.shorter hst.next rfl).bind fun r r' hr => .ok ⟨?_, hr.next⟩
      simp only [hst.value, hr.value, shiftSimples]

/-! ### Complex selectors and lists -/

theorem apart_readRelative {isFirst : Bool} {gap : Nat} :
    Apart n (Step.Apart n (RelativeOf.shift n)) (readRelative args beyond isFirst (gap + n) d)
      (readRelative args beyond isFirst gap c) := by
  have hcomb : (readCombinator isFirst (gap + n) d).Apart n (Option.map (Combinator.shift n))
      (readCombinator isFirst gap c) := apart_readCombinator h
  have hnone : (readCombinator isFirst (gap + n) d).value.isNone =
      (readCombinator isFirst gap c).value.isNone := by
    rw [hcomb.value, Option.isNone_map]
  simp only [readRelative, h.rest, hnone]
  split
  · exact .error (by rw [h.pos, Nat.add_right_comm])
  · split
    · exact .error h.pos
    · refine (apart_passBlanks hcomb.next).bind fun b b' hb =>
        (apart_readCompound hargs hb.next).bind fun r r' hr => ?_
      by_cases hshort : r'.next.length < b'.next.length
      · rw [dif_pos hshort, dif_pos (by rwa [hr.next.length, hb.next.length])]
        refine .ok ⟨?_, hr.next⟩
        simp only [hcomb.value, hr.value, hb.next.pos, hr.next.pos]
        cases (readCombinator isFirst gap c).value <;> rfl
      · rw [dif_neg hshort, dif_neg (by rwa [hr.next.length, hb.next.length])]
        exact .error hr.next.pos

theorem apart_readRelatives {isFirst : Bool} :
    Apart n (Pace.Apart n (shiftRelatives n)) (readRelatives args beyond isFirst d)
      (readRelatives args beyond isFirst c) := by
  induction hk : c.length using Nat.strongRecOn generalizing isFirst c d with
  | ind k ih =>
    subst hk
    rw [readRelatives.eq_1 args beyond isFirst d, readRelatives.eq_1 args beyond isFirst c]
    refine (apart_passBlanks h).bind fun b b' hb => ?_
    rw [hb.next.rest]
    split
    · exact .ok ⟨rfl, hb.next⟩
    · exact .ok ⟨rfl, hb.next⟩
    · rw [h.pos]
      refine (apart_readRelative hargs hb.next).bind fun r r' hr =>
        (ih _ (Nat.lt_of_lt_of_le r'.shorter b'.noLonger) hr.next rfl).bind fun rs rs' hrs =>
          .ok ⟨?_, hrs.next⟩
      simp only [hr.value, hrs.value, shiftRelatives]

theorem apart_readComplex : Apart n (Pace.Apart n (ComplexOf.shift n)) (readComplex args beyond d)
      (readComplex args beyond c) := by
  refine (apart_passBlanks h).bind fun b b' hb =>
    (apart_readRelatives hargs hb.next).bind fun rs rs' hrs => ?_
  rw [hrs.value, getLast?_shiftRelatives]
  cases rs'.value.getLast? with
  | none => exact .error hrs.next.pos
  | some last =>
    refine .ok ⟨?_, hrs.next⟩
    simp only [hb.next.pos, RelativeOf.span_shift]
    rfl

theorem apart_readComplexes :
    Apart n (Pace.Apart n (shiftComplexes n)) (readComplexes args beyond d)
      (readComplexes args beyond c) := by
  induction hk : c.length using Nat.strongRecOn generalizing c d with
  | ind k ih =>
    subst hk
    rw [readComplexes.eq_1 args beyond d, readComplexes.eq_1 args beyond c]
    refine (apart_readComplex hargs h).bind fun x x' hx =>
      (apart_passBlanks hx.next).bind fun b b' hb => ?_
    obtain ⟨_, ⟨pos, rest⟩, hle⟩ := b'
    obtain ⟨_, next, _⟩ := b
    obtain rfl : next = ⟨pos + n, rest⟩ := hb.next.eq
    split
    · rename_i tail hrest
      cases hrest
      simp only []
      have hlt : (Cursor.moveTo ⟨pos, ',' :: tail⟩ tail).length < c.length :=
        Nat.lt_of_lt_of_le (Cursor.length_moveTo_lt rfl) (Nat.le_trans hle x'.noLonger)
      refine (ih _ hlt (hb.next.moveTo tail) rfl).bind fun r r' hr => .ok ⟨?_, hr.next⟩
      simp only [hx.value, hr.value, shiftComplexes]
    · refine .ok ⟨?_, hb.next⟩
      simp only [hx.value, shiftComplexes]

end Selectors

theorem apart_readSelectorListF (depth : Nat) (h : d.Apart n c) :
    Apart n (fun l l' => l = l'.shift n) (readSelectorListF depth beyond d)
      (readSelectorListF depth beyond c) := by
  induction depth generalizing beyond c d with
  | zero => exact .error h.pos
  | succ depth ih =>
    refine (apart_passBlanks h).bind fun b b' hb =>
      (apart_readComplexes (fun _ _ h => ih h) hb.next).bind fun cs cs' hcs => ?_
    rw [hcs.next.rest, hcs.value, getLast?_shiftComplexes]
    cases cs'.next.rest with
    | nil =>
      refine .ok ?_
      simp only [hb.next.pos]
      cases cs'.value.getLast? with
      | none => rfl
      | some last =>
        simp only [Option.map_some, Option.getD_some, ComplexOf.span_shift]
        rfl
    | cons => exact .error hcs.next.pos

/-- **A selector list is read alike wherever its text stands.** -/
theorem apart_readSelectorList (h : d.Apart n c) :
    Apart n (fun l l' => l = l'.shift n) (readSelectorList beyond d)
      (readSelectorList beyond c) := by
  rw [readSelectorList, readSelectorList, h.length]
  exact apart_readSelectorListF _ h

end Readers

end CssRune
