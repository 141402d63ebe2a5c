/-
**Where readers stop.**

Every reader of the library takes a cursor and, if it succeeds, gives a later one.  This module
holds what is common to all proofs about them: how a successful reading is taken apart, what it
means that a piece of text stands at an offset of the source, and that one cursor leads to another.

* `bind_eq_ok_iff`, `map_eq_ok_iff` — successful readings taken apart;
* `Text.IsAt` — a piece of text stands at a byte offset, with the ways to cut it (`IsAt.left`,
  `IsAt.right`) and what it says about slices and boundaries (`IsAt.slice`, `IsAt.isBoundary`);
* `Cursor.Within` — what is left at a cursor stands at its offset;
* `Cursor.Leads` — a cursor that is reached by reading a piece of text, and `Cursor.Leads.within`,
  `Cursor.Leads.isAt`: it stays in the source, and so does the piece.
-/

import CssRune.Text.Cursor
import CssRune.Text.Quoted

set_option autoImplicit false

namespace CssRune

/-! ### Successful readings -/

section Outcomes

variable {ε ε' α β : Type}

variable {x : Except ε α} {f : α → Except ε β} {b : β} {a : α} {e : ε}

theorem bind_eq_ok_iff : x >>= f = .ok b ↔ ∃ a, x = .ok a ∧ f a = .ok b := by
  cases x with
  | error e => simp [bind, Except.bind]
  | ok a => simp [bind, Except.bind]

theorem map_eq_ok_iff {f : α → β} : x.map f = .ok b ↔ ∃ a, x = .ok a ∧ f a = b := by
  cases x with
  | error e => simp [Except.map]
  | ok a => simp [Except.map]

theorem functor_map_eq_ok_iff {f : α → β} :
    f <$> x = .ok b ↔ ∃ a, x = .ok a ∧ f a = b := map_eq_ok_iff

theorem mapError_eq_ok_iff {f : ε → ε'} : x.mapError f = .ok a ↔ x = .ok a := by
  cases x with
  | error e => exact ⟨fun h => (by cases h), fun h => (by cases h)⟩
  | ok b =>
    exact ⟨fun h => congrArg Except.ok (Except.ok.inj h),
      fun h => congrArg Except.ok (Except.ok.inj h)⟩

theorem mapError_eq_error_iff {f : ε → ε'} {e : ε'} :
    x.mapError f = .error e ↔ ∃ d, x = .error d ∧ f d = e := by
  cases x with
  | error d =>
    constructor
    · intro h
      exact ⟨d, rfl, Except.error.inj h⟩
    · rintro ⟨_, ⟨⟩, rfl⟩
      rfl
  | ok a => exact ⟨fun h => (by cases h), by rintro ⟨_, ⟨⟩, _⟩⟩

theorem bind_eq_error_iff :
    x >>= f = .error e ↔ x = .error e ∨ ∃ a, x = .ok a ∧ f a = .error e := by
  cases x with
  | error e => simp [bind, Except.bind]
  | ok a => simp [bind, Except.bind]

theorem toOption_eq_some_iff : x.toOption = some a ↔ x = .ok a := by
  cases x <;> simp [Except.toOption]

theorem pure_eq_ok_iff {b : α} : (pure a : Except ε α) = .ok b ↔ a = b := by
  simp [pure, Except.pure]

end Outcomes

/-! ### Pieces of text at an offset -/

namespace Text

/-- A piece of text stands in the source, from the byte offset `pos` on. -/
def IsAt (source : List Char) (pos : Nat) (piece : List Char) : Prop :=
  ∃ front back, source = front ++ (piece ++ back) ∧ byteLength front = pos

theorem isAt_self (source : List Char) : IsAt source 0 source := ⟨[], [], by simp, rfl⟩

variable {source xs ys cs text inner piece r : List Char} {pos : Nat}

theorem IsAt.left (h : IsAt source pos (xs ++ ys)) : IsAt source pos xs := by
  obtain ⟨front, back, rfl, hpos⟩ := h
  exact ⟨front, ys ++ back, by simp, hpos⟩

theorem IsAt.right (h : IsAt source pos (xs ++ ys)) : IsAt source (pos + byteLength xs) ys := by
  obtain ⟨front, back, rfl, rfl⟩ := h
  exact ⟨front ++ xs, back, by simp, by simp⟩

theorem IsAt.tail {c : Char} (h : IsAt source pos (c :: cs)) :
    IsAt source (pos + c.utf8Size) cs := by
  have happend : IsAt source pos ([c] ++ cs) := h
  simpa using happend.right

theorem IsAt.trans {offset k : Nat} (h : IsAt source offset text) (h' : IsAt text k inner) :
    IsAt source (offset + k) inner := by
  obtain ⟨front, back, rfl, rfl⟩ := h
  obtain ⟨front', back', rfl, rfl⟩ := h'
  exact ⟨front ++ front', back' ++ back, by simp, by simp⟩

theorem isAt_of_isPrefix (h : inner <+: text) : IsAt text 0 inner := by
  obtain ⟨back, rfl⟩ := h
  exact ⟨[], back, by simp, rfl⟩

theorem IsAt.slice (h : IsAt source pos piece) :
    Text.slice source ⟨pos, pos + byteLength piece⟩ = piece := by
  obtain ⟨front, back, rfl, rfl⟩ := h
  simp [Text.slice, dropBytes_byteLength_append, takeBytes_byteLength_append]

theorem IsAt.stop_le (h : IsAt source pos piece) : pos + byteLength piece ≤ byteLength source := by
  obtain ⟨front, back, rfl, rfl⟩ := h
  simp only [byteLength_append]
  omega

/-- A text can be cut after any front part of it. -/
theorem isBoundary_byteLength_append (xs ys : List Char) :
    isBoundary (byteLength xs) (xs ++ ys) = true := by
  induction xs with
  | nil => simp
  | cons c xs ih =>
    obtain ⟨k, hk⟩ : ∃ k, c.utf8Size = k + 1 :=
      ⟨c.utf8Size - 1, by have := c.utf8Size_pos; omega⟩
    have hsum : c.utf8Size + byteLength xs = (k + byteLength xs) + 1 := by omega
    have hdiff : (k + byteLength xs) + 1 - c.utf8Size = byteLength xs := by omega
    rw [byteLength_cons, hsum, List.cons_append, isBoundary, hdiff, ih, hk]
    simp

theorem IsAt.isBoundary (h : IsAt source pos piece) : Text.isBoundary pos source = true := by
  obtain ⟨front, back, rfl, rfl⟩ := h
  exact isBoundary_byteLength_append front _

theorem IsAt.nil_right (h : IsAt source pos piece) : IsAt source (pos + byteLength piece) [] := by
  have hnil : IsAt source pos (piece ++ []) := by rwa [List.append_nil]
  exact hnil.right

theorem byteLength_pos (h : cs ≠ []) : 0 < byteLength cs := by
  refine Nat.pos_of_ne_zero fun hz => h ?_
  exact byteLength_eq_zero.1 hz

theorem find_suffix (h : find piece cs = some r) : r <:+ cs := by
  induction cs with
  | nil =>
    rw [find] at h
    split at h
    · simp_all
    · simp at h
  | cons c cs ih =>
    rw [find] at h
    split at h
    · injection h with h
      exact h ▸ List.suffix_refl _
    · exact (ih h).trans (List.suffix_cons c cs)

theorem before_append_self {suffix : List Char} (h : suffix <:+ cs) :
    before cs suffix ++ suffix = cs := by
  obtain ⟨front, rfl⟩ := h
  rw [before_append]

theorem afterQuoted_suffix {quote : Char} (h : afterQuoted quote cs = some r) : r <:+ cs := by
  fun_induction afterQuoted quote cs with
  | case1 => simp at h
  | case2 => simp at h
  | case3 c cs ih => exact (ih h).trans ⟨['\\', c], rfl⟩
  | case4 cs =>
    injection h with h
    exact h ▸ List.suffix_cons _ _
  | case5 c cs _ _ ih => exact (ih h).trans (List.suffix_cons _ _)

theorem afterComment_suffix (h : afterComment cs = some r) : r <:+ cs := by
  fun_induction afterComment cs with
  | case1 => simp at h
  | case2 cs =>
    injection h with h
    exact h ▸ ⟨['*', '/'], rfl⟩
  | case3 c cs _ ih => exact (ih h).trans (List.suffix_cons _ _)

end Text

/-! ### Cursors -/

namespace Cursor

/-- What is left at the cursor stands at its offset in the source. -/
def Within (source : List Char) (c : Cursor) : Prop := Text.IsAt source c.pos c.rest

/-- The second cursor is reached from the first by reading a piece of text. -/
def Leads (c d : Cursor) : Prop :=
  ∃ piece, c.rest = piece ++ d.rest ∧ d.pos = c.pos + Text.byteLength piece

theorem within_start (source : List Char) : Within source ⟨0, source⟩ := Text.isAt_self source

variable {c : Cursor} {ch : Char} {rest after : List Char}

theorem upTo_of_append {d : Cursor} {piece : List Char} (h : c.rest = piece ++ d.rest) :
    c.upTo d = piece := by
  rw [upTo, h, Text.before_append]

namespace Leads

variable {c d e : Cursor} {source : List Char} (h : c.Leads d)

theorem refl (c : Cursor) : c.Leads c := ⟨[], rfl, rfl⟩

include h

theorem trans (h' : d.Leads e) : c.Leads e := by
  obtain ⟨xs, hxs, hpos⟩ := h
  obtain ⟨ys, hys, hpos'⟩ := h'
  refine ⟨xs ++ ys, by rw [hxs, hys, List.append_assoc], ?_⟩
  rw [hpos', hpos, Text.byteLength_append, Nat.add_assoc]

theorem pos_le : c.pos ≤ d.pos := by
  obtain ⟨xs, _, hpos⟩ := h
  omega

theorem end_eq : d.pos + Text.byteLength d.rest = c.pos + Text.byteLength c.rest := by
  obtain ⟨xs, hxs, hpos⟩ := h
  rw [hxs, hpos, Text.byteLength_append, Nat.add_assoc]

theorem length_le : d.length ≤ c.length := by
  obtain ⟨xs, hxs, _⟩ := h
  simp [length, hxs]

theorem rest_eq : c.rest = c.upTo d ++ d.rest := by
  obtain ⟨xs, hxs, _⟩ := h
  rw [upTo_of_append hxs, hxs]

theorem pos_eq : d.pos = c.pos + Text.byteLength (c.upTo d) := by
  obtain ⟨xs, hxs, hpos⟩ := h
  rw [upTo_of_append hxs, hpos]

theorem upTo_trans (h' : d.Leads e) : c.upTo e = c.upTo d ++ d.upTo e := by
  refine upTo_of_append ?_
  rw [List.append_assoc, ← h'.rest_eq, ← h.rest_eq]

theorem pos_lt (hl : d.length < c.length) : c.pos < d.pos := by
  have hne : c.upTo d ≠ [] := by
    intro hnil
    have := h.rest_eq
    rw [hnil, List.nil_append] at this
    simp [length, this] at hl
  have := Text.byteLength_pos hne
  rw [h.pos_eq]
  omega

theorem eq_of_length (hl : ¬d.length < c.length) : d = c := by
  obtain ⟨xs, hxs, hpos⟩ := h
  have hnil : xs = [] := by
    simp only [length, hxs, List.length_append] at hl
    exact List.length_eq_zero_iff.1 (by omega)
  subst hnil
  cases c
  cases d
  simp_all

theorem within (hc : c.Within source) : d.Within source := by
  rw [Within, h.rest_eq] at hc
  rw [Within, h.pos_eq]
  exact hc.right

theorem isAt (hc : c.Within source) : Text.IsAt source c.pos (c.upTo d) := by
  rw [Within, h.rest_eq] at hc
  exact hc.left

theorem slice (hc : c.Within source) : Text.slice source ⟨c.pos, d.pos⟩ = c.upTo d := by
  rw [h.pos_eq]
  exact (h.isAt hc).slice

end Leads

theorem leads_moveTo {suffix : List Char} (h : suffix <:+ c.rest) : c.Leads (c.moveTo suffix) := by
  obtain ⟨piece, hp⟩ := h
  exact ⟨piece, hp.symm, pos_moveTo hp.symm⟩

theorem leads_moveTo_cons (h : c.rest = ch :: rest) :
    c.Leads (c.moveTo rest) := leads_moveTo (h ▸ List.suffix_cons ch rest)

theorem leads_moveTo_comment (h : c.rest = ch :: rest)
    (hr : Text.afterComment (rest.drop 1) = some after) : c.Leads (c.moveTo after) :=
  leads_moveTo (h ▸ ((Text.afterComment_suffix hr).trans (List.drop_suffix 1 rest)).trans
    (List.suffix_cons ch rest))

theorem leads_moveTo_quoted {quote : Char} (h : c.rest = ch :: rest)
    (hr : Text.afterQuoted quote rest = some after) : c.Leads (c.moveTo after) :=
  leads_moveTo (h ▸ (Text.afterQuoted_suffix hr).trans (List.suffix_cons ch rest))

theorem pos_moveTo_cons (h : c.rest = ch :: rest) : (c.moveTo rest).pos = c.pos + ch.utf8Size := by
  have hcons : c.rest = [ch] ++ rest := h
  simpa using pos_moveTo hcons

theorem upTo_moveTo_cons (h : c.rest = ch :: rest) :
    c.upTo (c.moveTo rest) = [ch] := upTo_of_append h

theorem leads_next (c : Cursor) : c.Leads c.next := by
  unfold next
  split
  · exact Leads.refl c
  · rename_i ch rest h
    exact ⟨[ch], h, by simp⟩

theorem pos_next_cons (h : c.rest = ch :: rest) : c.next.pos = c.pos + ch.utf8Size := by
  obtain ⟨pos, text⟩ := c
  subst h
  rfl

theorem leads_skip (c : Cursor) (n : Nat) : c.Leads (c.skip n) :=
  ⟨c.rest.take n, (List.take_append_drop n c.rest).symm, rfl⟩

theorem leads_skipSpace (c : Cursor) : c.Leads c.skipSpace :=
  leads_moveTo (List.dropWhile_suffix Text.isSpace)

end Cursor

end CssRune
