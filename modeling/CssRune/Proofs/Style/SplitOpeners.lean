/-
**Comment openers cut in two.**

A stylesheet is a range of a source.  When the range ends in a slash and a star follows it, a
comment opener is cut in two: the search for a delimiter takes the slash for the start of a comment,
and cannot pass it.  Whether the search ever comes to that slash is seen from the range that is one
byte longer: there the slash and the star are a comment without an end, and the search that comes to
it is refused.  The two ranges are read side by side here, and they are at the same place until one
of them has to stop.

Main results:

* `cut_delimiterFrom`, `cut_passBlanks` — the loops over characters;
* `cut_readRule`, `cut_readAtRule`, `cut_readItem` — one lemma for each reader of nodes;
* `cut_readItemsF` — **the two texts are read side by side to the end**;
* `readStyleSheet_returns_iff` — **when reading a range of a source comes to an end**.
-/

import CssRune.Proofs.Style.Rounds

set_option autoImplicit false

namespace CssRune

open Text

/-! ### A star after a text -/

namespace Text

/-- A star after a text does not close a string in it. -/
theorem afterQuoted_append_star {quote : Char} (hquote : quote ≠ '*') (cs : List Char) :
    afterQuoted quote (cs ++ ['*']) = (afterQuoted quote cs).map (· ++ ['*']) := by
  fun_induction afterQuoted quote cs with
  | case1 => simp [afterQuoted, hquote.symm]
  | case2 => simp [afterQuoted]
  | case3 ch cs ih => rw [← ih]; simp [afterQuoted]
  | case4 cs hescape => simp [afterQuoted]
  | case5 ch cs hescape hch ih => rw [← ih]; simp [afterQuoted, hch]

/-- A star after a text does not close a comment in it. -/
theorem afterComment_append_star (cs : List Char) :
    afterComment (cs ++ ['*']) = (afterComment cs).map (· ++ ['*']) := by
  fun_induction afterComment cs with
  | case1 => simp [afterComment]
  | case2 cs => simp [afterComment]
  | case3 ch cs hclose ih =>
    have hopen : ∀ more, ch = '*' → cs ++ ['*'] ≠ '/' :: more := by
      intro more hch hmore
      cases cs with
      | nil => cases hmore
      | cons next cs => exact hclose cs hch (by rw [(List.cons.inj hmore).1])
    rw [← ih, List.cons_append, afterComment]
    exact hopen

/-- A star after a text is not taken along with what the text starts with. -/
theorem takeWhile_append_star {p : Char → Bool} {cs : List Char}
    (h : p '*' = false ∨ ∃ ch ∈ cs, p ch = false) :
    (cs ++ ['*']).takeWhile p = cs.takeWhile p := by
  induction cs with
  | nil =>
    rcases h with h | ⟨ch, hmem, _⟩
    · simp [h]
    · cases hmem
  | cons ch cs ih =>
    rw [List.cons_append, List.takeWhile_cons, List.takeWhile_cons]
    split
    · rename_i hch
      rw [ih]
      refine h.imp_right ?_
      rintro ⟨ch', hmem, hch'⟩
      rcases List.mem_cons.1 hmem with rfl | hmem
      · rw [hch] at hch'
        cases hch'
      · exact ⟨ch', hmem, hch'⟩
    · rfl

end Text

/-- The same place of two texts, of which the first has one character more, a star at its end.  The
second text ends at the offset `stop`, with the character `last`. -/
structure Starred (last : Char) (stop : Nat) (d c : Cursor) : Prop where
  pos : d.pos = c.pos
  rest : d.rest = c.rest ++ ['*']
  stop : c.pos + Text.byteLength c.rest = stop
  last : ∀ ch ∈ c.rest.getLast?, ch = last

/-- The same place of the two texts, or the ends of both. -/
def Beside (last : Char) (stop : Nat) (d c : Cursor) : Prop :=
  Starred last stop d c ∨ c.rest = [] ∧ d.rest = []

section Cursors

variable {last ch : Char} {stop : Nat} {c d c' d' : Cursor} {rest after : List Char}

section Moves

variable (h : Starred last stop d c)

include h

theorem Starred.of_leads (hleads : c.Leads c') (hpos : d'.pos = c'.pos)
    (hrest : d'.rest = c'.rest ++ ['*']) : Starred last stop d' c' := by
  refine ⟨hpos, hrest, ?_, fun ch hch => h.last ch ?_⟩
  · rw [← h.stop]
    exact hleads.end_eq
  · rw [hleads.rest_eq, List.getLast?_append, hch]
    rfl

theorem Starred.moveTo (hleads : c.Leads (c.moveTo after)) :
    Starred last stop (d.moveTo (after ++ ['*'])) (c.moveTo after) := by
  obtain ⟨piece, hpiece, hpos⟩ := hleads
  have hrest : d.rest = piece ++ (after ++ ['*']) := by
    rw [h.rest, hpiece, List.append_assoc]
    rfl
  refine h.of_leads ⟨piece, hpiece, hpos⟩ ?_ rfl
  rw [hpos, Cursor.pos_moveTo hrest, h.pos]

theorem Starred.skip {n : Nat} (hn : n ≤ c.rest.length) :
    Starred last stop (d.skip n) (c.skip n) := by
  refine h.of_leads (c.leads_skip n) ?_ ?_
  · rw [Cursor.skip, Cursor.skip, h.pos, h.rest, List.take_append_of_le_length hn]
  · rw [Cursor.skip, Cursor.skip, h.rest, List.drop_append_of_le_length hn]

theorem Starred.rest_cons (hc : c.rest = ch :: rest) : d.rest = ch :: (rest ++ ['*']) := by
  rw [h.rest, hc, List.cons_append]

theorem Starred.next (hc : c.rest = ch :: rest) : Starred last stop d.next c.next := by
  refine h.of_leads c.leads_next ?_ ?_
  · rw [Cursor.pos_next_cons hc, Cursor.pos_next_cons (h.rest_cons hc), h.pos]
  · rw [Cursor.rest_next hc, Cursor.rest_next (h.rest_cons hc)]

theorem Starred.upTo (h' : Starred last stop d' c') : d.upTo d' = c.upTo c' := by
  rw [Cursor.upTo, Cursor.upTo, h.rest, h'.rest, before, before]
  simp only [List.length_append, List.length_cons, List.length_nil, Nat.zero_add,
    Nat.add_sub_add_right]
  exact List.take_append_of_le_length (Nat.sub_le ..)

end Moves

theorem Cursor.rest_next_of_nil (h : c.rest = []) : c.next.rest = [] := by
  obtain ⟨pos, text⟩ := c
  subst h
  rfl

theorem Beside.next (h : Beside last stop d c) : Beside last stop d.next c.next := by
  rcases h with h | ⟨hc, hd⟩
  · cases hc : c.rest with
    | cons ch rest => exact .inl (h.next hc)
    | nil =>
      have hd : d.rest = '*' :: [] := by rw [h.rest, hc, List.nil_append]
      exact .inr ⟨Cursor.rest_next_of_nil hc, Cursor.rest_next hd⟩
  · exact .inr ⟨Cursor.rest_next_of_nil hc, Cursor.rest_next_of_nil hd⟩

theorem Beside.starred (h : Beside last stop d c) (hc : c.rest ≠ []) : Starred last stop d c :=
  h.resolve_right fun hnil => hc hnil.1

end Cursors

/-! ### Outcomes -/

/-- A refusal is no comment left open that starts one byte before `stop`, where a slash stands. -/
def Elsewhere (last : Char) (stop : Nat) (e : ParseError) : Prop :=
  last = '/' → e.fault = .unterminatedComment → e.offset + 1 ≠ stop

/-- Outcomes of reading the text with a star after it and the text without.  Both are refused at the
slash that the text ends with, the first for a comment left open and the second for want of moving
on; or neither is, and if the second has read something then so has the first, unless the end is
allowed to come for the second before the star is read (`early`). -/
inductive Cut (last : Char) (stop : Nat) (early : Prop) {α β : Type} (R : α → β → Prop) :
    Except ParseError α → Except ParseError β → Prop where
  | caught {offset : Nat} (hlast : last = '/') (hstop : offset + 1 = stop) :
      Cut last stop early R (.error ⟨.unterminatedComment, offset⟩) (.error ⟨.stalled, offset⟩)
  | refused {e e' : ParseError} (he' : Elsewhere last stop e') (he : e.fault ≠ .stalled) :
      Cut last stop early R (.error e') (.error e)
  | ok {a : α} {b : β} (h : R a b) : Cut last stop early R (.ok a) (.ok b)
  | ended {e' : ParseError} {b : β} (hearly : early) (he' : Elsewhere last stop e') :
      Cut last stop early R (.error e') (.ok b)

section Outcomes

variable {last : Char} {stop : Nat} {early : Prop} {α β γ δ : Type} {R : α → β → Prop}
  {S : γ → δ → Prop} {x : Except ParseError α} {y : Except ParseError β}

/-- **Readers one after the other.** -/
theorem Cut.bind {f : α → Except ParseError γ} {g : β → Except ParseError δ}
    (h : Cut last stop False R x y)
    (hstep : ∀ a b, y = .ok b → R a b → Cut last stop early S (f a) (g b)) :
    Cut last stop early S (x >>= f) (y >>= g) := by
  cases h with
  | caught hlast hstop => exact .caught hlast hstop
  | refused he' he => exact .refused he' he
  | ok h => exact hstep _ _ rfl h
  | ended hearly => exact hearly.elim

variable {f : α → γ} {g : β → δ}

theorem Cut.map (h : Cut last stop early R x y) (hresult : ∀ a b, R a b → S (f a) (g b)) :
    Cut last stop early S (x.map f) (y.map g) := by
  cases h with
  | caught hlast hstop => exact .caught hlast hstop
  | refused he' he => exact .refused he' he
  | ok h => exact .ok (hresult _ _ h)
  | ended hearly he' => exact .ended hearly he'

theorem Cut.mono {early' : Prop} (h : Cut last stop early R x y) (himp : early → early') :
    Cut last stop early' R x y := by
  cases h with
  | caught hlast hstop => exact .caught hlast hstop
  | refused he' he => exact .refused he' he
  | ok h => exact .ok h
  | ended hearly he' => exact .ended (himp hearly) he'

/-- What holds of parts of the results holds of the results. -/
theorem Cut.of_map (h : Cut last stop early S (x.map f) (y.map g)) :
    Cut last stop early (fun a b => S (f a) (g b)) x y := by
  cases x with
  | error e' =>
    cases y with
    | error e =>
      cases h with
      | caught hlast hstop => exact .caught hlast hstop
      | refused he' he => exact .refused he' he
    | ok b =>
      cases h with
      | ended hearly he' => exact .ended hearly he'
  | ok a =>
    cases y with
    | error e => cases h
    | ok b =>
      cases h with
      | ok h => exact .ok h

/-- The second text is read to an end unless the first is refused at the slash. -/
theorem Cut.returns_iff (h : Cut last stop early R x y) (hstop : last = '/' → 0 < stop) :
    Returns y ↔ ¬(last = '/' ∧ x = .error ⟨.unterminatedComment, stop - 1⟩) := by
  have helsewhere : ∀ {e' : ParseError}, Elsewhere last stop e' →
      ¬(last = '/' ∧
        (.error e' : Except ParseError α) = .error ⟨.unterminatedComment, stop - 1⟩) := by
    rintro e' he' ⟨hlast, heq⟩
    cases heq
    exact he' hlast rfl (Nat.sub_add_cancel (hstop hlast))
  cases h with
  | caught hlast hoffset =>
    refine iff_of_false (fun h => h _ rfl rfl) fun h => h ⟨hlast, ?_⟩
    rw [← hoffset, Nat.add_sub_cancel]
  | refused he' he =>
    refine iff_of_true (fun e h => ?_) (helsewhere he')
    cases h
    exact he
  | ok h => exact iff_of_true (fun e h => nomatch h) fun h => nomatch h.2
  | ended _ he' => exact iff_of_true (fun e h => nomatch h) (helsewhere he')

/-- Whether a fault is one of those that tell the two texts apart. -/
def SyntaxFault.isCut : SyntaxFault → Bool
  | stalled => true
  | unterminatedComment => true
  | _ => false

theorem Cut.refuse {fault fault' : SyntaxFault} {offset offset' : Nat}
    (hfault' : fault'.isCut = false) (hfault : fault.isCut = false) :
    Cut last stop early R (.error ⟨fault', offset'⟩) (.error ⟨fault, offset⟩) := by
  refine .refused (fun _ h => ?_) fun h => ?_
  · obtain rfl : fault' = .unterminatedComment := h
    cases hfault'
  · obtain rfl : fault = .stalled := h
    cases hfault

end Outcomes

section Readers

variable {last : Char} {stop : Nat} {beyond : Option Char} {c d : Cursor}

/-! ### Blanks and delimiters -/

/-- A delimiter in the two texts: the same one at the same place, or the ends of both. -/
def DelimiterBeside (last : Char) (stop : Nat) (r' r : Delimiter × Cursor) : Prop :=
  r'.1 = r.1 ∧ (Starred last stop r'.2 r.2 ∧ r.2.rest ≠ [] ∨ r.2.rest = [] ∧ r'.2.rest = [])

variable {ch : Char} {rest : List Char} {depth fuel : Nat} {nested : Bool}

theorem opens_append_star (hcut : ¬(ch = '/' ∧ rest = [])) :
    (ch = '/' ∧ (rest ++ ['*']).head? = some '*') ↔ (ch = '/' ∧ rest.head? = some '*') := by
  refine and_congr_right fun hch => ?_
  cases rest with
  | nil => exact absurd ⟨hch, rfl⟩ hcut
  | cons next rest => exact Iff.rfl

/-- A comment that is left open in both texts starts before the slash that one of them ends with. -/
theorem Cut.comment {α β : Type} {early : Prop} {R : α → β → Prop} (h : Starred last stop d c)
    (hc : c.rest = '/' :: rest) (hrest : rest ≠ []) :
    Cut last stop early R (.error ⟨.unterminatedComment, d.pos⟩)
      (.error ⟨.unterminatedComment, c.pos⟩) := by
  refine .refused (fun _ _ => ?_) fun h => nomatch h
  have hstop := h.stop
  have hpos := byteLength_pos hrest
  rw [hc, byteLength_cons] at hstop
  show d.pos + 1 ≠ stop
  rw [h.pos]
  have : '/'.utf8Size = 1 := rfl
  omega

/-- **The search for a delimiter is at the same place of both texts** until it ends, and is cut off
in both or in none. -/
theorem cut_delimiterFrom (h : Starred last stop d c) :
    Cut last stop False (DelimiterBeside last stop) (delimiterFrom beyond depth d)
      (delimiterFrom (some '*') depth c) := by
  induction hn : c.length using Nat.strongRecOn generalizing depth c d with
  | ind n ih =>
    subst hn
    cases hc : c.rest with
    | nil =>
      have hd : d.rest = '*' :: [] := by rw [h.rest, hc, List.nil_append]
      rw [delimiterFrom_of_nil hc, delimiterFrom_of_inert hd (by decide),
        delimiterFrom_of_nil (Cursor.rest_next hd)]
      exact .ok ⟨rfl, .inr ⟨hc, Cursor.rest_next hd⟩⟩
    | cons ch rest =>
      rw [delimiterFrom_cons hc, delimiterFrom_cons (h.rest_cons hc)]
      split
      · rename_i hquote
        have hstar : ch ≠ '*' := by
          rintro rfl
          simp at hquote
        rw [afterQuoted_append_star hstar]
        cases hr : afterQuoted ch rest with
        | none => exact .refuse rfl rfl
        | some after =>
          exact ih _ (length_moveTo_quoted hc hr) (h.moveTo (Cursor.leads_moveTo_quoted hc hr)) rfl
      · by_cases hcut : ch = '/' ∧ rest = []
        · obtain ⟨rfl, rfl⟩ := hcut
          have hstop := h.stop
          rw [hc] at hstop
          have hlast : '/' = last := h.last _ (by rw [hc]; rfl)
          simp only [List.head?_nil, List.nil_append, List.head?_cons, and_self, if_true,
            List.drop_succ_cons, List.drop_nil, afterComment, reduceCtorEq,
            and_false, if_false]
          rw [h.pos]
          exact .caught hlast.symm hstop
        · have hmore : ¬(ch = '/' ∧ rest ++ ['*'] = [] ∧ beyond = some '*') := by simp
          have hend : ¬(ch = '/' ∧ rest = [] ∧ some '*' = some '*') :=
            fun hall => hcut ⟨hall.1, hall.2.1⟩
          rw [if_neg hmore, if_neg hend]
          simp only [opens_append_star hcut]
          split
          · rename_i hopen
            obtain ⟨rfl, hstar⟩ := hopen
            have hne : rest ≠ [] := fun hnil => hcut ⟨rfl, hnil⟩
            rw [List.drop_append_of_le_length (List.length_pos_iff.2 hne),
              afterComment_append_star]
            cases hr : afterComment (rest.drop 1) with
            | none => exact .comment h hc hne
            | some after =>
              have hleads := Cursor.leads_moveTo_comment hc hr
              exact ih _ (length_moveTo_comment hc hr) (h.moveTo hleads) rfl
          · cases Delimiter.outside? depth ch with
            | some delimiter => exact .ok ⟨rfl, .inl ⟨h, hc ▸ List.cons_ne_nil ch rest⟩⟩
            | none => exact ih _ (Cursor.length_next_of_cons hc) (h.next hc) rfl

theorem cut_nextDelimiter (h : Starred last stop d c) :
    Cut last stop False
      (fun r' r => DelimiterBeside last stop (r'.value, r'.next) (r.value, r.next))
      (nextDelimiter beyond depth d) (nextDelimiter (some '*') depth c) :=
  Cut.of_map (cut_delimiterFrom h)

theorem map_next_passBlanks_nil (hc : c.rest = []) : (passBlanks c).map (·.next) = .ok c := by
  obtain ⟨pos, text⟩ := c
  subst hc
  rw [passBlanks]
  rfl

/-- What blanks and comments lead to. -/
theorem map_next_passBlanks_cons (hc : c.rest = ch :: rest) :
    (passBlanks c).map (·.next) =
      if isSpace ch then (passBlanks c.next).map (·.next)
      else if ch = '/' ∧ rest.head? = some '*' then
        match afterComment (rest.drop 1) with
        | none => .error ⟨.unterminatedComment, c.pos⟩
        | some after => (passBlanks (c.moveTo after)).map (·.next)
      else .ok c := by
  obtain ⟨pos, text⟩ := c
  subst hc
  rw [passBlanks.eq_1 ⟨pos, ch :: rest⟩]
  simp only []
  split
  · cases passBlanks (Cursor.next ⟨pos, ch :: rest⟩) <;> rfl
  · split
    · split
      · rename_i hr
        simp only [hr]
        rfl
      · rename_i after hr
        simp only [hr]
        cases passBlanks (Cursor.moveTo ⟨pos, ch :: rest⟩ after) <;> rfl
    · rfl

/-- **Blanks and comments are passed in both texts**, except that a slash and the star after it are
a comment left open in one and a slash in the other. -/
theorem cut_passBlanks (h : Starred last stop d c) :
    Cut last stop False (Starred last stop) ((passBlanks d).map (·.next))
        ((passBlanks c).map (·.next)) ∨
      ∃ e, (passBlanks c).map (·.next) = .ok e ∧ e.rest = ['/'] ∧ e.pos + 1 = stop ∧ last = '/' ∧
        (passBlanks d).map (·.next) = .error ⟨.unterminatedComment, e.pos⟩ := by
  induction hn : c.length using Nat.strongRecOn generalizing c d with
  | ind n ih =>
    subst hn
    cases hc : c.rest with
    | nil =>
      have hd : d.rest = '*' :: [] := by rw [h.rest, hc, List.nil_append]
      rw [map_next_passBlanks_cons hd, map_next_passBlanks_nil hc, if_neg (by decide),
        if_neg (by decide)]
      exact .inl (.ok h)
    | cons ch rest =>
      rw [map_next_passBlanks_cons hc, map_next_passBlanks_cons (h.rest_cons hc)]
      split
      · exact ih _ (Cursor.length_next_of_cons hc) (h.next hc) rfl
      · by_cases hcut : ch = '/' ∧ rest = []
        · obtain ⟨rfl, rfl⟩ := hcut
          have hstop := h.stop
          rw [hc] at hstop
          have hlast : '/' = last := h.last _ (by rw [hc]; rfl)
          refine .inr ⟨c, rfl, hc, hstop, hlast.symm, ?_⟩
          rw [← h.pos]
          rfl
        · simp only [opens_append_star hcut]
          split
          · rename_i hopen
            obtain ⟨rfl, hstar⟩ := hopen
            have hne : rest ≠ [] := fun hnil => hcut ⟨rfl, hnil⟩
            rw [List.drop_append_of_le_length (List.length_pos_iff.2 hne),
              afterComment_append_star]
            cases hr : afterComment (rest.drop 1) with
            | none => exact .inl (.comment h hc hne)
            | some after =>
              have hleads := Cursor.leads_moveTo_comment hc hr
              exact ih _ (length_moveTo_comment hc hr) (h.moveTo hleads) rfl
          · exact .inl (.ok h)

/-! ### Blocks that are not read -/

theorem cut_passBlockFrom (h : Starred last stop d c) :
    Cut last stop False (Starred last stop) (passBlockFrom beyond depth d)
      (passBlockFrom (some '*') depth c) := by
  induction hn : c.length using Nat.strongRecOn generalizing depth c d with
  | ind n ih =>
    subst hn
    rw [passBlockFrom.eq_1 beyond depth d, passBlockFrom.eq_1 (some '*') depth c]
    refine (cut_nextDelimiter h).bind fun r' r _ hr => ?_
    obtain ⟨value, ⟨pos, rest⟩, hle⟩ := r
    obtain ⟨value', ⟨pos', rest'⟩, hle'⟩ := r'
    obtain ⟨hvalue, hplace⟩ := hr
    obtain rfl : value' = value := hvalue
    rcases hplace with ⟨hstarred, hne⟩ | ⟨hnil, hnil'⟩
    · cases rest with
      | nil => exact absurd rfl hne
      | cons ch rest =>
        obtain rfl : rest' = ch :: (rest ++ ['*']) := hstarred.rest
        have hlt : (Cursor.moveTo ⟨pos, ch :: rest⟩ rest).length < c.length :=
          Nat.lt_of_lt_of_le (Cursor.length_moveTo_lt rfl) hle
        have hnext := hstarred.moveTo (Cursor.leads_moveTo_cons rfl)
        simp only []
        split
        · exact ih _ hlt hnext rfl
        · exact .ok hnext
        · exact ih _ hlt hnext rfl
        · exact ih _ hlt hnext rfl
        · exact .refuse rfl rfl
    · obtain rfl : rest = [] := hnil
      obtain rfl : rest' = [] := hnil'
      exact .refuse rfl rfl

theorem cut_passBlock (h : Starred last stop d c) (hc : c.rest = ch :: rest) :
    Cut last stop False (fun r' r => Starred last stop r'.2 r.2) (passBlock beyond d)
      (passBlock (some '*') c) :=
  (cut_passBlockFrom (h.next hc)).bind fun _ _ _ hr => .ok hr

/-! ### Declarations -/

/-- A text before a colon is a declaration, or it has no name. -/
theorem declarationAt_cases (c stop : Cursor) :
    ':' ∉ c.upTo stop ∧ declarationAt c stop = .error ⟨.declaration, c.pos⟩ ∨
      ':' ∈ c.upTo stop ∧
        if (trim ((c.upTo stop).takeWhile (· != ':'))).isEmpty then
          declarationAt c stop = .error ⟨.propertyName, c.pos⟩
        else ∃ r, declarationAt c stop = .ok r := by
  simp only [declarationAt]
  generalize c.upTo stop = text
  have hdrop : text.drop (text.takeWhile (· != ':')).length = text.dropWhile (· != ':') := calc
    _ = (text.takeWhile (· != ':') ++ text.dropWhile (· != ':')).drop
          (text.takeWhile (· != ':')).length := by rw [List.takeWhile_append_dropWhile]
    _ = text.dropWhile (· != ':') := List.drop_left
  have hmem : ':' ∉ text ↔ text.dropWhile (· != ':') = [] := by
    rw [List.dropWhile_eq_nil_iff]
    exact ⟨fun h ch hch => bne_iff_ne.2 fun heq => h (heq ▸ hch),
      fun h hmem => bne_iff_ne.1 (h _ hmem) rfl⟩
  rw [hdrop]
  split
  · rename_i hnil
    exact .inl ⟨hmem.2 hnil, rfl⟩
  · rename_i ch value hcons
    refine .inr ⟨?_, ?_⟩
    · refine Classical.not_not.1 fun hnot => ?_
      rw [hmem.1 hnot] at hcons
      cases hcons
    · split
      · rfl
      · exact ⟨_, rfl⟩

/-- A star after a text makes no difference to a declaration in it. -/
theorem cut_declarationAt {e e' : Cursor}
    (htext : d.upTo e' = c.upTo e ∨ d.upTo e' = c.upTo e ++ ['*']) :
    Cut last stop False (fun _ _ => True) (declarationAt d e') (declarationAt c e) := by
  have hcolon : ':' ∈ d.upTo e' ↔ ':' ∈ c.upTo e := by
    rcases htext with h | h <;> simp [h]
  have hname : ':' ∈ c.upTo e →
      (d.upTo e').takeWhile (· != ':') = (c.upTo e).takeWhile (· != ':') := by
    intro hmem
    rcases htext with h | h
    · rw [h]
    · rw [h, takeWhile_append_star (.inr ⟨':', hmem, rfl⟩)]
  rcases declarationAt_cases d e' with ⟨hnone', heq'⟩ | ⟨hsome', heq'⟩ <;>
    rcases declarationAt_cases c e with ⟨hnone, heq⟩ | ⟨hsome, heq⟩
  · rw [heq', heq]
    exact .refuse rfl rfl
  · exact absurd (hcolon.2 hsome) hnone'
  · exact absurd (hcolon.1 hsome') hnone
  · rw [hname hsome] at heq'
    split at heq'
    · rename_i hempty
      rw [if_pos hempty] at heq
      rw [heq', heq]
      exact .refuse rfl rfl
    · rename_i hempty
      rw [if_neg hempty] at heq
      obtain ⟨r', hr'⟩ := heq'
      obtain ⟨r, hr⟩ := heq
      rw [hr', hr]
      exact .ok trivial

theorem cut_readDeclaration (h : Starred last stop d c) :
    Cut last stop False (fun r' r => Beside last stop r'.2 r.2) (readDeclaration beyond d)
      (readDeclaration (some '*') c) := by
  refine (cut_nextDelimiter h).bind fun r' r _ hr => ?_
  obtain ⟨hvalue, hplace⟩ := hr
  obtain hvalue : r'.value = r.value := hvalue
  have htext : d.upTo r'.next = c.upTo r.next ∨ d.upTo r'.next = c.upTo r.next ++ ['*'] := by
    rcases hplace with ⟨hstarred, _⟩ | ⟨hnil, hnil'⟩
    · exact .inl (h.upTo hstarred)
    · refine .inr ?_
      change r.next.rest = [] at hnil
      change r'.next.rest = [] at hnil'
      simp only [Cursor.upTo, before, hnil, hnil', h.rest, List.length_nil, Nat.sub_zero,
        List.take_length]
  have hbeside : Beside last stop r'.next r.next := hplace.imp_left And.left
  refine (cut_declarationAt htext).bind fun _ _ _ _ => .ok ?_
  rw [hvalue]
  split
  · exact hbeside.next
  · exact hbeside

/-! ### Rules and at-rules -/

/-- Two readers of nodes keep the two texts side by side, where less than `bound` is left. -/
def ItemsCut (last : Char) (stop bound : Nat) (items' items : ItemReader) : Prop :=
  ∀ (nested : Bool) (d c : Cursor), Beside last stop d c → c.length < bound →
    Cut last stop (nested = false) (fun r' r => Beside last stop r'.2 r.2) (items' nested d)
      (items nested c)

variable {bound : Nat} {items items' : ItemReader}

theorem Starred.pos_lt (h : Starred last stop d c) (hc : c.rest = ch :: rest) (hch : ch ≠ last) :
    c.pos + 1 < stop := by
  have hne : rest ≠ [] := by
    rintro rfl
    exact hch (h.last ch (by rw [hc]; rfl))
  have hstop := h.stop
  have hpos := byteLength_pos hne
  have hsize := ch.utf8Size_pos
  rw [hc, byteLength_cons] at hstop
  omega

/-- A selector list before the slash is read alike in both texts. -/
theorem cut_readSelectorList {p : Cursor}
    (hp : last = '/' → p.pos + byteLength p.rest + 1 < stop) :
    Cut last stop False (fun _ _ => True) (readSelectorList none p) (readSelectorList none p) := by
  obtain ⟨source, hwithin, hlength⟩ := p.exists_within
  have hsettles := settles_readSelectorList hwithin
  cases hread : readSelectorList none p with
  | ok list => exact .ok trivial
  | error e =>
    have hplaced := hsettles e hread
    refine .refused (fun hlast _ => ?_) hplaced.moves
    have hle := hplaced.place.stop_le
    have hlt := hp hlast
    rw [byteLength_nil] at hle
    omega

section Items

variable (hitems : ItemsCut last stop bound items' items) (h : Starred last stop d c)

include hitems h

theorem cut_readBlock (hc : c.rest = ch :: rest) (hlength : c.length ≤ bound) :
    Cut last stop False (fun r' r => Beside last stop r'.2 r.2) (readBlock items' d)
      (readBlock items c) := by
  have hshorter := Cursor.length_next_of_cons hc
  have hread := hitems true _ _ (.inl (h.next hc)) (Nat.lt_of_lt_of_le hshorter hlength)
  exact (hread.mono fun h => nomatch h).bind fun _ _ _ hr => .ok hr.next

theorem cut_readRule (hlength : c.length ≤ bound) :
    Cut last stop False (fun r' r => Beside last stop r'.2 r.2) (readRule items' beyond d)
      (readRule items (some '*') c) := by
  refine (cut_nextDelimiter h).bind fun r' r hr hplace => ?_
  obtain ⟨hvalue, hplace⟩ := hplace
  obtain ⟨hleads, hfound⟩ := nextDelimiter_leads hr
  rw [show r'.value = r.value from hvalue]
  split
  · exact .refuse rfl rfl
  · rename_i hopen
    obtain ⟨rest, hrest⟩ := exists_of_openBrace (Classical.not_not.1 hopen) hfound
    have hstarred : Starred last stop r'.next r.next := by
      rcases hplace with hplace | ⟨hnil, _⟩
      · exact hplace.1
      · cases hrest.symm.trans hnil
    have hle := hleads.length_le
    obtain ⟨blanks, hblanks, _⟩ := trimSpaceRight_append (c.upTo r.next)
    have hpos := hleads.pos_eq
    rw [hblanks, byteLength_append] at hpos
    rw [h.pos, h.upTo hstarred]
    refine (cut_readSelectorList fun hlast => ?_).bind fun _ _ _ _ => ?_
    · have hlt := hstarred.pos_lt hrest (by rw [hlast]; decide)
      simp only []
      omega
    · exact (cut_readBlock hitems hstarred hrest (Nat.le_trans hle hlength)).bind
        fun _ _ _ hb => .ok hb

theorem cut_readAtRule (hc : c.rest = '@' :: rest) (hlength : c.length ≤ bound) :
    Cut last stop False (fun r' r => Beside last stop r'.2 r.2) (readAtRule items' beyond d)
      (readAtRule items (some '*') c) := by
  have hnext := h.next hc
  have hname : d.next.rest.takeWhile isIdentChar = c.next.rest.takeWhile isIdentChar := by
    rw [hnext.rest, takeWhile_append_star (.inl (by decide))]
  simp only [readAtRule]
  rw [hname]
  have hskip := hnext.skip (List.takeWhile_sublist (l := c.next.rest) isIdentChar).length_le
  generalize c.next.rest.takeWhile isIdentChar = name at hskip ⊢
  split
  · exact .refuse rfl rfl
  · have hleads := c.leads_next.trans (c.next.leads_skip name.length)
    refine (cut_nextDelimiter hskip).bind fun r' r hr hplace => ?_
    obtain ⟨hvalue, hplace⟩ := hplace
    obtain ⟨hmore, hfound⟩ := nextDelimiter_leads hr
    have hbeside : Beside last stop r'.next r.next := hplace.imp_left And.left
    have hle := (hleads.trans hmore).length_le
    rw [show r'.value = r.value from hvalue]
    split
    · rename_i hopen
      obtain ⟨rest, hrest⟩ := exists_of_openBrace hopen hfound
      have hstarred := hbeside.starred (hrest ▸ List.cons_ne_nil _ rest)
      split
      · exact (cut_passBlock hstarred hrest).bind fun _ _ _ hb => .ok (.inl hb)
      · exact (cut_readBlock hitems hstarred hrest (Nat.le_trans hle hlength)).bind
          fun _ _ _ hb => .ok hb
    · exact .ok hbeside.next
    · exact .ok hbeside

/-! ### Nodes -/

theorem cut_readItem (hc : c.rest = ch :: rest) (hlength : c.length ≤ bound) :
    Cut last stop False (fun r' r => Beside last stop r'.2 r.2) (readItem items' beyond nested d)
      (readItem items (some '*') nested c) := by
  unfold readItem
  rw [hc, h.rest_cons hc, List.head?_cons, List.head?_cons]
  split
  · rename_i hat
    cases hat
    exact cut_readAtRule hitems h hc hlength
  · refine (cut_nextDelimiter h).bind fun r' r _ hplace => ?_
    rw [show r'.value = r.value from hplace.1]
    split
    · exact (cut_readDeclaration h).bind fun _ _ _ hr => .ok hr
    · exact cut_readRule hitems h hlength

end Items

/-- A star alone is no node. -/
theorem readItem_of_star (items : ItemReader) (beyond : Option Char) (nested : Bool)
    (hd : d.rest = ['*']) :
    ∃ fault offset, readItem items beyond nested d = .error ⟨fault, offset⟩ ∧
      fault.isCut = false := by
  have hfound : delimiterFrom beyond 0 d = .ok (.none, d.next) := by
    rw [delimiterFrom_of_inert hd (by decide), delimiterFrom_of_nil (Cursor.rest_next hd)]
  obtain ⟨r, hr, hvalue, hnext⟩ := delimiterFrom_eq_ok_iff.1 hfound
  have hat : d.rest.head? ≠ some '@' := by
    rw [hd]
    decide
  rw [readItem, if_neg hat, hr]
  cases nested with
  | true =>
    have htext : d.upTo r.next = ['*'] := by
      rw [hnext, Cursor.upTo, hd, Cursor.rest_next hd]
      rfl
    rcases declarationAt_cases d r.next with ⟨_, hnone⟩ | ⟨hcolon, _⟩
    · refine ⟨.declaration, d.pos, ?_, rfl⟩
      show (if true = true ∧ r.value ≠ .openBrace then _ else _) = _
      rw [hvalue, if_pos (by decide), readDeclaration, hr]
      show ((declarationAt d r.next >>= _) >>= _) = _
      rw [hnone]
      rfl
    · rw [htext] at hcolon
      exact absurd hcolon (by decide)
  | false =>
    refine ⟨.expected '\x7b', r.next.pos, ?_, rfl⟩
    show readRule items beyond d = _
    rw [readRule, hr]
    show (if r.value ≠ .openBrace then _ else _) = _
    rw [hvalue]
    rfl

/-- At a slash that a star follows, no node is read. -/
theorem readItem_of_slash (nested : Bool) (hc : c.rest = ['/']) :
    readItem items (some '*') nested c = .error ⟨.stalled, c.pos⟩ := by
  have hfound : delimiterFrom (some '*') 0 c = .error ⟨.stalled, c.pos⟩ :=
    delimiterFrom_of_slash hc rfl
  have hat : c.rest.head? ≠ some '@' := by
    rw [hc]
    decide
  rw [readItem, if_neg hat]
  rw [delimiterFrom] at hfound
  cases hr : nextDelimiter (some '*') 0 c with
  | error e =>
    rw [hr] at hfound
    cases hfound
    rfl
  | ok r =>
    rw [hr] at hfound
    cases hfound

/-- Reads the nodes from `c` on, where no blanks stand. -/
def readItemsAt (beyond : Option Char) (fuel : Nat) (nested : Bool) (c : Cursor) :
    Except ParseError (List StyleNode × Cursor) :=
  match c.rest.head? with
  | none => if nested then .error ⟨.expected '\x7d', c.pos⟩ else .ok ([], c)
  | some '\x7d' => if nested then .ok ([], c) else .error ⟨.unexpectedBrace, c.pos⟩
  | some ';' => readItemsF beyond fuel nested c.next
  | some _ => do
      let r ← readItem (readItemsF beyond fuel) beyond nested c
      (readItemsF beyond fuel nested r.2).map fun s => (r.1 :: s.1, s.2)

theorem readItemsF_eq_bind (beyond : Option Char) (fuel : Nat) (nested : Bool) (c : Cursor) :
    readItemsF beyond (fuel + 1) nested c =
      (passBlanks c).map (·.next) >>= readItemsAt beyond fuel nested := by
  rw [readItemsF]
  cases passBlanks c <;> rfl

/-- A node that is read takes some of the text. -/
theorem length_readItem_lt {r : StyleNode × Cursor}
    (h : readItem (readItemsF beyond fuel) beyond nested c = .ok r) : r.2.length < c.length := by
  obtain ⟨source, hwithin, _⟩ := c.exists_within
  obtain ⟨hleads, hstart, hlt, hstop, _⟩ := laid_readItem (laid_readItemsF fuel) hwithin h
  refine Classical.byContradiction fun hlong => ?_
  have hsame := congrArg Cursor.pos (hleads.eq_of_length hlong)
  omega

theorem cut_readItemsAt
    (hitems : ItemsCut last stop fuel (readItemsF beyond (fuel + 1)) (readItemsF (some '*') fuel))
    (h : Starred last stop d c) (hlength : c.length ≤ fuel) :
    Cut last stop (nested = false) (fun r' r => Beside last stop r'.2 r.2)
      (readItemsAt beyond (fuel + 1) nested d) (readItemsAt (some '*') fuel nested c) := by
  unfold readItemsAt
  cases hc : c.rest with
  | nil =>
    -- the text has ended, and in the other one a star is left
    have hd : d.rest = ['*'] := by rw [h.rest, hc, List.nil_append]
    obtain ⟨fault, offset, hstar, hfault⟩ :=
      readItem_of_star (readItemsF beyond (fuel + 1)) beyond nested hd
    rw [hd, hstar]
    show Cut _ _ _ _ (.error ⟨fault, offset⟩) _
    cases nested with
    | true => exact .refuse hfault rfl
    | false =>
      refine .ended rfl fun _ h => ?_
      obtain rfl : fault = .unterminatedComment := h
      cases hfault
  | cons ch rest =>
    rw [h.rest_cons hc, List.head?_cons, List.head?_cons]
    split
    · rename_i hnone
      cases hnone
    · split
      · exact .ok (.inl h)
      · exact .refuse rfl rfl
    · exact hitems nested _ _ (.inl (h.next hc))
        (Nat.lt_of_lt_of_le (Cursor.length_next_of_cons hc) hlength)
    · refine (cut_readItem hitems h hc hlength).bind fun r' r hr hbeside => ?_
      have hlt := Nat.lt_of_lt_of_le (length_readItem_lt hr) hlength
      exact (hitems nested _ _ hbeside hlt).map fun _ _ hend => hend

/-- **The two texts are read side by side to the end.** -/
theorem cut_readItemsF (fuel : Nat) :
    ItemsCut last stop fuel (readItemsF beyond (fuel + 1)) (readItemsF (some '*') fuel) := by
  induction fuel with
  | zero =>
    intro nested d c _ hlength
    exact absurd hlength (Nat.not_lt_zero _)
  | succ fuel ih =>
    intro nested d c h hlength
    rw [readItemsF_eq_bind beyond, readItemsF_eq_bind (some '*')]
    rcases h with h | ⟨hc, hd⟩
    · rcases cut_passBlanks h with hblanks | ⟨e, hc, hslash, hstop, hlast, hd⟩
      · refine hblanks.bind fun b' b hb hstarred => cut_readItemsAt ih hstarred ?_
        obtain ⟨p, _, rfl⟩ := map_eq_ok_iff.1 hb
        exact Nat.le_of_lt_succ (Nat.lt_of_le_of_lt p.noLonger hlength)
      · rw [hc, hd]
        have hstalled : readItemsAt (some '*') fuel nested e = .error ⟨.stalled, e.pos⟩ := by
          unfold readItemsAt
          rw [hslash, readItem_of_slash nested hslash]
          rfl
        show Cut _ _ _ _ (.error _) (readItemsAt (some '*') fuel nested e)
        rw [hstalled]
        exact .caught hlast hstop
    · rw [map_next_passBlanks_nil hc, map_next_passBlanks_nil hd]
      show Cut _ _ _ _ (readItemsAt beyond (fuel + 1) nested d)
        (readItemsAt (some '*') fuel nested c)
      unfold readItemsAt
      rw [hc, hd]
      cases nested with
      | true => exact .refuse rfl rfl
      | false => exact .ok (.inr ⟨hc, hd⟩)

end Readers

/-! ### Stylesheets -/

section Sheets

variable {source : List Char} {content : Span}

theorem readStyleSheet_eq_map (source : List Char) (content span : Span) :
    readStyleSheet source content span =
      (readItemsF (dropBytes content.stop source).head?
        ((slice source content).length + 1) false
        ⟨content.start, slice source content⟩).map fun r => ⟨r.1, content, span⟩ := by
  simp only [readStyleSheet]
  cases readItemsF (dropBytes content.stop source).head?
    ((slice source content).length + 1) false ⟨content.start, slice source content⟩ <;> rfl

/-- The text of a range that is one byte longer, with a star in that byte. -/
theorem slice_of_star (hcontent : content.Cuts source)
    (hstar : (dropBytes content.stop source).head? = some '*') :
    slice source ⟨content.start, content.stop + 1⟩ = slice source content ++ ['*'] := by
  obtain ⟨start, stop⟩ := content
  obtain ⟨piece, hat, hstop⟩ := hcontent
  obtain rfl : stop = start + byteLength piece := hstop
  have hpiece := hat.slice
  obtain ⟨front, back, rfl, rfl⟩ := hat
  have hback : dropBytes (byteLength front + byteLength piece)
      (front ++ (piece ++ back)) = back := by
    rw [← byteLength_append, ← List.append_assoc, dropBytes_byteLength_append]
  rw [hback] at hstar
  obtain ⟨more, rfl⟩ := List.head?_eq_some_iff.1 hstar
  have hlonger : IsAt (front ++ (piece ++ '*' :: more)) (byteLength front)
      (piece ++ ['*']) := ⟨front, more, by simp, rfl⟩
  have hslice := hlonger.slice
  rw [byteLength_append] at hslice
  rw [hpiece]
  exact hslice

/-- **When reading a range of a source comes to an end.**  It does not if and only if the range ends
in a slash, a star follows it, and the range that takes in the star is refused for a comment that
starts at the slash and is left open.  What goes on then is the search for a delimiter, the rounds
of which all move on but for one at that slash; a search comes to an end if and only if it is not
refused for want of moving on. -/
theorem readStyleSheet_returns_iff (hcontent : content.Cuts source) (span : Span) :
    (Returns (readStyleSheet source content span) ↔
      ¬((Text.slice source content).getLast? = some '/' ∧
        (Text.dropBytes content.stop source).head? = some '*' ∧
        readStyleSheet source ⟨content.start, content.stop + 1⟩ span =
          .error ⟨.unterminatedComment, content.stop - 1⟩)) ∧
    (∀ depth depth' c c',
      delimiterRound (Text.dropBytes content.stop source).head? depth c = .again depth' c' →
        c'.length < c.length ∨ c.rest = ['/'] ∧
          (Text.dropBytes content.stop source).head? = some '*' ∧ depth' = depth ∧ c' = c) ∧
    ∀ depth c,
      (∃ outcome, SearchEnds (Text.dropBytes content.stop source).head? depth c outcome) ↔
        Returns (nextDelimiter (Text.dropBytes content.stop source).head? depth c) := by
  refine ⟨?_, fun _ _ _ _ => delimiterRound_advances, fun depth c => ?_⟩
  · by_cases hstar : (Text.dropBytes content.stop source).head? = some '*'
    · rw [readStyleSheet_eq_map, readStyleSheet_eq_map, slice_of_star hcontent hstar, hstar,
        List.length_append]
      have hlength := hcontent.byteLength_slice
      have hle := hcontent.le
      generalize Text.slice source content = text at hlength ⊢
      have hstarred : Starred (text.getLast?.getD ' ') content.stop
          ⟨content.start, text ++ ['*']⟩ ⟨content.start, text⟩ :=
        ⟨rfl, rfl, by show content.start + Text.byteLength text = _; omega, fun ch hch => by
          rw [show text.getLast? = some ch from hch]
          rfl⟩
      have hlast : text.getLast?.getD ' ' = '/' ↔ text.getLast? = some '/' := by
        cases text.getLast? <;> simp
      have hpos : text.getLast?.getD ' ' = '/' → 0 < content.stop := by
        intro h
        have hne : text ≠ [] := by
          rintro rfl
          cases hlast.1 h
        have := Text.byteLength_pos hne
        omega
      have hitems : ItemsCut (text.getLast?.getD ' ') content.stop (text.length + 1)
          (readItemsF (Text.dropBytes (content.stop + 1) source).head? (text.length + 1 + 1))
          (readItemsF (some '*') (text.length + 1)) := cut_readItemsF _
      have hread := (hitems false _ _ (.inl hstarred) (Nat.lt_succ_self _)).map
        (S := fun _ _ => True) (g := fun r => StyleSheet.mk r.1 content span)
        (f := fun r => StyleSheet.mk r.1 ⟨content.start, content.stop + 1⟩ span)
        fun _ _ _ => trivial
      rw [hread.returns_iff hpos, hlast]
      simp
    · exact iff_of_true (settles_readStyleSheet hcontent hstar).returns fun h => hstar h.2.1
  · exact exists_searchEnds_iff

/-- A comment opener in a string that is left open: the string is what is refused, whether or not
the range takes in the star. -/
theorem readStyleSheet_returns_iff_quoted :
    Span.Cuts "\"/*".toList ⟨0, 2⟩ ∧ Text.slice "\"/*".toList ⟨0, 2⟩ = ['"', '/'] ∧
      Returns (readStyleSheet "\"/*".toList ⟨0, 2⟩ ⟨0, 2⟩) := by
  have hcuts : Span.Cuts "\"/*".toList ⟨0, 2⟩ := ⟨['"', '/'], ⟨[], ['*'], by decide, rfl⟩, rfl⟩
  refine ⟨hcuts, by decide, (readStyleSheet_returns_iff hcuts ⟨0, 2⟩).1.2 fun h => ?_⟩
  have hlonger : refusal? (readStyleSheet "\"/*".toList ⟨0, 3⟩ ⟨0, 2⟩) =
      some ⟨.unterminatedString, 0⟩ := by decide +kernel
  rw [h.2.2] at hlonger
  cases hlonger

/-- A name and a comment opener that the end of the range cuts in two. -/
theorem readStyleSheet_returns_iff_cut :
    Span.Cuts "a/*".toList ⟨0, 2⟩ ∧ ¬Returns (readStyleSheet "a/*".toList ⟨0, 2⟩ ⟨0, 2⟩) ∧
      ¬∃ outcome, SearchEnds (some '*') 0 ⟨0, ['a', '/']⟩ outcome := by
  have hsheet : refusal? (readStyleSheet "a/*".toList ⟨0, 2⟩ ⟨0, 2⟩) = some ⟨.stalled, 1⟩ := by
    decide +kernel
  have hsearch : refusal? (nextDelimiter (some '*') 0 ⟨0, ['a', '/']⟩) = some ⟨.stalled, 1⟩ := by
    decide +kernel
  refine ⟨⟨['a', '/'], ⟨[], ['*'], by decide, rfl⟩, rfl⟩, not_returns_of_refusal? hsheet, ?_⟩
  exact fun hends => not_returns_of_refusal? hsearch (exists_searchEnds_iff.1 hends)

end Sheets

end CssRune
