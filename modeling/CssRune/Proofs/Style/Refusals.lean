/-
**Where reading a stylesheet is refused.**

A reader that gives up names an offset.  For the readers of selectors and stylesheets that offset is
always a place between two characters of the source, whatever the text is, and the bounds on the
number of their steps are never what makes them give up: every step reads some text, and what stands
in parentheses or braces is shorter than what it stands in.

* `ParseError.Placed`, `Settles` — refusals at a place of the source;
* `Settles.bind`, `Settles.map` — readers one after the other;
* `closingBracketBy_eq` — a counter of open brackets is never taken below zero;
* `settles_readSelectorList`, `settles_readItemsF` — **the bounds on nesting and on steps suffice**;
* `settles_readStyleSheet` — reading a stylesheet settles.
-/

import CssRune.Proofs.Style.Sheets

set_option autoImplicit false

namespace CssRune

open Text

/-! ### Refusals -/

/-- Whether a fault is that of a reader that cannot move on. -/
def SyntaxFault.isStalled : SyntaxFault → Bool
  | stalled => true
  | _ => false

/-- A refusal at a place between two characters of the source, and not because the reader cannot
move on. -/
structure ParseError.Placed (source : List Char) (e : ParseError) : Prop where
  place : Text.IsAt source e.offset []
  moves : e.fault ≠ .stalled

/-- Whatever is refused is refused at a place of the source. -/
def Settles {α : Type} (source : List Char) (x : Except ParseError α) : Prop :=
  ∀ e, x = .error e → e.Placed source

section Outcomes

variable {α β : Type} {source : List Char} {x : Except ParseError α}

theorem settles_ok (a : α) : Settles source (.ok a : Except ParseError α) := by
  intro e h
  cases h

theorem settles_error {fault : SyntaxFault} {offset : Nat} (hplace : IsAt source offset [])
    (hfault : fault.isStalled = false) :
    Settles source (.error ⟨fault, offset⟩ : Except ParseError α) := by
  intro e h
  cases h
  refine ⟨hplace, ?_⟩
  rintro rfl
  cases hfault

theorem Settles.bind {f : α → Except ParseError β} (hx : Settles source x)
    (hf : ∀ a, x = .ok a → Settles source (f a)) : Settles source (x >>= f) := by
  intro e h
  rcases bind_eq_error_iff.1 h with h | ⟨a, ha, h⟩
  · exact hx e h
  · exact hf a ha e h

theorem Settles.bind_ok {f : α → β} (hx : Settles source x) :
    Settles source (x >>= fun a => pure (f a)) := hx.bind fun _ _ => settles_ok _

theorem Settles.map {f : α → β} (hx : Settles source x) : Settles source (x.map f) := by
  intro e h
  cases x with
  | error d =>
    cases h
    exact hx _ rfl
  | ok a => cases h

end Outcomes

/-! ### Counting brackets -/

/-- The cursor at the bracket that closes `open_`, as `closingBracket` finds it, with `down` to take
the counter of open brackets down. -/
def closingBracketBy (down : Nat → Nat) (open_ close : Char) (depth : Nat) (c : Cursor) :
    Except ParseError (Option (Step Unit c)) :=
  match hc : c.rest with
  | [] => .ok none
  | ch :: rest =>
    if ch = '"' ∨ ch = '\'' then
      match hr : Text.afterQuoted ch rest with
      | none => .error ⟨.unterminatedString, c.pos⟩
      | some after => do
          let r ← closingBracketBy down open_ close depth (c.moveTo after)
          return r.map (Step.after (length_moveTo_quoted_le hc hr))
    else if ch = close ∧ depth = 0 then
      .ok (some ⟨(), c.moveTo rest, Cursor.length_moveTo_lt hc⟩)
    else do
      let depth := if ch = open_ then depth + 1 else if ch = close then down depth else depth
      let r ← closingBracketBy down open_ close depth c.next
      return r.map (Step.after c.length_next_le)
termination_by c.length
decreasing_by
  · exact length_moveTo_quoted hc hr
  · exact Cursor.length_next_of_cons hc

/-- **The counter of open brackets is never taken below zero**: what would come of that does not
matter. -/
theorem closingBracketBy_eq {down : Nat → Nat} (hdown : ∀ n, down (n + 1) = n)
    (open_ close : Char) (depth : Nat) (c : Cursor) :
    closingBracketBy down open_ close depth c = closingBracket open_ close depth c := by
  induction hn : c.length using Nat.strongRecOn generalizing depth c with
  | ind n ih =>
    subst hn
    obtain ⟨pos, rest⟩ := c
    rw [closingBracketBy, closingBracket]
    cases rest with
    | nil => rfl
    | cons ch rest =>
      by_cases hquote : ch = '"' ∨ ch = '\''
      · simp only [if_pos hquote]
        congr 1
        funext after hr
        rw [ih _ (length_moveTo_quoted rfl hr) depth _ rfl]
      · simp only [if_neg hquote]
        by_cases hfound : ch = close ∧ depth = 0
        · simp only [if_pos hfound]
        · have hdepth : (if ch = close then down depth else depth) =
              if ch = close then depth - 1 else depth := by
            split
            · rename_i hclose
              -- the bracket was not found, so another one is open
              obtain ⟨k, rfl⟩ := Nat.exists_eq_succ_of_ne_zero fun h => hfound ⟨hclose, h⟩
              exact hdown k
            · rfl
          simp only [if_neg hfound, hdepth]
          rw [ih _ (Cursor.length_next_of_cons rfl) _ _ rfl]

section Readers

variable {source : List Char} {c : Cursor} {ch : Char} {rest after : List Char}

theorem Cursor.Within.place (hc : c.Within source) : IsAt source c.pos [] :=
  IsAt.left (show IsAt source c.pos ([] ++ c.rest) from hc)

/-! ### Blanks, identifiers and brackets -/

section Tokens

variable (hc : c.Within source)

include hc

theorem settles_passBlanks : Settles source (passBlanks c) := by
  fun_induction passBlanks c with
  | case1 => exact settles_ok _
  | case2 c ch rest hrest _ ih =>
    exact (ih (c.leads_next.within hc)).bind_ok
  | case3 => exact settles_error hc.place rfl
  | case4 c ch rest hrest _ _ after hr ih =>
    exact (ih ((Cursor.leads_moveTo_comment hrest hr).within hc)).bind_ok
  | case5 => exact settles_ok _

theorem settles_readIdent : Settles source (readIdent c) := by
  simp only [readIdent]
  split
  · exact settles_ok _
  · exact settles_error hc.place rfl

theorem settles_closingBracket {open_ close : Char} {depth : Nat} :
    Settles source (closingBracket open_ close depth c) := by
  fun_induction closingBracket open_ close depth c with
  | case1 => exact settles_ok _
  | case2 => exact settles_error hc.place rfl
  | case3 depth c ch rest hrest _ after hr ih =>
    exact (ih ((Cursor.leads_moveTo_quoted hrest hr).within hc)).bind_ok
  | case4 => exact settles_ok _
  | case5 depth c =>
    rename_i ih
    exact (ih (c.leads_next.within hc)).bind_ok

theorem settles_readMarked {kind : NamedKind} {size : Nat} :
    Settles source (readMarked kind c size) :=
  (settles_readIdent ((c.leads_skip size).within hc)).bind_ok

theorem settles_readParens : Settles source (readParens c) := by
  unfold readParens
  split
  · rename_i rest hrest
    have hopen := (Cursor.leads_moveTo_cons hrest).within hc
    refine (settles_closingBracket hopen).bind fun closed _ => ?_
    cases closed with
    | none => exact settles_error hc.place rfl
    | some s => exact settles_ok _
  · exact settles_ok _

/-- What stands in parentheses is a shorter piece of the source. -/
theorem within_of_readParens {p : Step Cursor c} (h : readParens c = .ok (some p)) :
    p.value.Within source ∧ p.value.length < c.length := by
  obtain ⟨hleads, inner, hin, hvalue, _⟩ := readParens_leads h
  rw [hvalue]
  constructor
  · have hat := hleads.isAt hc
    rw [hin] at hat
    exact hat.tail.left
  · have hrest := congrArg List.length hleads.rest_eq
    rw [hin] at hrest
    simp only [List.length_append, List.length_cons, List.length_nil] at hrest
    show inner.length < c.rest.length
    omega

end Tokens

/-! ### Simple selectors and compounds -/

/-- A reader of arguments lays out what it reads, and settles on texts shorter than a bound. -/
structure ArgsSettle (source : List Char) (bound : Nat)
    (args : Cursor → Except ParseError SelectorList) : Prop where
  lays : LaysOut source args
  settles : ∀ d : Cursor, d.Within source → d.length < bound → Settles source (args d)

variable {bound : Nat} {args : Cursor → Except ParseError SelectorList}
  (hargs : ArgsSettle source bound args) (hc : c.Within source) (hlength : c.length ≤ bound)

include hargs hc hlength

theorem settles_readSimple : Settles source (readSimple args none c) := by
  unfold readSimple
  split
  · exact (settles_readMarked hc).map
  · exact (settles_readMarked hc).map
  · rename_i rest hrest
    have hopen := (Cursor.leads_moveTo_cons hrest).within hc
    refine (settles_closingBracket hopen).bind fun closed _ => ?_
    cases closed with
    | none => exact settles_error hc.place rfl
    | some s => exact settles_ok _
  · refine (settles_readMarked hc).bind fun r hr => ?_
    have hwithin := (readMarked_leads hr).1.within hc
    refine (settles_readParens hwithin).bind fun parens _ => ?_
    cases parens with
    | none => exact settles_ok _
    | some parens => exact settles_ok _
  · rename_i rest _ hrest
    -- no character is taken to follow the range, so a colon at its end is a missing name
    rw [if_neg (by simp)]
    have hopen := Cursor.leads_moveTo_cons hrest
    refine (settles_readIdent (hopen.within hc)).bind fun name hname => ?_
    have hleads := hopen.trans (readIdent_leads hname).1
    have hwithin := hleads.within hc
    refine (settles_readParens hwithin).bind fun parens hparens => ?_
    cases parens with
    | none => exact settles_ok _
    | some parens =>
      obtain ⟨hinside, hshorter⟩ := within_of_readParens hwithin hparens
      have hle := hleads.length_le
      simp only []
      split
      · exact (hargs.settles _ hinside (by omega)).map.bind_ok
      · exact settles_ok _
  · exact settles_ok _
  · exact settles_ok _
  · split
    · exact (settles_readMarked hc).map
    · exact settles_ok _
  · exact settles_ok _

theorem settles_readCompound : Settles source (readCompound args none c) := by
  fun_induction readCompound args none c with
  | case1 c ih =>
    refine (settles_readSimple hargs hc hlength).bind fun first hfirst => ?_
    cases first with
    | none => exact settles_ok _
    | some s =>
      have hleads := (laid_readSimple hargs.lays hc hfirst).1
      have hshorter := s.shorter
      exact (ih s (hleads.within hc) (by omega)).bind_ok

/-! ### Complex selectors and lists -/

variable {isFirst : Bool}

theorem settles_readRelative {gap : Nat} :
    Settles source (readRelative args none isFirst gap c) := by
  unfold readRelative
  split
  · rename_i hbars
    simp at hbars
  simp only []
  split
  · exact settles_error hc.place rfl
  have hcombinator : c.Leads (readCombinator isFirst gap c).next := (readCombinator_leads rfl).1
  refine (settles_passBlanks (hcombinator.within hc)).bind fun blanks hblanks => ?_
  have hleads := hcombinator.trans (passBlanks_leads hblanks)
  have hle := hleads.length_le
  have hwithin := hleads.within hc
  refine (settles_readCompound hargs hwithin (by omega)).bind fun compound hcompound => ?_
  split
  · exact settles_ok _
  · have hend := (laid_readCompound hargs.lays hwithin hcompound).1.within hwithin
    exact settles_error hend.place rfl

theorem settles_readRelatives : Settles source (readRelatives args none isFirst c) := by
  fun_induction readRelatives args none isFirst c with
  | case1 isFirst c ih =>
    refine (settles_passBlanks hc).bind fun blanks hblanks => ?_
    have hleads := passBlanks_leads hblanks
    have hle := hleads.length_le
    split
    · exact settles_ok _
    · exact settles_ok _
    · refine (settles_readRelative hargs (hleads.within hc) (by omega)).bind fun r hr => ?_
      have hmore := (laid_readRelative hargs.lays hc hleads hr).1
      have hshorter := r.shorter
      exact (ih blanks r ((hleads.trans hmore).within hc) (by omega)).bind_ok

theorem settles_readComplex : Settles source (readComplex args none c) := by
  unfold readComplex
  refine (settles_passBlanks hc).bind fun blanks hblanks => ?_
  have hleads := passBlanks_leads hblanks
  have hle := hleads.length_le
  have hwithin := hleads.within hc
  refine (settles_readRelatives hargs hwithin (by omega)).bind fun relatives hrelatives => ?_
  split
  · have hend := (laid_readRelatives hargs.lays hwithin hrelatives).leads.within hwithin
    exact settles_error hend.place rfl
  · exact settles_ok _

theorem settles_readComplexes : Settles source (readComplexes args none c) := by
  fun_induction readComplexes args none c with
  | case1 c ih =>
    refine (settles_readComplex hargs hc hlength).bind fun complex hcomplex => ?_
    have hleads := (laid_readComplex hargs.lays hc hcomplex).1
    refine (settles_passBlanks (hleads.within hc)).bind fun blanks hblanks => ?_
    have hblank := hleads.trans (passBlanks_leads hblanks)
    split
    · rename_i rest hrest
      have hcomma := hblank.trans (Cursor.leads_moveTo_cons hrest)
      have hle := hcomma.length_le
      exact (ih complex blanks rest hrest (hcomma.within hc) (by omega)).bind_ok
    · exact settles_ok _

end Readers

section Bounds

variable {source : List Char} {depth : Nat} {nested : Bool} {beyond : Option Char} {c : Cursor}

/-- **The bound on the nesting of arguments suffices**: an argument is shorter than the text that it
stands in. -/
theorem settles_readSelectorListF (hc : c.Within source) (hlength : c.length < depth) :
    Settles source (readSelectorListF depth none c) := by
  induction depth generalizing c with
  | zero => exact absurd hlength (Nat.not_lt_zero _)
  | succ depth ih =>
    have hargs : ArgsSettle source c.length (readSelectorListF depth none) :=
      ⟨laid_readSelectorListF depth none, fun d hd hshorter => ih hd (by omega)⟩
    rw [readSelectorListF]
    refine (settles_passBlanks hc).bind fun blanks hblanks => ?_
    have hleads := passBlanks_leads hblanks
    have hwithin := hleads.within hc
    refine (settles_readComplexes hargs hwithin hleads.length_le).bind
      fun complexes hcomplexes => ?_
    split
    · exact settles_ok _
    · have hend := (laid_readComplexes hargs.lays hwithin hcomplexes).1.within hwithin
      exact settles_error hend.place rfl

theorem settles_readSelectorList (hc : c.Within source) :
    Settles source (readSelectorList none c) :=
  settles_readSelectorListF hc (Nat.lt_succ_self _)

/-! ### Delimiters and declarations -/

theorem settles_declarationAt {stop : Cursor} (hc : c.Within source) :
    Settles source (declarationAt c stop) := by
  simp only [declarationAt]
  split
  · exact settles_error hc.place rfl
  · split
    · exact settles_error hc.place rfl
    · exact settles_ok _

section Delimiters

variable (hbeyond : beyond ≠ some '*') (hc : c.Within source)

include hbeyond hc

/-- The search for a delimiter moves on at every character, unless a comment opener is cut in two at
the end of the text. -/
theorem settles_nextDelimiter : Settles source (nextDelimiter beyond depth c) := by
  fun_induction nextDelimiter beyond depth c with
  | case1 => exact settles_ok _
  | case2 => exact settles_error hc.place rfl
  | case3 depth c ch rest hrest _ after hr ih =>
    exact (ih ((Cursor.leads_moveTo_quoted hrest hr).within hc)).bind_ok
  | case4 => exact settles_error hc.place rfl
  | case5 depth c ch rest hrest _ _ after hr ih =>
    exact (ih ((Cursor.leads_moveTo_comment hrest hr).within hc)).bind_ok
  | case6 =>
    rename_i hcut
    exact absurd hcut.2.2 hbeyond
  | case7 => exact settles_ok _
  | case8 =>
    rename_i ih
    exact (ih ((Cursor.leads_next _).within hc)).bind_ok

theorem settles_passBlockFrom : Settles source (passBlockFrom beyond depth c) := by
  induction hn : c.length using Nat.strongRecOn generalizing depth c with
  | ind n ih =>
    subst hn
    rw [passBlockFrom]
    refine (settles_nextDelimiter hbeyond hc).bind fun d hd => ?_
    have hleads := (nextDelimiter_leads hd).1
    have hwithin := hleads.within hc
    split
    · exact settles_error hwithin.place rfl
    · rename_i ch rest hrest
      have hshort : (d.next.moveTo rest).length < c.length :=
        Nat.lt_of_lt_of_le (Cursor.length_moveTo_lt hrest) d.noLonger
      have hmore : ∀ k, Settles source (passBlockFrom beyond k (d.next.moveTo rest)) :=
        fun k => ih _ hshort ((Cursor.leads_moveTo_cons hrest).within hwithin) rfl
      split
      · exact hmore _
      · exact settles_ok _
      · exact hmore _
      · exact hmore _
      · exact settles_error hwithin.place rfl

theorem settles_passBlock : Settles source (passBlock beyond c) :=
  (settles_passBlockFrom hbeyond (c.leads_next.within hc)).bind_ok

theorem settles_readDeclaration : Settles source (readDeclaration beyond c) :=
  (settles_nextDelimiter hbeyond hc).bind fun _ _ =>
    (settles_declarationAt hc).bind_ok

end Delimiters

/-! ### Blocks, rules and at-rules -/

/-- A reader of nodes lays out what it reads, and settles on texts shorter than a bound. -/
structure ItemsSettle (source : List Char) (bound : Nat) (items : ItemReader) : Prop where
  lays : ItemsLaid source items
  settles : ∀ (nested : Bool) (d : Cursor), d.Within source → d.length < bound →
    Settles source (items nested d)

variable {bound : Nat} {items : ItemReader}

theorem settles_readBlock (hitems : ItemsSettle source bound items) (hc : c.Within source)
    {rest : List Char} (hopen : c.rest = '\x7b' :: rest) (hlength : c.length ≤ bound) :
    Settles source (readBlock items c) := by
  have hshorter := Cursor.length_next_of_cons hopen
  exact (hitems.settles true _ (c.leads_next.within hc) (by omega)).bind_ok

section Rules

variable (hbeyond : beyond ≠ some '*') (hitems : ItemsSettle source bound items)
  (hc : c.Within source) (hlength : c.length ≤ bound)

include hbeyond hitems hc hlength

theorem settles_readRule : Settles source (readRule items beyond c) := by
  refine (settles_nextDelimiter hbeyond hc).bind fun d hd => ?_
  obtain ⟨hleads, hfound⟩ := nextDelimiter_leads hd
  have hwithin := hleads.within hc
  have hle := hleads.length_le
  split
  · exact settles_error hwithin.place rfl
  · rename_i hvalue
    obtain ⟨rest, hopen⟩ := exists_of_openBrace (Classical.not_not.1 hvalue) hfound
    -- the prelude is the text before the brace, less the blanks at its end
    obtain ⟨blanks, hblanks, _⟩ := trimSpaceRight_append (c.upTo d.next)
    have hat := hleads.isAt hc
    rw [hblanks] at hat
    have hprelude : Cursor.Within source ⟨c.pos, trimSpaceRight (c.upTo d.next)⟩ := hat.left
    refine (settles_readSelectorList hprelude).bind fun _ _ => ?_
    exact (settles_readBlock hitems hwithin hopen (by omega)).bind_ok

theorem settles_readAtRule : Settles source (readAtRule items beyond c) := by
  simp only [readAtRule]
  split
  · exact settles_error (c.leads_next.within hc).place rfl
  · have hname := c.leads_next.trans (Cursor.leads_skip c.next
      (c.next.rest.takeWhile isIdentChar).length)
    refine (settles_nextDelimiter hbeyond (hname.within hc)).bind fun d hd => ?_
    obtain ⟨hdelimiter, hfound⟩ := nextDelimiter_leads hd
    have hleads := hname.trans hdelimiter
    have hwithin := hleads.within hc
    have hle := hleads.length_le
    split
    · rename_i hvalue
      obtain ⟨rest, hopen⟩ := exists_of_openBrace hvalue hfound
      split
      · exact (settles_passBlock hbeyond hwithin).bind_ok
      · exact (settles_readBlock hitems hwithin hopen (by omega)).bind_ok
    · exact settles_ok _
    · exact settles_ok _

/-! ### Nodes -/

theorem settles_readItem : Settles source (readItem items beyond nested c) := by
  unfold readItem
  split
  · exact settles_readAtRule hbeyond hitems hc hlength
  · refine (settles_nextDelimiter hbeyond hc).bind fun _ _ => ?_
    split
    · exact (settles_readDeclaration hbeyond hc).bind_ok
    · exact settles_readRule hbeyond hitems hc hlength

end Rules

/-- **The bound on the number of steps suffices**: every node that is read takes some of the
text. -/
theorem settles_readItemsF {fuel : Nat} (hbeyond : beyond ≠ some '*') (hc : c.Within source)
    (hlength : c.length < fuel) : Settles source (readItemsF beyond fuel nested c) := by
  induction fuel generalizing nested c with
  | zero => exact absurd hlength (Nat.not_lt_zero _)
  | succ fuel ih =>
    have hitems : ItemsSettle source fuel (readItemsF beyond fuel) :=
      ⟨laid_readItemsF fuel, fun nested d hd hshorter => ih hd hshorter⟩
    rw [readItemsF]
    refine (settles_passBlanks hc).bind fun blanks hblanks => ?_
    have hleads := passBlanks_leads hblanks
    have hwithin := hleads.within hc
    have hle := hleads.length_le
    simp only []
    split
    · split
      · exact settles_error hwithin.place rfl
      · exact settles_ok _
    · split
      · exact settles_ok _
      · exact settles_error hwithin.place rfl
    · rename_i hhead
      obtain ⟨rest, hrest⟩ := List.head?_eq_some_iff.1 hhead
      have hshorter := Cursor.length_next_of_cons hrest
      exact ih (blanks.next.leads_next.within hwithin) (by omega)
    · refine (settles_readItem hbeyond hitems hwithin (by omega)).bind fun item hitem => ?_
      obtain ⟨node, after⟩ := item
      obtain ⟨hmore, hstart, hlt, hstop, _⟩ := laid_readItem hitems.lays hwithin hitem
      have hshorter : after.length < blanks.next.length := by
        refine Classical.byContradiction fun hlong => ?_
        have hsame := congrArg Cursor.pos (hmore.eq_of_length hlong)
        omega
      exact (ih (hmore.within hwithin) (by omega)).bind_ok

/-- Reading a stylesheet settles, unless its text is followed by what completes a comment opener. -/
theorem settles_readStyleSheet {content span : Span} (hcontent : content.Cuts source)
    (hbeyond : (dropBytes content.stop source).head? ≠ some '*') :
    Settles source (readStyleSheet source content span) := by
  have hwithin : Cursor.Within source ⟨content.start, slice source content⟩ :=
    hcontent.isAt_slice
  exact (settles_readItemsF hbeyond hwithin (Nat.lt_succ_self _)).bind_ok

end Bounds

end CssRune
