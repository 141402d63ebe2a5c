/-
**Blocks stepped over and blocks read.**

The block of a keyframe rule is stepped over: only its braces are counted, between one delimiter and
the next.  All other blocks are read node by node, and the search for a delimiter starts anew at
every node.  Where both can be done they come to the same end.

The reader of nodes moves on in such a way that stepping over the rest of the block, with any number
of braces open, ends where it would have ended before.  This is shown for one node of each kind, and
for all nodes of a block by induction on the number of steps.

Main results:

* `passBlockFrom_of_passBlockFrom` — a block that is stepped over in another one;
* `onTheWay_readItem`, `onTheWay_readItemsF` — nodes are on the way;
* `passBlock_of_readBlock` — **a block that can be read is stepped over to its end**.
-/

import CssRune.Proofs.Style.Delimiters

set_option autoImplicit false

namespace CssRune

/-! ### Stepping over, by the next delimiter -/

section Steps

variable {beyond : Option Char} {depth : Nat} {c d : Cursor}

theorem Cursor.moveTo_eq_next {ch : Char} {rest : List Char} (hc : c.rest = ch :: rest) :
    c.moveTo rest = c.next := by
  have hpos := (Cursor.pos_moveTo_cons hc).trans (Cursor.pos_next_cons hc).symm
  have hrest : (c.moveTo rest).rest = c.next.rest := (Cursor.rest_next hc).symm
  exact Cursor.mk.injEq .. ▸ ⟨hpos, hrest⟩

/-- What stepping over does at a delimiter. -/
def passDelimiter (beyond : Option Char) (depth : Nat) (v : Delimiter) (d : Cursor) :
    Except ParseError Cursor :=
  match v, depth with
  | .openBrace, _ => passBlockFrom beyond (depth + 1) d.next
  | .closeBrace, 0 => .ok d.next
  | .closeBrace, depth + 1 => passBlockFrom beyond depth d.next
  | .semicolon, _ => passBlockFrom beyond depth d.next
  | .none, _ => .error ⟨.expected '\x7d', d.pos⟩

/-- Stepping over goes from one delimiter to the next. -/
theorem passBlockFrom_eq (beyond : Option Char) (depth : Nat) (c : Cursor) :
    passBlockFrom beyond depth c =
      delimiterFrom beyond 0 c >>= fun r => passDelimiter beyond depth r.1 r.2 := by
  rw [passBlockFrom, delimiterFrom]
  cases hd : nextDelimiter beyond 0 c with
  | error e => rfl
  | ok r =>
    dsimp only [bind, Except.bind, Except.map, throw, throwThe, MonadExceptOf.throw, pure,
      Except.pure, passDelimiter]
    split
    · rename_i hnil
      -- there is nothing at the end of the text, so no delimiter was found
      rcases (nextDelimiter_leads hd).2 with hnone | ⟨ch, rest, hrest, _⟩
      · rw [hnone]
      · cases hnil.symm.trans hrest
    · rename_i ch rest hrest
      have hmove := Cursor.moveTo_eq_next hrest
      generalize r.next.moveTo rest = after at hmove ⊢
      subst hmove
      rfl

theorem passBlockFrom_of_found {v : Delimiter} (h : delimiterFrom beyond 0 c = .ok (v, d)) :
    passBlockFrom beyond depth c = passDelimiter beyond depth v d := by
  rw [passBlockFrom_eq, h]
  rfl

theorem length_next_of_found {v : Delimiter} (h : delimiterFrom beyond depth c = .ok (v, d))
    (hv : v ≠ .none) : d.next.length < c.length := by
  obtain ⟨r, hr, rfl, rfl⟩ := delimiterFrom_eq_ok_iff.1 h
  rcases (nextDelimiter_leads hr).2 with hnone | ⟨ch, rest, hrest, _⟩
  · exact absurd hnone hv
  · exact Nat.lt_of_lt_of_le (Cursor.length_next_of_cons hrest) r.noLonger

/-- **A block that is stepped over in another one** is on the way to the end of that one. -/
theorem passBlockFrom_of_passBlockFrom {k : Nat} {after : Cursor}
    (h : passBlockFrom beyond k c = .ok after) :
    passBlockFrom beyond (depth + (k + 1)) c = passBlockFrom beyond depth after := by
  induction hn : c.length using Nat.strongRecOn generalizing k c with
  | ind n ih =>
    subst hn
    rw [passBlockFrom_eq] at h
    obtain ⟨⟨v, d⟩, hd, h⟩ := bind_eq_ok_iff.1 h
    rw [passBlockFrom_of_found hd]
    cases v with
    | openBrace => exact ih _ (length_next_of_found hd (by simp)) h rfl
    | semicolon => exact ih _ (length_next_of_found hd (by simp)) h rfl
    | none => cases h
    | closeBrace =>
      cases k with
      | zero =>
        cases h
        rfl
      | succ k => exact ih _ (length_next_of_found hd (by simp)) h rfl

end Steps

/-! ### On the way to the end of a block -/

/-- Stepping over from the first cursor comes to the same as from the second, whatever is open. -/
def OnTheWay (beyond : Option Char) (c d : Cursor) : Prop :=
  ∀ depth, passBlockFrom beyond depth c = passBlockFrom beyond depth d

/-- Past the second cursor one brace less is open than at the first. -/
def ClosesOnTheWay (beyond : Option Char) (c d : Cursor) : Prop :=
  ∀ depth, passBlockFrom beyond (depth + 1) c = passBlockFrom beyond depth d

section OnTheWay

variable {beyond : Option Char} {c d e : Cursor}

theorem OnTheWay.trans (h : OnTheWay beyond c d) (h' : OnTheWay beyond d e) :
    OnTheWay beyond c e := fun depth => (h depth).trans (h' depth)

theorem OnTheWay.trans_closes (h : OnTheWay beyond c d) (h' : ClosesOnTheWay beyond d e) :
    ClosesOnTheWay beyond c e := fun depth => (h (depth + 1)).trans (h' depth)

theorem onTheWay_of_delimiterFrom (h : delimiterFrom beyond 0 c = delimiterFrom beyond 0 d) :
    OnTheWay beyond c d := by
  intro depth
  rw [passBlockFrom_eq, passBlockFrom_eq, h]

theorem onTheWay_of_found {v : Delimiter} (h : delimiterFrom beyond 0 c = .ok (v, d)) :
    OnTheWay beyond c (if v = .semicolon then d.next else d) := by
  split
  · rename_i hv
    subst hv
    exact fun depth => passBlockFrom_of_found h
  · exact onTheWay_of_delimiterFrom (h.trans (delimiterFrom_found h).symm)

theorem onTheWay_of_openBrace (h : delimiterFrom beyond 0 c = .ok (.openBrace, d))
    (hclose : ClosesOnTheWay beyond d.next e) : OnTheWay beyond c e :=
  fun depth => (passBlockFrom_of_found h).trans (hclose depth)

theorem closesOnTheWay_of_rest {rest : List Char} (h : c.rest = '\x7d' :: rest) :
    ClosesOnTheWay beyond c c.next :=
  fun _ => passBlockFrom_of_found (delimiterFrom_of_ofChar? h rfl)

/-! ### Nodes -/

/-- A reader of nodes is on the way when it reads in a block, and stops at a closing brace. -/
def ItemsOnTheWay (beyond : Option Char) (items : ItemReader) : Prop :=
  ∀ c nodes close, items true c = .ok (nodes, close) →
    OnTheWay beyond c close ∧ ∃ rest, close.rest = '\x7d' :: rest

variable {items : ItemReader} {block : StyleBlock} {node : StyleNode} {after : Cursor}

theorem closesOnTheWay_passBlock (h : passBlock beyond c = .ok (block, after)) :
    ClosesOnTheWay beyond c.next after := by
  obtain ⟨stop, hstop, h⟩ := bind_eq_ok_iff.1 h
  cases h
  exact fun depth => passBlockFrom_of_passBlockFrom hstop

theorem closesOnTheWay_readBlock (hitems : ItemsOnTheWay beyond items)
    (h : readBlock items c = .ok (block, after)) : ClosesOnTheWay beyond c.next after := by
  obtain ⟨⟨nodes, close⟩, hread, h⟩ := bind_eq_ok_iff.1 h
  cases h
  obtain ⟨hway, rest, hclose⟩ := hitems _ _ _ hread
  exact hway.trans_closes (closesOnTheWay_of_rest hclose)

theorem onTheWay_readDeclaration {declaration : Declaration}
    (h : readDeclaration beyond c = .ok (declaration, after)) : OnTheWay beyond c after := by
  obtain ⟨d, hd, h⟩ := bind_eq_ok_iff.1 h
  obtain ⟨_, _, h⟩ := bind_eq_ok_iff.1 h
  cases h
  exact onTheWay_of_found (delimiterFrom_eq_ok_iff.2 ⟨d, hd, rfl, rfl⟩)

theorem onTheWay_readRule (hitems : ItemsOnTheWay beyond items)
    (h : readRule items beyond c = .ok (node, after)) : OnTheWay beyond c after := by
  obtain ⟨d, hd, h⟩ := bind_eq_ok_iff.1 h
  split at h
  · cases h
  · rename_i hvalue
    obtain ⟨_, _, h⟩ := bind_eq_ok_iff.1 h
    obtain ⟨⟨b, stop⟩, hblock, h⟩ := bind_eq_ok_iff.1 h
    cases h
    have hopen := delimiterFrom_eq_ok_iff.2 ⟨d, hd, Classical.not_not.1 hvalue, rfl⟩
    exact onTheWay_of_openBrace hopen (closesOnTheWay_readBlock hitems hblock)

/-- The sign and the name of an at-rule are passed by the search for a delimiter. -/
theorem delimiterFrom_afterName (hat : c.rest.head? = some '@') :
    delimiterFrom beyond 0 c =
      delimiterFrom beyond 0 (c.next.skip (c.next.rest.takeWhile isIdentChar).length) := by
  obtain ⟨rest, hrest⟩ := List.head?_eq_some_iff.1 hat
  rw [delimiterFrom_of_inert hrest (by decide)]
  refine delimiterFrom_skip _ fun ch hch => ?_
  have hname := List.takeWhile_prefix isIdentChar (l := c.next.rest)
  rw [← List.prefix_iff_eq_take.1 hname] at hch
  exact List.mem_takeWhile_imp hch

theorem onTheWay_readAtRule (hitems : ItemsOnTheWay beyond items) (hat : c.rest.head? = some '@')
    (h : readAtRule items beyond c = .ok (node, after)) : OnTheWay beyond c after := by
  simp only [readAtRule] at h
  split at h
  · cases h
  · obtain ⟨d, hd, h⟩ := bind_eq_ok_iff.1 h
    have hfound : delimiterFrom beyond 0 c = .ok (d.value, d.next) :=
      (delimiterFrom_afterName hat).trans (delimiterFrom_eq_ok_iff.2 ⟨d, hd, rfl, rfl⟩)
    split at h
    · rename_i hvalue
      rw [hvalue] at hfound
      refine onTheWay_of_openBrace hfound ?_
      split at h
      · obtain ⟨⟨b, stop⟩, hb, h⟩ := bind_eq_ok_iff.1 h
        cases h
        exact closesOnTheWay_passBlock hb
      · obtain ⟨⟨b, stop⟩, hb, h⟩ := bind_eq_ok_iff.1 h
        cases h
        exact closesOnTheWay_readBlock hitems hb
    · rename_i hvalue
      cases h
      have hway := onTheWay_of_found hfound
      rwa [if_pos hvalue] at hway
    · rename_i hsemicolon
      cases h
      have hway := onTheWay_of_found hfound
      rwa [if_neg hsemicolon] at hway

/-- **Every node is on the way** to the end of the block that it stands in. -/
theorem onTheWay_readItem (hitems : ItemsOnTheWay beyond items)
    (h : readItem items beyond true c = .ok (node, after)) : OnTheWay beyond c after := by
  unfold readItem at h
  split at h
  · rename_i hat
    exact onTheWay_readAtRule hitems hat h
  · obtain ⟨d, _, h⟩ := bind_eq_ok_iff.1 h
    split at h
    · obtain ⟨⟨declaration, stop⟩, hd, h⟩ := bind_eq_ok_iff.1 h
      cases h
      exact onTheWay_readDeclaration hd
    · exact onTheWay_readRule hitems h

/-- **The nodes of a block are on the way to its end**, whatever the bound on the steps. -/
theorem onTheWay_readItemsF (fuel : Nat) : ItemsOnTheWay beyond (readItemsF beyond fuel) := by
  induction fuel with
  | zero =>
    intro c nodes close h
    cases h
  | succ fuel ih =>
    intro c nodes close h
    rw [readItemsF] at h
    obtain ⟨blanks, hblanks, h⟩ := bind_eq_ok_iff.1 h
    have hway : OnTheWay beyond c blanks.next :=
      onTheWay_of_delimiterFrom (delimiterFrom_of_passBlanks hblanks)
    simp only [] at h
    split at h
    · cases h
    · rename_i hhead
      cases h
      exact ⟨hway, List.head?_eq_some_iff.1 hhead⟩
    · rename_i hhead
      obtain ⟨rest, hrest⟩ := List.head?_eq_some_iff.1 hhead
      have hfound : delimiterFrom beyond 0 blanks.next = .ok (.semicolon, blanks.next) :=
        delimiterFrom_of_ofChar? hrest rfl
      have hnext := onTheWay_of_found hfound
      obtain ⟨hmore, hclose⟩ := ih _ _ _ h
      exact ⟨(hway.trans hnext).trans hmore, hclose⟩
    · obtain ⟨⟨node, after⟩, hnode, h⟩ := bind_eq_ok_iff.1 h
      obtain ⟨⟨more, finish⟩, hmore, h⟩ := bind_eq_ok_iff.1 h
      cases h
      obtain ⟨hrest, hclose⟩ := ih _ _ _ hmore
      exact ⟨(hway.trans (onTheWay_readItem ih hnode)).trans hrest, hclose⟩

end OnTheWay

/-- **A block that can be read is stepped over to its end.**  Wherever the block at a cursor can be
read, stepping over it succeeds as well, with the same range and up to the same cursor. -/
theorem passBlock_of_readBlock {beyond : Option Char} {fuel : Nat} {c after : Cursor}
    {block : StyleBlock} (h : readBlock (readItemsF beyond fuel) c = .ok (block, after)) :
    passBlock beyond c = .ok (⟨[], block.span⟩, after) := by
  obtain ⟨⟨nodes, close⟩, hread, h⟩ := bind_eq_ok_iff.1 h
  obtain ⟨rfl, rfl⟩ := Prod.mk.inj (pure_eq_ok_iff.1 h)
  obtain ⟨hway, rest, hclose⟩ := onTheWay_readItemsF fuel _ _ _ hread
  have hpass : passBlockFrom beyond 0 c.next = .ok close.next :=
    (hway 0).trans (passBlockFrom_of_found (delimiterFrom_of_ofChar? hclose rfl))
  rw [passBlock, hpass]
  rfl

/-- A block with a declaration, at-rules and a nested rule, and with braces in brackets, a comment
and a string; some text follows it. -/
def mixedBlock : List Char :=
  ("\x7b;a:url(;\x7b)/*\x7d*/;@media (x)\x7b&:hover[b='\x7d']\x7bc:d\x7d\x7d" ++
    "@keyframes k\x7bto\x7be:f\x7d\x7d@g\x7d h").toList

theorem passBlock_of_readBlock_mixedBlock :
    ∃ block after, readBlock (readItemsF none 100) ⟨4, mixedBlock⟩ = .ok (block, after) ∧
      block.children.length = 4 ∧ block.span = ⟨4, 76⟩ ∧ after = ⟨76, [' ', 'h']⟩ ∧
      passBlock none ⟨4, mixedBlock⟩ = .ok (⟨[], block.span⟩, after) := by
  have heval : (readBlock (readItemsF none 100) ⟨4, mixedBlock⟩).toOption.map
      (fun r => (r.1.children.length, r.1.span, r.2)) =
        some (4, ⟨4, 76⟩, ⟨76, [' ', 'h']⟩) := by decide +kernel
  obtain ⟨⟨block, after⟩, hread, heval⟩ := Option.map_eq_some_iff.1 heval
  rw [toOption_eq_some_iff] at hread
  simp only [Prod.mk.injEq] at heval
  obtain ⟨hlength, hspan, hafter⟩ := heval
  exact ⟨block, after, hread, hlength, hspan, hafter, passBlock_of_readBlock hread⟩

end CssRune
