/-
**What a reader takes, whatever follows.**

The readers of selectors stop by themselves: an identifier at the first character that is none of
its own, a bracket at the one that closes it, blanks at the first character that is not blank.  This
module says of each of them which texts it takes and what may follow, so that the same text can be
read again in another place.

Main results:

* `readIdent_identBefore`, `IdentBefore.readIdent` — **what is read as an identifier**;
* `enclosed_of_readParens`, `Enclosed.readParens` — **what stands between brackets**;
* `blank_of_passBlanks`, `Blank.passBlanks` — **what is passed as blank**.
-/

import CssRune.Proofs.Style.Selectors

set_option autoImplicit false

namespace CssRune

open Text

/-! ### Escapes -/

namespace Text

/-- Whether a text ends within an escape: its last backslash has nothing to take along. -/
def endsInEscape : List Char → Bool
  | [] => false
  | '\\' :: cs =>
    match cs with
    | [] => true
    | _ :: cs => endsInEscape cs
  | _ :: cs => endsInEscape cs

variable {c : Char} {xs : List Char}

theorem endsInEscape_cons (h : c ≠ '\\') (cs : List Char) :
    endsInEscape (c :: cs) = endsInEscape cs := by
  rw [endsInEscape.eq_def]
  split
  · contradiction
  · rename_i heq
    exact absurd (List.cons.inj heq).1 h
  · rename_i heq
    rw [(List.cons.inj heq).2]

theorem endsInEscape_append (h : endsInEscape xs = false) (ys : List Char) :
    endsInEscape (xs ++ ys) = endsInEscape ys := by
  fun_induction endsInEscape xs with
  | case1 => rfl
  | case2 => cases h
  | case3 c cs ih => exact ih h
  | case4 c cs hc ih => rw [List.cons_append, endsInEscape_cons hc, ih h]

theorem endsInEscape_concat (h : c ≠ '\\') (xs : List Char) : endsInEscape (xs ++ [c]) = false := by
  fun_induction endsInEscape xs with
  | case1 => rw [List.nil_append, endsInEscape_cons h, endsInEscape]
  | case2 => rfl
  | case3 d cs ih => exact ih
  | case4 d cs hd ih => rw [List.cons_append, endsInEscape_cons hd, ih]

theorem endsInEscape_append_of_nil {ys : List Char} (h : endsInEscape xs = true → ys = []) :
    endsInEscape (xs ++ ys) = (endsInEscape xs || endsInEscape ys) := by
  cases hxs : endsInEscape xs with
  | false => simp [endsInEscape_append hxs]
  | true => simp [h hxs, hxs]

end Text

/-! ### Identifiers -/

/-- Characters that end an identifier. -/
def breaksIdent (c : Char) : Bool := c != '\\' && !isIdentChar c

theorem afterIdent_cons_of_isIdentChar {c : Char} (h : isIdentChar c = true) (cs : List Char) :
    afterIdent (c :: cs) = afterIdent cs := by
  rw [afterIdent.eq_def]
  split
  · contradiction
  · rename_i heq
    rw [(List.cons.inj heq).1] at h
    cases h
  · rename_i heq
    cases heq
    rw [if_pos h]

variable {c : Cursor} {rest name cs after text : List Char}

/-- An identifier ends before a character that breaks it. -/
theorem afterIdent_of_breaks (h : ∀ c ∈ rest.head?, breaksIdent c = true) :
    afterIdent rest = rest := by
  cases rest with
  | nil => rfl
  | cons c cs =>
    have hc : breaksIdent c = true := h c rfl
    simp only [breaksIdent, Bool.and_eq_true, bne_iff_ne, Bool.not_eq_true'] at hc
    rw [afterIdent.eq_def]
    split
    · contradiction
    · rename_i heq
      exact absurd (List.cons.inj heq).1 hc.1
    · rename_i heq
      cases heq
      rw [if_neg (by simp [hc.2])]

/-- A text is an identifier where `rest` follows it. -/
structure IdentBefore (name rest : List Char) : Prop where
  ne_nil : name ≠ []
  whole : afterIdent name = []
  escape : Text.endsInEscape name = true → rest = []
  breaks : ∀ c ∈ rest.head?, breaksIdent c = true

theorem afterIdent_append (hwhole : afterIdent name = [])
    (hescape : endsInEscape name = true → rest = [])
    (hbreaks : ∀ c ∈ rest.head?, breaksIdent c = true) : afterIdent (name ++ rest) = rest := by
  fun_induction afterIdent name with
  | case1 => exact afterIdent_of_breaks hbreaks
  | case2 => rw [hescape rfl]; rfl
  | case3 c cs ih => exact ih hwhole hescape
  | case4 c cs hne hc ih =>
    rw [List.cons_append, afterIdent_cons_of_isIdentChar hc]
    refine ih hwhole ?_
    rwa [endsInEscape_cons hne] at hescape
  | case5 => cases hwhole

/-- What an identifier takes from the front of a text. -/
theorem exists_append_afterIdent (cs : List Char) :
    ∃ name, cs = name ++ afterIdent cs ∧ afterIdent name = [] ∧
      (endsInEscape name = true → afterIdent cs = []) ∧
      ∀ c ∈ (afterIdent cs).head?, breaksIdent c = true := by
  fun_induction afterIdent cs with
  | case1 => exact ⟨[], rfl, rfl, fun _ => rfl, by simp⟩
  | case2 => exact ⟨['\\'], rfl, rfl, fun _ => rfl, by simp⟩
  | case3 c cs ih =>
    obtain ⟨name, hcs, hrest⟩ := ih
    exact ⟨'\\' :: c :: name, by rw [List.cons_append, List.cons_append, ← hcs], hrest⟩
  | case4 c cs hne hc ih =>
    obtain ⟨name, hcs, hwhole, hescape, hbreaks⟩ := ih
    refine ⟨c :: name, by rw [List.cons_append, ← hcs], ?_, ?_, hbreaks⟩
    · rw [afterIdent_cons_of_isIdentChar hc, hwhole]
    · rwa [endsInEscape_cons hne]
  | case5 c cs hne hc =>
    refine ⟨[], rfl, rfl, by simp [endsInEscape], ?_⟩
    intro d hd
    cases hd
    simpa [breaksIdent, hc] using hne

/-- **What is read as an identifier** is one where the rest follows it. -/
theorem readIdent_identBefore {r : Step String c} (h : readIdent c = .ok r) :
    ∃ name, c.rest = name ++ r.next.rest ∧ IdentBefore name r.next.rest ∧
      r.value = String.ofList name := by
  obtain ⟨hleads, hvalue⟩ := readIdent_leads h
  have hnext : r.next.rest = afterIdent c.rest := by
    simp only [readIdent] at h
    split at h
    · cases h
      rfl
    · cases h
  obtain ⟨name, hname, hwhole, hescape, hbreaks⟩ := exists_append_afterIdent c.rest
  rw [← hnext] at hname hescape hbreaks
  refine ⟨name, hname, ⟨?_, hwhole, hescape, hbreaks⟩, ?_⟩
  · rintro rfl
    have hshorter := r.shorter
    rw [Cursor.length, Cursor.length, hname] at hshorter
    exact Nat.lt_irrefl _ hshorter
  · rw [← Cursor.upTo_of_append hname, ← hvalue, String.ofList_toList]

/-- An identifier is read where it stands. -/
theorem IdentBefore.readIdent (h : IdentBefore name rest) (hc : c.rest = name ++ rest) :
    ∃ r, CssRune.readIdent c = .ok r ∧ r.value = String.ofList name ∧ r.next.rest = rest := by
  have hafter : afterIdent c.rest = rest := by
    rw [hc]
    exact afterIdent_append h.whole h.escape h.breaks
  have hlt : (c.moveTo (afterIdent c.rest)).length < c.length := by
    have hpos := List.length_pos_iff.2 h.ne_nil
    rw [hafter, Cursor.length_moveTo, Cursor.length, hc, List.length_append]
    omega
  have hupTo : c.upTo (c.moveTo (afterIdent c.rest)) = name := by
    rw [hafter]
    exact Cursor.upTo_moveTo hc
  refine ⟨⟨String.ofList (c.upTo (c.moveTo (afterIdent c.rest))), _, hlt⟩, dif_pos hlt, ?_, hafter⟩
  rw [hupTo]

theorem IdentBefore.breaks_head (h : IdentBefore name rest) {c : Char} (hc : c ∈ name.head?) :
    breaksIdent c = false := by
  cases hb : breaksIdent c with
  | false => rfl
  | true =>
    have hall : ∀ d ∈ name.head?, breaksIdent d = true := by
      intro d hd
      rwa [Option.some.inj (hd.symm.trans hc)]
    exact absurd ((afterIdent_of_breaks hall).symm.trans h.whole) h.ne_nil

theorem IdentBefore.before {rest' : List Char} (h : IdentBefore name rest)
    (hescape : endsInEscape name = true → rest' = [])
    (hbreaks : ∀ c ∈ rest'.head?, breaksIdent c = true) : IdentBefore name rest' :=
  ⟨h.ne_nil, h.whole, hescape, hbreaks⟩

/-- A text of identifier characters holds no escape and nothing of it is left over. -/
theorem afterIdent_of_isIdentChar (h : ∀ c ∈ name, isIdentChar c = true) :
    afterIdent name = [] ∧ endsInEscape name = false := by
  induction name with
  | nil => exact ⟨rfl, rfl⟩
  | cons c cs ih =>
    obtain ⟨hc, hcs⟩ := List.forall_mem_cons.1 h
    have hne : c ≠ '\\' := by
      rintro rfl
      cases hc
    rw [afterIdent_cons_of_isIdentChar hc, endsInEscape_cons hne]
    exact ih hcs

/-- An identifier without escapes is made of identifier characters. -/
theorem isIdentChar_of_afterIdent (h : afterIdent name = []) (hbackslash : '\\' ∉ name) :
    ∀ c ∈ name, isIdentChar c = true := by
  fun_induction afterIdent name with
  | case1 => simp
  | case2 => simp at hbackslash
  | case3 => simp at hbackslash
  | case4 c cs _ hc ih =>
    exact List.forall_mem_cons.2 ⟨hc, ih h fun hcs => hbackslash (List.mem_cons_of_mem _ hcs)⟩
  | case5 => cases h

theorem identBefore_of_isIdentChar (hne : name ≠ []) (hname : ∀ c ∈ name, isIdentChar c = true)
    (hbreaks : ∀ c ∈ rest.head?, breaksIdent c = true) : IdentBefore name rest := by
  obtain ⟨hwhole, hescape⟩ := afterIdent_of_isIdentChar hname
  exact ⟨hne, hwhole, by simp [hescape], hbreaks⟩

/-! ### Brackets -/

/-- The two kinds of quotes. -/
inductive Quote where
  | single
  | double

/-- The character of a quote. -/
def Quote.char : Quote → Char
  | single => '\''
  | double => '"'

/-- The quote that a character opens. -/
def quote? (c : Char) : Option Quote :=
  if c = '"' then some .double else if c = '\'' then some .single else none

theorem quote?_eq_some_iff {c : Char} {q : Quote} : quote? c = some q ↔ c = q.char := by
  unfold quote?
  by_cases h : c = '"'
  · subst h
    cases q <;> simp [Quote.char]
  · by_cases h' : c = '\''
    · subst h'
      cases q <;> simp [Quote.char]
    · cases q <;> simp [h, h', Quote.char]

theorem quote?_eq_none_iff {c : Char} : quote? c = none ↔ ¬(c = '"' ∨ c = '\'') := by
  unfold quote?
  by_cases h : c = '"'
  · simp [h]
  · by_cases h' : c = '\''
    · simp [h']
    · simp [h, h']

/-- What the search for a closing bracket is in the middle of. -/
inductive BracketState where
  /-- Outside of strings, with `depth` more brackets open. -/
  | outside (depth : Nat)
  /-- In a string. -/
  | quoted (quote : Quote) (depth : Nat)
  /-- In a string, after a backslash. -/
  | escaped (quote : Quote) (depth : Nat)

/-- One character of the search; there is no next state after the bracket that is looked for. -/
def BracketState.step (open_ close : Char) : BracketState → Char → Option BracketState
  | outside depth, c =>
    match quote? c with
    | some quote => some (quoted quote depth)
    | none =>
      if c = close ∧ depth = 0 then none
      else some (outside (if c = open_ then depth + 1 else if c = close then depth - 1 else depth))
  | quoted quote depth, c =>
    if c = '\\' then some (escaped quote depth)
    else if c = quote.char then some (outside depth)
    else some (quoted quote depth)
  | escaped quote depth, _ => some (quoted quote depth)

/-- The search through a text. -/
def scanBrackets (open_ close : Char) : BracketState → List Char → Option BracketState
  | s, [] => some s
  | s, c :: cs => (s.step open_ close c).bind fun s => scanBrackets open_ close s cs

/-- A text that can stand between two brackets. -/
def Enclosed (open_ close : Char) (inner : List Char) : Prop :=
  scanBrackets open_ close (.outside 0) inner = some (.outside 0)

section Brackets

variable {open_ close : Char}

theorem scanBrackets_append (s : BracketState) (xs ys : List Char) :
    scanBrackets open_ close s (xs ++ ys) =
      (scanBrackets open_ close s xs).bind fun s => scanBrackets open_ close s ys := by
  induction xs generalizing s with
  | nil => rfl
  | cons c xs ih =>
    rw [List.cons_append, scanBrackets, scanBrackets, Option.bind_assoc]
    exact congrArg _ (funext fun s => ih s)

theorem scanBrackets_cons_of_step {s s' : BracketState} {c : Char}
    (h : s.step open_ close c = some s') (cs : List Char) :
    scanBrackets open_ close s (c :: cs) = scanBrackets open_ close s' cs := by
  rw [scanBrackets, h, Option.bind_some]

variable {c : Cursor} {quote : Quote} {depth : Nat} {inner rest : List Char}

/-- The rest of a string, as the search goes through it. -/
theorem scanBrackets_of_afterQuoted {cs after : List Char} (depth : Nat)
    (h : afterQuoted quote.char cs = some after) :
    ∃ body, cs = body ++ after ∧
      scanBrackets open_ close (.quoted quote depth) body = some (.outside depth) := by
  fun_induction afterQuoted quote.char cs with
  | case1 => cases h
  | case2 => cases h
  | case3 c cs ih =>
    obtain ⟨body, rfl, hscan⟩ := ih h
    exact ⟨'\\' :: c :: body, rfl, hscan⟩
  | case4 cs hne =>
    cases h
    refine ⟨[quote.char], rfl, ?_⟩
    cases quote <;> rfl
  | case5 c cs hne hc ih =>
    obtain ⟨body, rfl, hscan⟩ := ih h
    have hstep : BracketState.step open_ close (.quoted quote depth) c =
        some (.quoted quote depth) := by
      rw [BracketState.step, if_neg hne, if_neg hc]
    exact ⟨c :: body, rfl, by rw [scanBrackets_cons_of_step hstep, hscan]⟩

/-- A string that the search leaves again is read as a string. -/
theorem afterQuoted_of_scanBrackets {depth' : Nat} {text : List Char}
    (h : scanBrackets open_ close (.quoted quote depth) text = some (.outside depth')) :
    ∃ tail, scanBrackets open_ close (.outside depth) tail = some (.outside depth') ∧
      ∀ rest, afterQuoted quote.char (text ++ rest) = some (tail ++ rest) := by
  fun_induction afterQuoted quote.char text with
  | case1 => cases h
  | case2 => cases h
  | case3 c cs ih =>
    obtain ⟨tail, htail, hread⟩ := ih h
    refine ⟨tail, htail, ?_⟩
    intro rest
    rw [← hread rest]
    rfl
  | case4 cs hne =>
    rw [scanBrackets, BracketState.step, if_neg hne, if_pos rfl, Option.bind_some] at h
    refine ⟨cs, h, ?_⟩
    intro rest
    rw [List.cons_append, afterQuoted]
    · rw [if_pos rfl]
    · exact fun heq => hne heq
  | case5 c cs hne hc ih =>
    rw [scanBrackets, BracketState.step, if_neg hne, if_neg hc, Option.bind_some] at h
    obtain ⟨tail, htail, hread⟩ := ih h
    refine ⟨tail, htail, ?_⟩
    intro rest
    rw [← hread rest, List.cons_append, afterQuoted]
    · rw [if_neg hc]
    · exact fun heq => hne heq

/-- The search for a closing bracket goes through what it encloses. -/
theorem scanBrackets_of_closingBracket {s : Step Unit c}
    (h : closingBracket open_ close depth c = .ok (some s)) :
    ∃ inner, c.rest = inner ++ close :: s.next.rest ∧
      scanBrackets open_ close (.outside depth) inner = some (.outside 0) := by
  fun_induction closingBracket open_ close depth c with
  | case1 => simp at h
  | case2 => cases h
  | case3 depth c ch rest hc hquote after hr ih =>
    obtain ⟨p, hp, h⟩ := bind_eq_ok_iff.1 h
    obtain ⟨q, rfl, rfl⟩ := Option.map_eq_some_iff.1 (pure_eq_ok_iff.1 h)
    obtain ⟨inner, hin, hscan⟩ := ih hp
    cases hq : quote? ch with
    | none => exact absurd hquote (quote?_eq_none_iff.1 hq)
    | some quote =>
      obtain rfl := quote?_eq_some_iff.1 hq
      obtain ⟨body, rfl, hbody⟩ : ∃ body, rest = body ++ after ∧
          scanBrackets open_ close (.quoted quote depth) body = some (.outside depth) :=
        scanBrackets_of_afterQuoted depth hr
      refine ⟨quote.char :: (body ++ inner), ?_, ?_⟩
      · rw [hc, List.cons_append, List.append_assoc]
        exact congrArg _ (congrArg _ hin)
      · have hstep : BracketState.step open_ close (.outside depth) quote.char =
            some (.quoted quote depth) := by
          rw [BracketState.step, hq]
        rw [scanBrackets_cons_of_step hstep, scanBrackets_append, hbody, Option.bind_some, hscan]
  | case4 depth c ch rest hc hquote hclose =>
    obtain ⟨rfl, rfl⟩ := hclose
    cases h
    exact ⟨[], hc, rfl⟩
  | case5 depth c ch rest hc hquote hclose deeper =>
    rename_i ih
    obtain ⟨p, hp, h⟩ := bind_eq_ok_iff.1 h
    obtain ⟨q, rfl, rfl⟩ := Option.map_eq_some_iff.1 (pure_eq_ok_iff.1 h)
    obtain ⟨inner, hin, hscan⟩ := ih hp
    refine ⟨ch :: inner, ?_, ?_⟩
    · rw [Cursor.rest_next hc] at hin
      rw [hc, hin]
      rfl
    · rw [scanBrackets, BracketState.step, quote?_eq_none_iff.2 hquote]
      simp only [if_neg hclose, Option.bind_some]
      exact hscan

/-- A string at the front of what is enclosed is read as a string. -/
theorem exists_afterQuoted_of_scanBrackets (hclose : quote? close = none) {ch : Char}
    {tail : List Char} (hquote : ch = '"' ∨ ch = '\'') (htext : ch :: tail = inner ++ close :: rest)
    (hscan : scanBrackets open_ close (.outside depth) inner = some (.outside 0)) :
    ∃ more, afterQuoted ch tail = some (more ++ close :: rest) ∧
      scanBrackets open_ close (.outside depth) more = some (.outside 0) := by
  cases inner with
  | nil =>
    -- the bracket itself is no quote
    rw [(List.cons.inj htext).1] at hquote
    exact absurd hquote (quote?_eq_none_iff.1 hclose)
  | cons d inner =>
    cases htext
    cases hq : quote? ch with
    | none => exact absurd hquote (quote?_eq_none_iff.1 hq)
    | some quote =>
      rw [scanBrackets, BracketState.step, hq, Option.bind_some] at hscan
      obtain ⟨more, hmore, hread⟩ := afterQuoted_of_scanBrackets hscan
      rw [quote?_eq_some_iff.1 hq]
      exact ⟨more, hread _, hmore⟩

/-- A bracket is found behind what it can enclose. -/
theorem closingBracket_of_scanBrackets (hclose : quote? close = none)
    (hc : c.rest = inner ++ close :: rest)
    (hscan : scanBrackets open_ close (.outside depth) inner = some (.outside 0)) :
    ∃ s, closingBracket open_ close depth c = .ok (some s) ∧ s.next.rest = rest := by
  fun_induction closingBracket open_ close depth c generalizing inner with
  | case1 depth c hnil => simp [hnil] at hc
  | case2 depth c ch tail htext hquote hr =>
    obtain ⟨more, hmore, _⟩ :=
      exists_afterQuoted_of_scanBrackets hclose hquote (htext.symm.trans hc) hscan
    rw [hr] at hmore
    cases hmore
  | case3 depth c ch tail htext hquote after hr ih =>
    obtain ⟨more, hmore, hscan'⟩ :=
      exists_afterQuoted_of_scanBrackets hclose hquote (htext.symm.trans hc) hscan
    rw [hr] at hmore
    obtain ⟨s, hs, hrest⟩ := ih (Option.some.inj hmore) hscan'
    exact ⟨_, by rw [hs]; rfl, hrest⟩
  | case4 depth c ch tail htext hquote hfound =>
    cases inner with
    | nil => exact ⟨_, rfl, (List.cons.inj (htext.symm.trans hc)).2⟩
    | cons d inner =>
      obtain ⟨rfl, _⟩ := List.cons.inj (htext.symm.trans hc)
      rw [scanBrackets, BracketState.step, quote?_eq_none_iff.2 hquote] at hscan
      simp [hfound] at hscan
  | case5 depth c ch tail htext hquote hfound deeper =>
    rename_i ih
    cases inner with
    | nil =>
      obtain rfl := (List.cons.inj (htext.symm.trans hc)).1
      cases hscan
      exact absurd ⟨rfl, rfl⟩ hfound
    | cons d inner =>
      obtain ⟨rfl, rfl⟩ := List.cons.inj (htext.symm.trans hc)
      rw [scanBrackets, BracketState.step, quote?_eq_none_iff.2 hquote] at hscan
      simp only [if_neg hfound, Option.bind_some] at hscan
      obtain ⟨s, hs, hrest⟩ := ih (Cursor.rest_next htext) hscan
      exact ⟨_, by rw [hs]; rfl, hrest⟩

end Brackets

/-- **What stands between round brackets.** -/
theorem enclosed_of_readParens {p : Step Cursor c} (h : readParens c = .ok (some p)) :
    ∃ inner, c.rest = '(' :: (inner ++ ')' :: p.next.rest) ∧ p.value = ⟨c.pos + 1, inner⟩ ∧
      Enclosed '(' ')' inner := by
  unfold readParens at h
  split at h
  · rename_i rest hc
    obtain ⟨closed, hclosed, h⟩ := bind_eq_ok_iff.1 h
    cases closed with
    | none => cases h
    | some s =>
      obtain ⟨inner, hin, hscan⟩ := scanBrackets_of_closingBracket hclosed
      have hrest : rest = (inner ++ [')']) ++ s.next.rest := by
        rw [List.append_assoc]
        exact hin
      cases h
      refine ⟨inner, hc.trans (congrArg _ hin), ?_, hscan⟩
      show (⟨c.pos + 1, ((c.moveTo rest).upTo s.next).dropLast⟩ : Cursor) = _
      rw [Cursor.upTo_of_append (c := c.moveTo rest) hrest, List.dropLast_concat]
  · simp at h

/-- Round brackets are read with what they enclose. -/
theorem Enclosed.readParens {inner : List Char} (h : Enclosed '(' ')' inner)
    (hc : c.rest = '(' :: (inner ++ ')' :: rest)) :
    ∃ p, CssRune.readParens c = .ok (some p) ∧ p.value.rest = inner ∧ p.next.rest = rest := by
  unfold CssRune.readParens
  split
  · rename_i tail htext
    have htail : tail = inner ++ ')' :: rest := (List.cons.inj (htext.symm.trans hc)).2
    obtain ⟨s, hs, hrest⟩ :=
      closingBracket_of_scanBrackets (c := c.moveTo tail) (by decide) htail h
    have hupTo : (c.moveTo tail).upTo s.next = inner ++ [')'] := by
      refine Cursor.upTo_of_append ?_
      rw [hrest, List.append_assoc]
      exact htail
    rw [hs]
    refine ⟨_, rfl, ?_, hrest⟩
    show ((c.moveTo tail).upTo s.next).dropLast = inner
    rw [hupTo, List.dropLast_concat]
  · rename_i hne
    exact absurd hc (hne _)

/-- Without an opening bracket there is nothing between brackets. -/
theorem readParens_eq_none_iff : readParens c = .ok none ↔ c.rest.head? ≠ some '(' := by
  unfold readParens
  split
  · rename_i rest hc
    have hhead : c.rest.head? = some '(' := by
      rw [hc]
      rfl
    refine ⟨fun h => ?_, fun hne => absurd hhead hne⟩
    obtain ⟨closed, _, h⟩ := bind_eq_ok_iff.1 h
    cases closed with
    | none => cases h
    | some s => cases h
  · rename_i hne
    simp only [true_iff]
    intro hhead
    obtain ⟨rest, hrest⟩ := List.head?_eq_some_iff.1 hhead
    exact hne rest hrest

/-! ### Blanks -/

/-- Blanks and comments. -/
inductive Blank : List Char → Prop
  | nil : Blank []
  | space {c : Char} {text : List Char} (hc : Text.isSpace c = true) (h : Blank text) :
      Blank (c :: text)
  | comment {body text : List Char} (hbody : ∀ rest, Text.afterComment (body ++ rest) = some rest)
      (h : Blank text) : Blank ('/' :: '*' :: (body ++ text))

/-- Characters at which no blanks and comments start. -/
def isSolid (c : Char) : Bool := !Text.isSpace c && c != '/'

/-- The rest of a comment ends it wherever it stands. -/
theorem exists_append_afterComment (h : afterComment cs = some after) :
    ∃ body, body ≠ [] ∧ cs = body ++ after ∧
      ∀ rest, afterComment (body ++ rest) = some rest := by
  fun_induction afterComment cs with
  | case1 => cases h
  | case2 cs =>
    cases h
    exact ⟨['*', '/'], by simp, rfl, fun _ => rfl⟩
  | case3 c cs hne ih =>
    obtain ⟨body, hbody, rfl, hread⟩ := ih h
    refine ⟨c :: body, by simp, rfl, ?_⟩
    intro rest
    rw [List.cons_append, afterComment, hread]
    -- what comes next belongs to the comment already
    intro tail hc htail
    obtain ⟨d, body, rfl⟩ := List.exists_cons_of_ne_nil hbody
    rw [(List.cons.inj htail).1] at hne
    exact hne _ hc rfl

theorem passBlanks_of_isSolid (h : ∀ ch ∈ c.rest.head?, isSolid ch = true) :
    passBlanks c = .ok ⟨(), c, c.length_le_self⟩ := by
  rw [passBlanks]
  split
  · rfl
  · rename_i ch rest hc
    have hch : isSolid ch = true := h ch (by rw [hc]; rfl)
    simp only [isSolid, Bool.and_eq_true, Bool.not_eq_true', bne_iff_ne] at hch
    rw [if_neg (by simp [hch.1]), if_neg (by simp [hch.2])]

/-- **Blanks are passed** up to a character that is not blank. -/
theorem Blank.passBlanks (h : Blank text) (hrest : ∀ ch ∈ rest.head?, isSolid ch = true)
    (hc : c.rest = text ++ rest) : ∃ r, CssRune.passBlanks c = .ok r ∧ r.next.rest = rest := by
  induction h generalizing c with
  | nil =>
    have hsolid : ∀ ch ∈ c.rest.head?, isSolid ch = true := by
      rw [hc]
      exact hrest
    exact ⟨_, passBlanks_of_isSolid hsolid, hc⟩
  | @space ch text hch _ ih =>
    obtain ⟨r, hr, hnext⟩ := ih (c := c.next) (Cursor.rest_next hc)
    rw [CssRune.passBlanks]
    split
    · rename_i hnil
      rw [hnil] at hc
      cases hc
    · rename_i d tail hd
      obtain ⟨rfl, rfl⟩ := List.cons.inj (hd.symm.trans hc)
      rw [if_pos hch, hr]
      exact ⟨_, rfl, hnext⟩
  | @comment body text hbody _ ih =>
    rw [CssRune.passBlanks]
    split
    · rename_i hnil
      rw [hnil] at hc
      cases hc
    · rename_i d tail hd
      obtain ⟨rfl, rfl⟩ := List.cons.inj (hd.symm.trans hc)
      rw [if_neg (by decide), if_pos ⟨rfl, rfl⟩]
      have hafter : afterComment (('*' :: (body ++ text) ++ rest).drop 1) =
          some (text ++ rest) := by
        rw [List.cons_append, List.drop_succ_cons, List.drop_zero, List.append_assoc, hbody]
      split
      · rename_i hr
        cases hr.symm.trans hafter
      · rename_i after hr
        obtain ⟨r, hr', hnext⟩ :=
          ih (c := c.moveTo after) (Option.some.inj (hr.symm.trans hafter))
        rw [hr']
        exact ⟨_, rfl, hnext⟩

/-- **What is passed as blank.** -/
theorem blank_of_passBlanks {r : Pace Unit c} (h : passBlanks c = .ok r) :
    ∃ text, c.rest = text ++ r.next.rest ∧ Blank text := by
  fun_induction passBlanks c with
  | case1 c hc =>
    injection h with h
    exact ⟨[], by rw [← h]; rfl, .nil⟩
  | case2 c ch rest hc hspace ih =>
    obtain ⟨p, hp, h⟩ := bind_eq_ok_iff.1 h
    obtain ⟨text, htext, hblank⟩ := ih hp
    rw [Cursor.rest_next hc] at htext
    cases h
    exact ⟨ch :: text, hc.trans (congrArg _ htext), .space hspace hblank⟩
  | case3 => cases h
  | case4 c ch rest hc _ hcomment after hr ih =>
    obtain ⟨p, hp, h⟩ := bind_eq_ok_iff.1 h
    obtain ⟨text, htext, hblank⟩ := ih hp
    obtain ⟨rfl, hstar⟩ := hcomment
    obtain ⟨tail, rfl⟩ := List.head?_eq_some_iff.1 hstar
    obtain ⟨body, _, hbody, hread⟩ := exists_append_afterComment hr
    cases h
    refine ⟨'/' :: '*' :: (body ++ text), ?_, .comment hread hblank⟩
    have htail : tail = body ++ (text ++ p.next.rest) := hbody.trans (congrArg _ htext)
    refine hc.trans ?_
    rw [List.cons_append, List.cons_append, List.append_assoc]
    exact congrArg _ (congrArg _ htail)
  | case5 c =>
    injection h with h
    exact ⟨[], by rw [← h]; rfl, .nil⟩

theorem Blank.head (h : Blank text) {c : Char} (hc : c ∈ text.head?) :
    isSpace c = true ∨ c = '/' := by
  cases h with
  | nil => cases hc
  | space hspace _ =>
    cases hc
    exact .inl hspace
  | comment _ _ =>
    cases hc
    exact .inr rfl

theorem exists_append_of_afterComment (h : afterComment cs = some after) :
    ∃ body, cs = body ++ '*' :: '/' :: after := by
  fun_induction afterComment cs with
  | case1 => cases h
  | case2 cs =>
    cases h
    exact ⟨[], rfl⟩
  | case3 c cs _ ih =>
    obtain ⟨body, rfl⟩ := ih h
    exact ⟨c :: body, rfl⟩

/-- Blanks do not end within an escape. -/
theorem Blank.endsInEscape (h : Blank text) : Text.endsInEscape text = false := by
  induction h with
  | nil => rfl
  | @space c text hc _ ih =>
    have hne : c ≠ '\\' := by
      rintro rfl
      cases hc
    rw [endsInEscape_cons hne, ih]
  | @comment body text hbody _ ih =>
    -- a comment ends with a slash
    obtain ⟨front, hfront⟩ := exists_append_of_afterComment (hbody [])
    have hclosed : '/' :: '*' :: body = ('/' :: '*' :: (front ++ ['*'])) ++ ['/'] := by
      rw [← List.append_nil body, hfront]
      simp
    show Text.endsInEscape ('/' :: '*' :: body ++ text) = false
    rw [hclosed, endsInEscape_append (endsInEscape_concat (by decide) _), ih]

end CssRune
