/-
**Braces in markup.**

An expression in markup stands between braces.  Where it ends is found without reading it: quoted
strings, templates and comments are skipped, inner braces are counted, and a template that is
interrupted by an expression is resumed when that expression ends.

Main results:

* `afterBrace_length`, `afterBacktick_length` — what follows is shorter.
-/

import CssRune.Text.Quoted
import CssRune.Text.Search

set_option autoImplicit false

namespace CssRune

/-- What an open brace belongs to. -/
inductive Opening where
  /-- A brace of its own. -/
  | group
  /-- A brace after a dollar sign that interrupts a template. -/
  | hole
  deriving DecidableEq, Repr

/-- What follows the brace that closes the last of the open ones. -/
def afterBrace (stack : List Opening) (cs : List Char) : Option (List Char) :=
  match cs with
  | [] => none
  | c :: cs =>
    if c = '\'' ∨ c = '"' then
      match _h : Text.afterQuoted c cs with
      | none => none
      | some rest => afterBrace stack rest
    else if c = '\x60' then
      match _h : Text.afterTemplate cs with
      | none => none
      | some (true, rest) => afterBrace stack rest
      | some (false, rest) => afterBrace (.hole :: stack) rest
    else if c = '/' ∧ cs.head? = some '/' then afterBrace stack (cs.dropWhile (· ≠ '\n'))
    else if c = '/' ∧ cs.head? = some '*' then
      match _h : Text.afterComment (cs.drop 1) with
      | none => none
      | some rest => afterBrace stack rest
    else if c = '\x7b' then afterBrace (.group :: stack) cs
    else if c = '\x7d' then
      match stack with
      | [] => none
      | [_] => some cs
      | .group :: stack => afterBrace stack cs
      | .hole :: stack =>
        match _h : Text.afterTemplate cs with
        | none => none
        | some (true, rest) => afterBrace stack rest
        | some (false, rest) => afterBrace (.hole :: stack) rest
    else afterBrace stack cs
termination_by cs.length
decreasing_by
  all_goals simp only [List.length_cons]
  · have := Text.afterQuoted_length _h
    omega
  · have := Text.afterTemplate_length _h
    omega
  · have := Text.afterTemplate_length _h
    omega
  · have := (List.dropWhile_sublist (l := cs) fun c => decide (c ≠ '\n')).length_le
    omega
  · have := Text.afterComment_length _h
    simp only [List.length_drop] at *
    omega
  · omega
  · omega
  · have := Text.afterTemplate_length _h
    omega
  · have := Text.afterTemplate_length _h
    omega
  · omega

theorem afterBrace_length {stack : List Opening} {cs r : List Char}
    (h : afterBrace stack cs = some r) : r.length < cs.length := by
  fun_induction afterBrace stack cs
  case case3 rest hrest ih =>
    exact Nat.lt_trans (ih h) (Nat.lt_succ_of_lt (Text.afterQuoted_length hrest))
  case case5 ih | case6 ih | case15 ih | case16 ih =>
    have hrest := Text.afterTemplate_length ‹Text.afterTemplate _ = some _›
    exact Nat.lt_trans (ih h) (Nat.lt_succ_of_lt hrest)
  case case7 cs _ _ _ ih =>
    exact Nat.lt_of_lt_of_le (ih h) (Nat.le_succ_of_le (List.dropWhile_sublist _).length_le)
  case case9 rest hrest ih =>
    have := Text.afterComment_length hrest
    have := ih h
    simp only [List.length_drop, List.length_cons] at *
    omega
  case case10 ih | case13 ih | case17 ih => exact Nat.lt_succ_of_lt (ih h)
  case case12 =>
    cases h
    exact Nat.lt_succ_self _
  all_goals cases h

/-- The text up to the brace that closes a group and the text after that brace; the text given
starts after the opening brace. -/
def braced (cs : List Char) : Option (List Char × List Char) :=
  (afterBrace [.group] cs).map fun after => ((Text.before cs after).dropLast, after)

theorem braced_length {cs inside after : List Char} (h : braced cs = some (inside, after)) :
    after.length < cs.length := by
  obtain ⟨rest, hr, he⟩ := Option.map_eq_some_iff.1 h
  cases he
  exact afterBrace_length hr

/-! ### Pieces of text outside of brackets -/

/-- What follows a template; the text given starts after its opening backtick. -/
def afterBacktick (cs : List Char) : Option (List Char) :=
  match _h : Text.afterTemplate cs with
  | none => none
  | some (true, rest) => some rest
  | some (false, rest) =>
    match _h' : afterBrace [.group] rest with
    | none => none
    | some rest => afterBacktick rest
termination_by cs.length
decreasing_by
  have := Text.afterTemplate_length _h
  have := afterBrace_length _h'
  omega

theorem afterBacktick_length {cs r : List Char} (h : afterBacktick cs = some r) :
    r.length < cs.length := by
  fun_induction afterBacktick cs with
  | case1 => cases h
  | case2 cs rest hrest =>
    cases h
    exact Text.afterTemplate_length hrest
  | case3 => cases h
  | case4 cs rest hrest after hafter ih =>
    have := Text.afterTemplate_length hrest
    have := afterBrace_length hafter
    have := ih h
    omega

/-- Whether an equals sign assigns: none of `=`, `!`, `<`, `>` stands before it and neither `=` nor
`>` after it. -/
def assigns (previous : Option Char) (after : List Char) : Bool :=
  !(previous.any fun c => c == '=' || c == '!' || c == '<' || c == '>') &&
    !(after.head?.any fun c => c == '=' || c == '>')

/-- The text from the first place on where a piece stands outside of brackets, strings and
templates.  `depth` brackets are open, and `previous` is the character before the text.  An equals
sign only counts where it assigns. -/
def seekOutside (piece : List Char) (previous : Option Char) (depth : Nat) (cs : List Char) :
    Option (List Char) :=
  match cs with
  | [] => none
  | c :: cs =>
    if c = '\'' ∨ c = '"' then
      match _h : Text.afterQuoted c cs with
      | none => none
      | some rest => seekOutside piece (some c) depth rest
    else if c = '\x60' then
      match _h : afterBacktick cs with
      | none => none
      | some rest => seekOutside piece (some c) depth rest
    else if c = '(' ∨ c = '[' ∨ c = '\x7b' then seekOutside piece (some c) (depth + 1) cs
    else if c = ')' ∨ c = ']' ∨ c = '\x7d' then seekOutside piece (some c) (depth - 1) cs
    else if depth = 0 ∧ piece.isPrefixOf (c :: cs) ∧ (piece = ['='] → assigns previous cs) then
      some (c :: cs)
    else seekOutside piece (some c) depth cs
termination_by cs.length
decreasing_by
  · have := Text.afterQuoted_length _h
    simp only [List.length_cons]
    omega
  · have := afterBacktick_length _h
    simp only [List.length_cons]
    omega
  all_goals simp

/-- The text before the first place where a piece stands outside of brackets, or all of it. -/
def beforeOutside (piece : List Char) (cs : List Char) : List Char :=
  match seekOutside piece none 0 cs with
  | some rest => Text.before cs rest
  | none => cs

end CssRune
