/-
**Quoted strings, templates and comments, skipped as a whole.**

Main results:

* `Text.afterQuoted_length`, `Text.afterTemplate_length`, `Text.afterComment_length` — what follows
  is shorter.
-/

set_option autoImplicit false

namespace CssRune

namespace Text

/-- What follows the closing quote; the text given starts after the opening one.  A backslash
takes the character after it along. -/
def afterQuoted (quote : Char) : List Char → Option (List Char)
  | [] => none
  | '\\' :: cs =>
    match cs with
    | [] => none
    | _ :: cs => afterQuoted quote cs
  | c :: cs => if c = quote then some cs else afterQuoted quote cs

/-- What follows a piece of a template, after the backtick that closes it (`true`) or after the
dollar sign and the brace that interrupt it (`false`).  A backslash takes the character after it
along. -/
def afterTemplate : List Char → Option (Bool × List Char)
  | [] => none
  | '\\' :: cs =>
    match cs with
    | [] => none
    | _ :: cs => afterTemplate cs
  | '$' :: '\x7b' :: cs => some (false, cs)
  | c :: cs => if c = '\x60' then some (true, cs) else afterTemplate cs

/-- What follows the first `*/`. -/
def afterComment : List Char → Option (List Char)
  | [] => none
  | '*' :: '/' :: cs => some cs
  | _ :: cs => afterComment cs

theorem afterQuoted_length {quote : Char} {cs r : List Char} (h : afterQuoted quote cs = some r) :
    r.length < cs.length := by
  fun_induction afterQuoted quote cs with
  | case1 => cases h
  | case2 => cases h
  | case3 _ cs ih => exact Nat.lt_succ_of_lt (Nat.lt_succ_of_lt (ih h))
  | case4 cs =>
    cases h
    simp
  | case5 c cs _ _ ih => exact Nat.lt_succ_of_lt (ih h)

theorem afterTemplate_length {cs r : List Char} {closed : Bool}
    (h : afterTemplate cs = some (closed, r)) : r.length < cs.length := by
  fun_induction afterTemplate cs with
  | case1 => cases h
  | case2 => cases h
  | case3 _ cs ih => exact Nat.lt_succ_of_lt (Nat.lt_succ_of_lt (ih h))
  | case4 cs =>
    cases h
    exact Nat.lt_succ_of_lt (Nat.lt_succ_self _)
  | case5 cs =>
    cases h
    simp
  | case6 c cs _ _ _ ih => exact Nat.lt_succ_of_lt (ih h)

theorem afterComment_length {cs r : List Char} (h : afterComment cs = some r) :
    r.length < cs.length := by
  fun_induction afterComment cs with
  | case1 => cases h
  | case2 cs =>
    cases h
    exact Nat.lt_succ_of_lt (Nat.lt_succ_self _)
  | case3 c cs _ ih => exact Nat.lt_succ_of_lt (ih h)

end Text

end CssRune
