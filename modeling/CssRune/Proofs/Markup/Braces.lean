/-
**Where expressions in braces stand.**

The searches for the end of an expression give back what follows it, always an end of the text they
were given.  So what they leave out is a piece of that text, and an expression is read from a piece
of the source.

* `afterBrace_suffix`, `afterBacktick_suffix`, `seekOutside_suffix` — what the searches give back;
* `braced_eq` — the text between two braces;
* `blockExpressionText_isAt` — the part of a block tag that is an expression;
* `Expression.ReadWithin` — an expression that is read from a piece of the source between two
  offsets.
-/

import CssRune.Markup.Reader
import CssRune.Proofs.Reading

set_option autoImplicit false

namespace CssRune

open Text

/-! ### What the searches give back -/

variable {cs r text inner source : List Char} {offset : Nat} {setting : ScriptSetting}
  {e : Expression}

theorem Text.afterTemplate_suffix {closed : Bool} (h : afterTemplate cs = some (closed, r)) :
    r <:+ cs := by
  fun_induction afterTemplate cs with
  | case1 => simp at h
  | case2 => simp at h
  | case3 c cs ih => exact (ih h).trans ⟨['\\', c], rfl⟩
  | case4 cs =>
    obtain ⟨rfl, rfl⟩ := Prod.mk.inj (Option.some.inj h)
    exact ⟨['$', '\x7b'], rfl⟩
  | case5 cs =>
    obtain ⟨rfl, rfl⟩ := Prod.mk.inj (Option.some.inj h)
    exact List.suffix_cons _ _
  | case6 c cs _ _ _ ih => exact (ih h).trans (List.suffix_cons _ _)

theorem afterBrace_suffix {stack : List Opening} (h : afterBrace stack cs = some r) : r <:+ cs := by
  fun_induction afterBrace stack cs
  case case1 | case2 | case4 | case8 | case11 | case14 => cases h
  case case3 rest hrest ih =>
    exact ((ih h).trans (afterQuoted_suffix hrest)).trans (List.suffix_cons _ _)
  -- A template that ends and one that is interrupted, before and after an inner expression.
  case case5 ih | case6 ih | case15 ih | case16 ih =>
    have htemplate := afterTemplate_suffix ‹afterTemplate _ = some _›
    exact ((ih h).trans htemplate).trans (List.suffix_cons _ _)
  case case7 ih => exact ((ih h).trans (List.dropWhile_suffix _)).trans (List.suffix_cons _ _)
  case case9 rest hrest ih =>
    have hcomment := (afterComment_suffix hrest).trans (List.drop_suffix 1 _)
    exact ((ih h).trans hcomment).trans (List.suffix_cons _ _)
  case case12 =>
    injection h with h
    exact h ▸ List.suffix_cons _ _
  case case10 ih | case13 ih | case17 ih => exact (ih h).trans (List.suffix_cons _ _)

/-- The text between two braces is all of the text up to the closing one. -/
theorem braced_eq {inside after : List Char} (h : braced cs = some (inside, after)) :
    ∃ close, cs = inside ++ close :: after := by
  obtain ⟨rest, hrest, he⟩ := Option.map_eq_some_iff.1 h
  obtain ⟨rfl, rfl⟩ := Prod.mk.inj he
  have hsuffix := before_append_self (afterBrace_suffix hrest)
  have hne : before cs rest ≠ [] := by
    intro hnil
    have hlength := afterBrace_length hrest
    rw [hnil, List.nil_append] at hsuffix
    rw [hsuffix] at hlength
    exact Nat.lt_irrefl _ hlength
  refine ⟨(before cs rest).getLast hne, ?_⟩
  calc cs = before cs rest ++ rest := hsuffix.symm
    _ = ((before cs rest).dropLast ++ [(before cs rest).getLast hne]) ++ rest := by
        rw [List.dropLast_concat_getLast hne]
    _ = _ := by rw [List.append_assoc]; rfl

theorem afterBacktick_suffix (h : afterBacktick cs = some r) : r <:+ cs := by
  fun_induction afterBacktick cs with
  | case1 => cases h
  | case2 cs rest hrest =>
    injection h with h
    exact h ▸ afterTemplate_suffix hrest
  | case3 => cases h
  | case4 cs rest hrest after hafter ih =>
    exact ((ih h).trans (afterBrace_suffix hafter)).trans (afterTemplate_suffix hrest)

/-- A piece of text that is looked for outside of brackets is found where it stands. -/
theorem seekOutside_suffix {piece : List Char} {previous : Option Char} {depth : Nat}
    (h : seekOutside piece previous depth cs = some r) : r <:+ cs ∧ piece <+: r := by
  fun_induction seekOutside piece previous depth cs
  case case1 | case2 | case4 => cases h
  case case3 rest hrest ih =>
    obtain ⟨hsuffix, hprefix⟩ := ih h
    exact ⟨(hsuffix.trans (afterQuoted_suffix hrest)).trans (List.suffix_cons _ _), hprefix⟩
  case case5 ih =>
    obtain ⟨hsuffix, hprefix⟩ := ih h
    have htemplate := afterBacktick_suffix ‹afterBacktick _ = some _›
    exact ⟨(hsuffix.trans htemplate).trans (List.suffix_cons _ _), hprefix⟩
  case case6 ih | case7 ih | case9 ih =>
    obtain ⟨hsuffix, hprefix⟩ := ih h
    exact ⟨hsuffix.trans (List.suffix_cons _ _), hprefix⟩
  case case8 hfound =>
    cases h
    exact ⟨List.suffix_refl _, List.isPrefixOf_iff_prefix.1 hfound.2.1⟩

theorem beforeOutside_isPrefix (piece cs : List Char) : beforeOutside piece cs <+: cs := by
  unfold beforeOutside
  split
  · rename_i rest hrest
    exact ⟨rest, before_append_self (seekOutside_suffix hrest).1⟩
  · exact List.prefix_refl cs

/-! ### Expressions -/

/-- The part of a block tag that is an expression is a piece of what follows the keyword. -/
theorem blockExpressionText_isAt {kind : BlockKind} {keyword : String} {start : Nat}
    (h : blockExpressionText kind keyword offset text = .ok (some (start, inner))) :
    ∃ k, start = offset + k ∧ IsAt text k inner := by
  have hfront : ∀ piece : List Char, piece <+: text →
      (Except.ok (some (offset, piece)) : Except ParseError (Option (Nat × List Char))) =
        .ok (some (start, inner)) → ∃ k, start = offset + k ∧ IsAt text k inner := by
    intro piece hpiece he
    obtain ⟨rfl, rfl⟩ := Prod.mk.inj (Option.some.inj (Except.ok.inj he))
    exact ⟨0, rfl, isAt_of_isPrefix hpiece⟩
  unfold blockExpressionText at h
  split at h
  · cases h
  · -- an opening tag: its expression ends before a word that introduces a binding
    split at h
    · exact hfront _ (beforeOutside_isPrefix _ _) h
    · split at h
      · simp only [] at h
        split at h
        · exact hfront _ (beforeOutside_isPrefix _ _) h
        · exact hfront _ (beforeOutside_isPrefix _ _) h
      · split at h
        · cases h
        · exact hfront _ (List.prefix_refl _) h
  · -- a continuing tag: only `else if` has an expression, after the blanks and the second word
    split at h
    · split at h
      · rename_i c rest hrest
        split at h
        · obtain ⟨rfl, rfl⟩ := Prod.mk.inj (Option.some.inj (Except.ok.inj h))
          refine ⟨byteLength (text.takeWhile isSpace) + 2, by omega, ?_⟩
          refine ⟨text.takeWhile isSpace ++ ['i', 'f'], [], ?_, ?_⟩
          · rw [List.append_nil, List.append_assoc]
            show text = text.takeWhile isSpace ++ 'i' :: 'f' :: c :: rest
            rw [← hrest, List.takeWhile_append_dropWhile]
          · rw [byteLength_append]
            rfl
        · cases h
      · cases h
    · cases h
  · -- a special tag: the expression of a constant comes after the equals sign
    split at h
    · split at h
      · cases h
      · rename_i rest hrest
        obtain ⟨rfl, rfl⟩ := Prod.mk.inj (Option.some.inj (Except.ok.inj h))
        obtain ⟨hsuffix, more, rfl⟩ := seekOutside_suffix hrest
        refine ⟨byteLength (before text (['='] ++ more)) + 1, by omega, ?_⟩
        refine ⟨before text (['='] ++ more) ++ ['='], [], ?_, ?_⟩
        · rw [List.append_nil, List.append_assoc]
          exact (before_append_self hsuffix).symm
        · rw [byteLength_append]
          rfl
    · exact hfront _ (List.prefix_refl _) h

/-- The expression is what the script reader makes of a piece of the source, between two offsets. -/
def Expression.ReadWithin (setting : ScriptSetting) (source : List Char) (lo hi : Nat)
    (e : Expression) : Prop :=
  ∃ text, Text.IsAt source e.offset text ∧ lo ≤ e.offset ∧ e.offset + Text.byteLength text ≤ hi ∧
    setting.reader.expression setting.lang text = some e.node

theorem Expression.ReadWithin.mono {lo hi lo' hi' : Nat} (h : e.ReadWithin setting source lo hi)
    (hlo : lo' ≤ lo) (hhi : hi ≤ hi') : e.ReadWithin setting source lo' hi' := by
  obtain ⟨text, hat, h₁, h₂, hread⟩ := h
  exact ⟨text, hat, by omega, by omega, hread⟩

/-- An expression is read from the text that is given to its reader. -/
theorem readWithin_of_isAt {k : Nat} (htext : IsAt source offset text)
    (hinner : IsAt text k inner) (h : readExpressionAt setting (offset + k) inner = .ok e) :
    e.ReadWithin setting source offset (offset + byteLength text) := by
  unfold readExpressionAt at h
  split at h
  · cases h
  · split at h
    · rename_i node hnode
      cases h
      have hle := hinner.stop_le
      refine ⟨inner, htext.trans hinner, ?_, ?_, hnode⟩
      · exact Nat.le_add_right offset k
      · show offset + k + _ ≤ _
        omega
    · cases h

end CssRune
