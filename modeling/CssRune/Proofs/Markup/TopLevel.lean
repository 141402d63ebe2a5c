/-
**Pieces of text outside of brackets.**

A block tag is cut at a word or at an equals sign that stands outside of brackets, strings and
templates.  The search for it reads comments as any other text.  So it finds the first place in that
reading, and it finds the first place outside of comments as long as each comment is transparent:
read as text it leaves the open brackets as they are and has no such place in it.  Every other
comment misleads the search in some text.

Main results:

* `TopLevel.seekOutside_iff` — the search finds the first place of the reading with comments as
  text;
* `TopLevel.place_iff_of_calm` — transparent comments leave the places as they are;
* `TopLevel.transparent_of_found` — a comment that misleads no search is transparent;
* `seekOutside_first_place_iff` — **when the search finds the first place**.
-/

import CssRune.Proofs.Markup.Items

set_option autoImplicit false

namespace CssRune

namespace TopLevel

/-! ### Places -/

/-- Whether a piece stands at the start of a text, after the character `previous`.  An equals sign
has to assign. -/
def Fits (piece : List Char) (previous : Option Char) (rest : List Char) : Prop :=
  piece <+: rest ∧ (piece = ['='] → assigns previous (rest.drop 1) = true)

instance (piece : List Char) (previous : Option Char) (rest : List Char) :
    Decidable (Fits piece previous rest) := inferInstanceAs (Decidable (_ ∧ _))

/-- **A place where a piece stands outside of brackets**: between `front` and `rest`. -/
structure Place (skips : Bool) (piece front rest : List Char) : Prop where
  reads : Reads skips rest 0 front 0
  fits : Fits piece front.getLast? rest

/-- The first place of a piece outside of brackets. -/
structure FirstPlace (skips : Bool) (piece front rest : List Char) : Prop where
  place : Place skips piece front rest
  first : ∀ front' rest', front' ++ rest' = front ++ rest → Place skips piece front' rest' →
    front.length ≤ front'.length

/-- The pieces that block tags are cut at. -/
def pieces : List (List Char) := [" as ".toList, " then ".toList, " catch ".toList, ['=']]

/-- A piece of plain characters that cannot be part of the end of a comment. -/
structure Searched (piece : List Char) : Prop where
  ne_nil : piece ≠ []
  plain : ∀ c ∈ piece, Plain c
  not_slash : '/' ∉ piece
  not_newline : '\n' ∉ piece

instance (c : Char) : Decidable (Plain c) :=
  decidable_of_iff (¬(c = '\'' ∨ c = '"') ∧ c ≠ '\x60' ∧ ¬IsOpening c ∧ ¬IsClosing c)
    ⟨fun h => ⟨h.1, h.2.1, h.2.2.1, h.2.2.2⟩,
      fun h => ⟨h.not_quote, h.not_backtick, h.not_opening, h.not_closing⟩⟩

variable {cs : List Char} {c : Char}

theorem plain_of_all (h : cs.all (decide <| Plain ·) = true) : ∀ c ∈ cs, Plain c :=
  fun c hc => of_decide_eq_true (List.all_eq_true.1 h c hc)

theorem searched_of_mem {piece : List Char} (h : piece ∈ pieces) : Searched piece := by
  simp only [pieces, List.mem_cons, List.not_mem_nil, or_false] at h
  rcases h with rfl | rfl | rfl | rfl <;>
    exact ⟨by decide, plain_of_all (by decide), by decide, by decide⟩

section Search

variable {piece : List Char} {previous : Option Char} {depth depth' : Nat}
  {cs front rest word : List Char}

theorem Fits.head_plain (hpiece : Searched piece) (h : Fits piece previous rest) :
    ∃ c more, rest = c :: more ∧ Plain c ∧ c ≠ '/' := by
  obtain ⟨tail, rfl⟩ := h.1
  obtain ⟨c, more, rfl⟩ := List.exists_cons_of_ne_nil hpiece.ne_nil
  refine ⟨c, more ++ tail, rfl, hpiece.plain c List.mem_cons_self, ?_⟩
  rintro rfl
  exact hpiece.not_slash List.mem_cons_self

/-! ### The steps of the search -/

theorem seekOutside_eq (hpiece : Searched piece) (previous : Option Char) (depth : Nat)
    (cs : List Char) :
    seekOutside piece previous depth cs =
      if depth = 0 ∧ Fits piece previous cs then some cs
      else (next false depth cs).bind fun found =>
        seekOutside piece cs.head? found.1 found.2 := by
  cases cs with
  | nil =>
    have hfits : ¬Fits piece previous [] := fun h => by
      obtain ⟨c, more, hnil, _⟩ := h.head_plain hpiece
      cases hnil
    rw [seekOutside, if_neg fun h => hfits h.2]
    rfl
  | cons c cs =>
    have hplain : Fits piece previous (c :: cs) → Plain c := fun h => by
      obtain ⟨d, more, heq, hd, _⟩ := h.head_plain hpiece
      cases heq
      exact hd
    rw [seekOutside.eq_def]
    dsimp only
    by_cases hquote : c = '\'' ∨ c = '"'
    · rw [if_pos hquote, if_neg fun h => (hplain h.2).not_quote hquote, next, if_pos hquote]
      split <;> simp_all
    by_cases hbacktick : c = '\x60'
    · rw [if_neg hquote, if_pos hbacktick, if_neg fun h => (hplain h.2).not_backtick hbacktick,
        next, if_neg hquote, if_pos hbacktick]
      split <;> simp_all
    by_cases hopening : c = '(' ∨ c = '[' ∨ c = '\x7b'
    · have hitem : Item false cs depth [c] (depth + 1) := .opening depth hopening
      have hnext : next false depth (c :: cs) = some (depth + 1, cs) := hitem.next_eq
      rw [if_neg hquote, if_neg hbacktick, if_pos hopening,
        if_neg fun h => (hplain h.2).not_opening hopening, hnext]
      rfl
    by_cases hclosing : c = ')' ∨ c = ']' ∨ c = '\x7d'
    · have hitem : Item false cs depth [c] (depth - 1) := .closing depth hclosing
      have hnext : next false depth (c :: cs) = some (depth - 1, cs) := hitem.next_eq
      rw [if_neg hquote, if_neg hbacktick, if_neg hopening, if_pos hclosing,
        if_neg fun h => (hplain h.2).not_closing hclosing, hnext]
      rfl
    · have hitem : Item false cs depth [c] depth :=
        .plain depth ⟨hquote, hbacktick, hopening, hclosing⟩ (by simp)
      have hnext : next false depth (c :: cs) = some (depth, cs) := hitem.next_eq
      rw [if_neg hquote, if_neg hbacktick, if_neg hopening, if_neg hclosing, hnext]
      simp only [List.isPrefixOf_iff_prefix]
      rfl

theorem Item.getLast?_eq (h : Item false rest depth word depth') (rest' : List Char) :
    word.getLast? = (word ++ rest').head? := by
  cases h with
  | plain | opening | closing => rfl
  | quoted | template => rw [← List.cons_append, List.getLast?_concat]; rfl
  | comment hskips => cases hskips

theorem getLast?_or {xs : List Char} (hxs : xs ≠ []) (previous : Option Char) :
    xs.getLast?.or previous = xs.getLast? := by
  rw [List.getLast?_eq_some_getLast hxs, Option.some_or]

theorem getLast?_append_or (hword : word ≠ []) (more : List Char) (previous : Option Char) :
    (word ++ more).getLast?.or previous = more.getLast?.or word.getLast? := by
  rw [List.getLast?_append, Option.or_assoc, getLast?_or hword]

/-- A place that a search reaches from inside a text. -/
structure Spot (piece : List Char) (previous : Option Char) (depth : Nat)
    (front rest : List Char) : Prop where
  reads : Reads false rest depth front 0
  fits : Fits piece (front.getLast?.or previous) rest

/-- A place is at the start of a text, or it is reached after the next item. -/
theorem Spot.cases_next (h : Spot piece previous depth front rest) :
    front = [] ∧ depth = 0 ∧ Fits piece previous rest ∨
      ∃ depth' word more, front = word ++ more ∧ word ≠ [] ∧
        next false depth (front ++ rest) = some (depth', more ++ rest) ∧
        Spot piece (front ++ rest).head? depth' more rest := by
  obtain ⟨hreads, hfits⟩ := h
  cases hreads with
  | nil => exact .inl ⟨rfl, rfl, by simpa using hfits⟩
  | @cons _ depth' _ word more hitem hmore =>
    refine .inr ⟨depth', word, more, rfl, hitem.ne_nil, ?_, hmore, ?_⟩
    · rw [List.append_assoc]
      exact hitem.next_eq
    · rw [List.append_assoc, ← hitem.getLast?_eq]
      rwa [getLast?_append_or hitem.ne_nil] at hfits

theorem Spot.of_next {more : List Char}
    (hnext : next false depth cs = some (depth', more ++ rest))
    (h : Spot piece cs.head? depth' more rest) (previous : Option Char) :
    ∃ word, cs = word ++ (more ++ rest) ∧ Spot piece previous depth (word ++ more) rest := by
  obtain ⟨word, rfl, hitem⟩ := exists_item_of_next hnext
  refine ⟨word, rfl, .cons hitem h.reads, ?_⟩
  rw [getLast?_append_or hitem.ne_nil, hitem.getLast?_eq]
  exact h.fits

/-- What the search finds from inside a text is its first place, if it has one. -/
theorem seekOutside_spec (hpiece : Searched piece) (previous : Option Char) (depth : Nat)
    (cs : List Char) :
    (seekOutside piece previous depth cs = none →
      ∀ front rest, front ++ rest = cs → ¬Spot piece previous depth front rest) ∧
    ∀ rest, seekOutside piece previous depth cs = some rest →
      ∃ front, front ++ rest = cs ∧ Spot piece previous depth front rest ∧
        ∀ front' rest', front' ++ rest' = cs → Spot piece previous depth front' rest' →
          front.length ≤ front'.length := by
  induction hn : cs.length using Nat.strongRecOn generalizing previous depth cs with
  | ind n ih =>
  subst hn
  rw [seekOutside_eq hpiece]
  by_cases hhere : depth = 0 ∧ Fits piece previous cs
  · rw [if_pos hhere]
    refine ⟨by simp, ?_⟩
    rintro _ ⟨⟩
    obtain ⟨rfl, hfits⟩ := hhere
    exact ⟨[], rfl, ⟨.nil 0, by simpa using hfits⟩, by simp⟩
  rw [if_neg hhere]
  cases hnext : next false depth cs with
  | none =>
    refine ⟨?_, by simp⟩
    rintro - front rest rfl hspot
    rcases hspot.cases_next with ⟨rfl, hdepth, hfits⟩ | ⟨_, _, _, _, _, hnext', _⟩
    · exact hhere ⟨hdepth, hfits⟩
    · rw [hnext] at hnext'
      cases hnext'
  | some found =>
    obtain ⟨depth', after⟩ := found
    have hlt : after.length < cs.length := by
      obtain ⟨word, rfl, hitem⟩ := exists_item_of_next hnext
      have := List.length_pos_iff.2 hitem.ne_nil
      rw [List.length_append]
      omega
    obtain ⟨hnone, hsome⟩ := ih after.length hlt cs.head? depth' after rfl
    -- a place of the text is one after the next item, and the other way round
    have hstep : ∀ front rest, front ++ rest = cs → Spot piece previous depth front rest →
        ∃ more, more ++ rest = after ∧ Spot piece cs.head? depth' more rest ∧
          front.length + after.length = more.length + cs.length := by
      rintro front rest rfl hspot
      rcases hspot.cases_next with ⟨rfl, hdepth, hfits⟩ | ⟨_, word, more, rfl, _, hnext', hmore⟩
      · exact absurd ⟨hdepth, hfits⟩ hhere
      · rw [hnext] at hnext'
        obtain ⟨rfl, rfl⟩ := Prod.mk.inj (Option.some.inj hnext')
        exact ⟨more, rfl, hmore, by simp only [List.length_append]; omega⟩
    refine ⟨?_, ?_⟩
    · intro h front rest hcs hspot
      obtain ⟨more, hmore, hspot', _⟩ := hstep front rest hcs hspot
      exact hnone h more rest hmore hspot'
    · intro rest h
      obtain ⟨more, rfl, hspot, hfirst⟩ := hsome rest h
      obtain ⟨word, hcs, hspot'⟩ := hspot.of_next hnext previous
      refine ⟨word ++ more, by rw [hcs, List.append_assoc], hspot', ?_⟩
      intro front' rest' hcs' hfront'
      obtain ⟨more', hmore', hspot'', hlength⟩ := hstep front' rest' hcs' hfront'
      have := hfirst more' rest' hmore' hspot''
      rw [hcs] at hlength
      simp only [List.length_append] at hlength ⊢
      omega

theorem spot_iff : Spot piece none 0 front rest ↔ Place false piece front rest := by
  constructor
  · rintro ⟨hreads, hfits⟩
    exact ⟨hreads, by simpa using hfits⟩
  · rintro ⟨hreads, hfits⟩
    exact ⟨hreads, by simpa using hfits⟩

/-- **The search finds the first place of the reading with comments as text.** -/
theorem seekOutside_iff (hpiece : Searched piece) (front rest : List Char) :
    seekOutside piece none 0 (front ++ rest) = some rest ↔ FirstPlace false piece front rest := by
  obtain ⟨hnone, hsome⟩ := seekOutside_spec hpiece none 0 (front ++ rest)
  simp only [spot_iff] at hnone hsome
  constructor
  · intro h
    obtain ⟨front', heq, hplace, hfirst⟩ := hsome rest h
    cases List.append_cancel_right heq
    exact ⟨hplace, hfirst⟩
  · intro h
    cases hfound : seekOutside piece none 0 (front ++ rest) with
    | none => exact absurd h.place (hnone hfound front rest rfl)
    | some rest' =>
      obtain ⟨front', heq, hplace, hfirst⟩ := hsome rest' hfound
      have hle := hfirst front rest rfl h.place
      have hge := h.first front' rest' heq hplace
      rw [(List.append_inj heq (Nat.le_antisymm hle hge)).2]

/-- A text with a place is not searched in vain. -/
theorem exists_found_of_place (hpiece : Searched piece) (h : Place false piece front rest) :
    ∃ front' rest', front' ++ rest' = front ++ rest ∧
      seekOutside piece none 0 (front ++ rest) = some rest' := by
  obtain ⟨hnone, hsome⟩ := seekOutside_spec hpiece none 0 (front ++ rest)
  cases hfound : seekOutside piece none 0 (front ++ rest) with
  | none => exact absurd (spot_iff.2 h) (hnone hfound front rest rfl)
  | some rest' =>
    obtain ⟨front', heq, _⟩ := hsome rest' hfound
    exact ⟨front', rest', heq, rfl⟩

end Search

/-! ### Transparent comments -/

/-- **A comment that does not matter** to the search for a piece, where `depth` brackets are open:
read as text it leaves them as they are, and the piece has no place in it. -/
structure Transparent (piece : List Char) (depth : Nat) (comment : List Char) : Prop where
  reads : Reads false [] depth comment depth
  no_place : ∀ front rest, front ++ rest = comment → Reads false rest depth front 0 →
    ¬Fits piece front.getLast? rest

/-- Each comment of a text is transparent; `depth` brackets are open before the text. -/
def Calm (piece : List Char) (depth : Nat) (text : List Char) : Prop :=
  ∀ front comment rest depth', front ++ (comment ++ rest) = text →
    Reads true (comment ++ rest) depth front depth' → Comment comment →
      Transparent piece depth' comment

section Transparency

variable {skips : Bool} {piece word more front rest comment : List Char} {depth depth' last : Nat}

theorem Calm.tail (h : Calm piece depth (word ++ more)) (hitem : Item true more depth word depth') :
    Calm piece depth' more := by
  rintro front comment rest last rfl hreads hcomment
  refine h (word ++ front) comment rest last (by simp) (.cons ?_ hreads) hcomment
  exact hitem

theorem Comment.head (h : Comment comment) : ∃ more, comment = '/' :: more := by
  cases h with
  | line => exact ⟨_, rfl⟩
  | block => exact ⟨_, rfl⟩

/-- What is read with comments skipped is read the same with transparent comments as text. -/
theorem Reads.of_calm (h : Reads true rest depth front last)
    (hcalm : Calm piece depth (front ++ rest)) : Reads false rest depth front last := by
  induction h with
  | nil depth => exact .nil depth
  | @cons depth depth' last word more hitem hmore ih =>
    rw [List.append_assoc] at hcalm
    have hrest := ih (hcalm.tail hitem)
    rcases hitem.comment_or with ⟨hcomment, rfl⟩ | hitem'
    · have htransparent := hcalm [] word (more ++ rest) _ rfl (.nil _) hcomment
      exact (htransparent.reads.of_rest _).append hrest
    · exact .cons hitem' hrest

theorem Comment.getLast?_eq (h : Comment comment) :
    ∃ x, comment.getLast? = some x ∧ (x = '/' ∨ x = '\n') := by
  cases h with
  | @line body =>
    refine ⟨'\n', ?_, .inr rfl⟩
    rw [← List.cons_append, ← List.cons_append, List.getLast?_concat]
  | @block body =>
    refine ⟨'/', ?_, .inl rfl⟩
    rw [List.append_cons, ← List.cons_append, ← List.cons_append, List.getLast?_concat]

variable {previous : Option Char} {inner : List Char}

/-- Whether a piece stands in a comment does not depend on what follows the comment. -/
theorem fits_append_iff {x : Char} (hx : x ∉ piece) :
    Fits piece previous (front ++ [x] ++ rest) ↔ Fits piece previous (front ++ [x]) := by
  have hstart : piece <+: front ++ [x] ++ rest ↔ piece <+: front ++ [x] := by
    refine ⟨fun h => ?_, fun h => h.trans (List.prefix_append _ _)⟩
    rcases List.prefix_or_prefix_of_prefix h (List.prefix_append (front ++ [x]) rest) with hle | hge
    · exact hle
    · exact absurd (hge.subset (by simp)) hx
  unfold Fits
  rw [hstart]
  refine and_congr_right fun hfront => forall_congr' fun hequals => ?_
  subst hequals
  -- the equals sign is not the last character, so the one after it is there too
  rcases front with _ | ⟨c, _ | ⟨d, front⟩⟩
  · have hmem : x ∈ ['='] := by simpa [eq_comm] using (List.prefix_cons_iff.1 hfront)
    exact absurd hmem hx
  · exact Iff.rfl
  · exact Iff.rfl

/-- The end of a comment is not part of a piece. -/
theorem Comment.exists_end (hpiece : Searched piece) (h : Comment (front ++ inner))
    (hinner : inner ≠ []) : ∃ body x, inner = body ++ [x] ∧ x ∉ piece := by
  obtain ⟨x, hlast, hx⟩ := h.getLast?_eq
  rw [List.getLast?_append, getLast?_or hinner, List.getLast?_eq_some_iff] at hlast
  obtain ⟨body, hbody⟩ := hlast
  refine ⟨body, x, hbody, ?_⟩
  rcases hx with rfl | rfl
  · exact hpiece.not_slash
  · exact hpiece.not_newline

/-- A piece that stands in a comment does not stand at its start. -/
theorem Comment.ne_nil_of_fits (hpiece : Searched piece) (h : Comment (front ++ inner))
    (hfits : Fits piece previous (inner ++ more)) : front ≠ [] := by
  rintro rfl
  obtain ⟨comment, heq⟩ := h.head
  obtain ⟨c, tail, hcons, _, hslash⟩ := hfits.head_plain hpiece
  rw [List.nil_append] at heq
  rw [heq, List.cons_append] at hcons
  exact hslash (List.cons.inj hcons).1.symm

/-- A piece has no place in a transparent comment, whatever stands before and after it. -/
theorem Transparent.not_fits (hpiece : Searched piece)
    (h : Transparent piece depth (front ++ inner)) (hcomment : Comment (front ++ inner))
    (hinner : inner ≠ []) (hreads : Reads false rest depth front 0) (previous : Option Char) :
    ¬Fits piece (front.getLast?.or previous) (inner ++ more) := by
  intro hfits
  have hfront := hcomment.ne_nil_of_fits hpiece hfits
  rw [getLast?_or hfront] at hfits
  obtain ⟨body, x, rfl, hx⟩ := hcomment.exists_end hpiece hinner
  exact h.no_place front _ rfl (hreads.of_rest _) ((fits_append_iff hx).1 hfits)

theorem reads_plain {cs : List Char} (hplain : ∀ c ∈ cs, Plain c)
    (hslash : skips = true → '/' ∉ cs) (rest : List Char) (depth : Nat) :
    Reads skips rest depth cs depth := by
  induction cs with
  | nil => exact .nil depth
  | cons c cs ih =>
    refine .cons_char (.plain depth (hplain c List.mem_cons_self) fun hskips hc => ?_)
      (ih (fun d hd => hplain d (List.mem_cons_of_mem c hd)) fun hskips hmem => ?_)
    · exact absurd (hc ▸ List.mem_cons_self) (hslash hskips)
    · exact hslash hskips (List.mem_cons_of_mem c hmem)

theorem transparent_of_plain (hplain : ∀ c ∈ comment, Plain c) (hpiece : ¬piece <:+: comment)
    (depth : Nat) : Transparent piece depth comment := by
  refine ⟨reads_plain hplain (by simp) [] depth, ?_⟩
  rintro front rest rfl - ⟨hfits, -⟩
  exact hpiece (hfits.isInfix.trans (List.suffix_append front rest).isInfix)

/-- A place with transparent comments as text is one with comments skipped. -/
theorem Reads.of_spot (hpiece : Searched piece) {text : List Char}
    (h : Reads true [] depth text last) (hcalm : Calm piece depth text) (heq : front ++ rest = text)
    (hspot : Spot piece previous depth front rest) : Reads true rest depth front 0 := by
  induction h generalizing previous front with
  | nil depth =>
    obtain ⟨rfl, rfl⟩ := List.append_eq_nil_iff.1 heq
    exact reads_nil_iff.2 (reads_nil_iff.1 hspot.reads)
  | @cons depth depth' last word more hitem hmore ih =>
    rw [List.append_nil] at hitem
    rcases hitem.comment_or with ⟨hcomment, rfl⟩ | hitem'
    · have htransparent := hcalm [] word more _ rfl (.nil _) hcomment
      rcases List.append_eq_append_iff.1 heq with ⟨inner, rfl, rfl⟩ | ⟨after, rfl, rfl⟩
      · by_cases hinner : inner = []
        · subst hinner
          rw [List.append_nil] at hitem htransparent
          have hdepth : depth' = 0 := (htransparent.reads.of_rest _).unique hspot.reads
          subst hdepth
          exact .of_item hitem
        · exact absurd hspot.fits
            (htransparent.not_fits hpiece hcomment hinner hspot.reads previous)
      · have hafter : Spot piece word.getLast? depth' after rest := by
          refine ⟨(htransparent.reads.of_rest _).peel hspot.reads, ?_⟩
          rw [← getLast?_append_or hitem.ne_nil after previous]
          exact hspot.fits
        exact .cons hitem (ih (hcalm.tail hitem) rfl hafter)
    · rcases hspot.cases_next with ⟨rfl, rfl, _⟩ | ⟨_, word', more', rfl, _, hnext, hspot'⟩
      · exact .nil 0
      · rw [heq, hitem'.next_eq] at hnext
        obtain ⟨rfl, rfl⟩ := Prod.mk.inj (Option.some.inj hnext)
        rw [List.append_assoc] at heq
        obtain rfl := List.append_cancel_right heq
        exact .cons hitem (ih (hcalm.tail hitem) rfl hspot')

/-- **Transparent comments leave the places as they are.** -/
theorem place_iff_of_calm (hpiece : Searched piece) (htext : Balanced .code (front ++ rest))
    (hcalm : Calm piece 0 (front ++ rest)) :
    Place true piece front rest ↔ Place false piece front rest := by
  obtain ⟨last, hread⟩ : ∃ last, Reads true [] 0 (front ++ rest) last :=
    exists_reads_of_balanced htext rfl (by simp) (by simp) 0
  constructor
  · rintro ⟨hreads, hfits⟩
    exact ⟨hreads.of_calm hcalm, hfits⟩
  · intro h
    exact ⟨hread.of_spot hpiece hcalm rfl (spot_iff.2 h), h.fits⟩

theorem firstPlace_iff_of_calm (hpiece : Searched piece) (htext : Balanced .code (front ++ rest))
    (hcalm : Calm piece 0 (front ++ rest)) :
    FirstPlace true piece front rest ↔ FirstPlace false piece front rest := by
  have hplace : ∀ front' rest', front' ++ rest' = front ++ rest →
      (Place true piece front' rest' ↔ Place false piece front' rest') := by
    intro front' rest' heq
    rw [← heq] at htext hcalm
    exact place_iff_of_calm hpiece htext hcalm
  constructor
  · rintro ⟨h, hfirst⟩
    exact ⟨(hplace _ _ rfl).1 h, fun _ _ heq h' => hfirst _ _ heq ((hplace _ _ heq).2 h')⟩
  · rintro ⟨h, hfirst⟩
    exact ⟨(hplace _ _ rfl).2 h, fun _ _ heq h' => hfirst _ _ heq ((hplace _ _ heq).1 h')⟩

end Transparency

/-! ### Comments that mislead the search -/

section Misleading

variable {skips : Bool} {piece comment front back rest : List Char} {depth middle last : Nat}

theorem reads_openings (skips : Bool) (rest : List Char) (n : Nat) :
    Reads skips rest 0 (List.replicate n '(') n := by
  induction n generalizing rest with
  | zero => exact .nil 0
  | succ n ih =>
    rw [List.replicate_succ']
    exact (ih (['('] ++ rest)).append (.of_item (.opening n (by decide)))

theorem reads_closings (skips : Bool) (rest : List Char) (depth n : Nat) :
    Reads skips rest depth (List.replicate n ')') (depth - n) := by
  induction n generalizing depth with
  | zero => exact .nil depth
  | succ n ih =>
    rw [List.replicate_succ, Nat.sub_add_eq, Nat.sub_right_comm]
    exact .cons_char (.closing depth (by decide)) (ih (depth - 1))

/-- A comment after `depth` opening and before `n` closing brackets. -/
def bracketed (depth : Nat) (comment : List Char) (n : Nat) : List Char :=
  List.replicate depth '(' ++ (comment ++ List.replicate n ')')

theorem bracketed_append (depth : Nat) (comment : List Char) (n : Nat) (cs : List Char) :
    bracketed depth comment n ++ cs =
      List.replicate depth '(' ++ (comment ++ (List.replicate n ')' ++ cs)) := by
  rw [bracketed, List.append_assoc, List.append_assoc]

variable {n : Nat} {c : Char} {cs : List Char}

theorem reads_bracketed (h : Reads skips (List.replicate n ')' ++ rest) depth comment middle) :
    Reads skips rest 0 (bracketed depth comment n) (middle - n) := by
  have hopenings := reads_openings skips (comment ++ List.replicate n ')' ++ rest) depth
  exact hopenings.append (h.append (reads_closings skips rest middle n))

theorem Plain.ordinary (h : Plain c) (hslash : c ≠ '/') (cs : List Char) :
    Ordinary c cs where
  not_quote := by simpa using h.not_quote
  not_backtick := h.not_backtick
  not_brace := ⟨fun hc => h.not_opening (.inr (.inr hc)), fun hc => h.not_closing (.inr (.inr hc))⟩
  not_comment hc := absurd hc hslash

theorem balanced_cons_iff_of_ordinary (hc : Ordinary c cs) :
    Balanced .code (c :: cs) ↔ Balanced .code cs := by
  refine ⟨fun h => ?_, .ordinary hc⟩
  generalize htext : c :: cs = text at h
  obtain ⟨hquote, hbacktick, hbrace, hcomment⟩ := hc
  cases h with
  | nil => cases htext
  | ordinary _ h =>
    cases htext
    exact h
  | quoted hquoted => cases htext; simp_all
  | template | line | block | group => cases htext; simp_all

theorem balanced_append_iff_of_ordinary (hcs : ∀ c ∈ cs, ∀ more, Ordinary c more) :
    Balanced .code (cs ++ rest) ↔ Balanced .code rest := by
  induction cs with
  | nil => rfl
  | cons c cs ih =>
    rw [List.cons_append, balanced_cons_iff_of_ordinary (hcs c List.mem_cons_self _)]
    exact ih fun d hd => hcs d (List.mem_cons_of_mem c hd)

theorem Comment.balanced_append (hcomment : Comment comment) (h : Balanced .code rest) :
    Balanced .code (comment ++ rest) := by
  cases hcomment with
  | line hbody => simpa using Balanced.line hbody h
  | block hbody => simpa using Balanced.block hbody h

theorem balanced_bracketed (hpiece : Searched piece) (hcomment : Comment comment) (depth n : Nat) :
    Balanced .code (bracketed depth comment n ++ piece) := by
  have hbracket : ∀ c, c = '(' ∨ c = ')' → ∀ more, Ordinary c more := by
    rintro c (rfl | rfl) more
    · exact ⟨by decide, by decide, by decide, by simp⟩
    · exact ⟨by decide, by decide, by decide, by simp⟩
  have hplain : ∀ c ∈ piece, ∀ more, Ordinary c more := by
    intro c hc more
    refine (hpiece.plain c hc).ordinary ?_ more
    rintro rfl
    exact hpiece.not_slash hc
  rw [bracketed_append]
  rw [balanced_append_iff_of_ordinary fun c hc => hbracket c (.inl (List.eq_of_mem_replicate hc))]
  refine hcomment.balanced_append ?_
  rw [balanced_append_iff_of_ordinary fun c hc => hbracket c (.inr (List.eq_of_mem_replicate hc)),
    ← List.append_nil piece, balanced_append_iff_of_ordinary hplain]
  exact .nil _

/-- Where a reading that skips comments can be in a text that starts with brackets and a comment. -/
theorem Reads.cases_bracketed (hcomment : Comment comment) (h : Reads true rest 0 front last)
    (heq : front ++ rest = List.replicate depth '(' ++ (comment ++ back)) :
    rest.head? = some '(' ∨ rest = comment ++ back ∧ last = depth ∨
      ∃ more, more ++ rest = back ∧ front = List.replicate depth '(' ++ (comment ++ more) ∧
        Reads true rest depth more last := by
  have hopenings := reads_openings true (comment ++ back) depth
  rcases List.append_eq_append_iff.1 heq with ⟨brackets, hbrackets, rfl⟩ | ⟨after, rfl, hafter⟩
  · cases brackets with
    | nil =>
      rw [List.append_nil] at hbrackets
      exact .inr (.inl ⟨rfl, h.unique (hbrackets ▸ hopenings)⟩)
    | cons c brackets =>
      have hc : c ∈ List.replicate depth '(' := by simp [hbrackets]
      exact .inl (congrArg some (List.eq_of_mem_replicate hc))
  · rw [hafter] at hopenings
    have hreads := hopenings.peel h
    cases hreads with
    | nil => exact .inr (.inl ⟨hafter.symm, rfl⟩)
    | @cons _ _ _ word more hitem hmore =>
      have hitem' : Item true back depth comment depth := .comment depth rfl hcomment
      rw [List.append_assoc] at hafter
      obtain ⟨rfl, rfl, rfl⟩ := hitem'.unique hitem hafter
      exact .inr (.inr ⟨more, rfl, rfl, hmore⟩)

/-- The comment between brackets is the only one. -/
theorem comment_of_bracketed (hpiece : Searched piece) (hcomment : Comment comment)
    {comment' : List Char} (hcomment' : Comment comment')
    (h : Reads true (comment' ++ rest) 0 front last)
    (heq : front ++ (comment' ++ rest) = bracketed depth comment n ++ piece) :
    last = depth ∧ comment' = comment := by
  rw [bracketed_append] at heq
  obtain ⟨tail, htail⟩ := hcomment'.head
  rcases h.cases_bracketed hcomment heq with hhead | ⟨hrest, hlast⟩ | ⟨more, hmore, _, _⟩
  · simp [htail] at hhead
  · have hitem : Item true rest depth comment' depth := .comment depth rfl hcomment'
    have hitem' : Item true (List.replicate n ')' ++ piece) depth comment depth :=
      .comment depth rfl hcomment
    exact ⟨hlast, (hitem.unique hitem' hrest).1⟩
  · have hslash : '/' ∈ List.replicate n ')' ++ piece := by
      rw [← hmore, htail]
      simp
    rcases List.mem_append.1 hslash with hmem | hmem
    · cases List.eq_of_mem_replicate hmem
    · exact absurd hmem hpiece.not_slash

/-- A piece after the brackets has a place only if enough of them are closed. -/
theorem place_of_bracketed (hpiece : Searched piece) (hcomment : Comment comment)
    (h : Place true piece front rest) (heq : front ++ rest = bracketed depth comment n ++ piece) :
    rest = piece ∧ depth ≤ n := by
  rw [bracketed_append] at heq
  obtain ⟨c, tail, hhead, hc, hslash⟩ := h.fits.head_plain hpiece
  rcases h.reads.cases_bracketed hcomment heq with hopening | ⟨hrest, _⟩ | ⟨more, hmore, _, hreads⟩
  · rw [hhead, List.head?_cons] at hopening
    cases hopening
    exact absurd (.inl rfl) hc.not_opening
  · obtain ⟨more, rfl⟩ := hcomment.head
    rw [hhead, List.cons_append] at hrest
    exact absurd (List.cons.inj hrest).1 hslash
  · have hclosings := reads_closings true piece depth n
    rcases List.append_eq_append_iff.1 hmore with
      ⟨brackets, hbrackets, hrest⟩ | ⟨after, rfl, hafter⟩
    · cases brackets with
      | nil =>
        rw [List.append_nil] at hbrackets
        rw [List.nil_append] at hrest
        subst hbrackets hrest
        exact ⟨rfl, Nat.sub_eq_zero_iff_le.1 (hclosings.unique hreads)⟩
      | cons d brackets =>
        have hd : d = ')' := List.eq_of_mem_replicate (n := n) (by simp [hbrackets])
        rw [hhead, List.cons_append] at hrest
        exact absurd (.inl ((List.cons.inj hrest).1.trans hd)) hc.not_closing
    · have hlength := h.fits.1.length_le
      have hnil : after = [] := by
        rw [hafter, List.length_append] at hlength
        exact List.length_eq_zero_iff.1 (by omega)
      subst hnil
      rw [List.nil_append] at hafter
      subst hafter
      rw [List.append_nil] at hreads
      exact ⟨rfl, Nat.sub_eq_zero_iff_le.1 (hclosings.unique hreads)⟩

theorem fits_self {previous : Char} (h : previous = '/' ∨ previous = '\n' ∨ previous = ')') :
    Fits piece (some previous) piece := by
  refine ⟨List.prefix_refl piece, ?_⟩
  rintro rfl
  rcases h with rfl | rfl | rfl <;> rfl

theorem fits_bracketed (hcomment : Comment comment) (depth n : Nat) :
    Fits piece (bracketed depth comment n).getLast? piece := by
  obtain ⟨x, hlast, hx⟩ := hcomment.getLast?_eq
  rw [bracketed, List.getLast?_append, List.getLast?_append, hlast, List.getLast?_replicate]
  split
  · rw [Option.none_or, Option.some_or]
    exact fits_self (by rcases hx with rfl | rfl <;> simp)
  · rw [Option.some_or, Option.some_or]
    exact fits_self (by simp)

/-- Of text with comments as text each item of more than one character ends with a quote or a
backtick. -/
theorem Item.length_eq_one_or {word : List Char} (h : Item false rest depth word middle) :
    word.length = 1 ∨ ∃ x, word.getLast? = some x ∧ (x = '\'' ∨ x = '"' ∨ x = '\x60') := by
  cases h with
  | plain | opening | closing => exact .inl rfl
  | @quoted quote body hquote =>
    refine .inr ⟨quote, by rw [← List.cons_append, List.getLast?_concat], ?_⟩
    exact hquote.imp_right .inl
  | template =>
    exact .inr ⟨'\x60', by rw [← List.cons_append, List.getLast?_concat], .inr (.inr rfl)⟩
  | comment hskips => cases hskips

/-- A reading with comments as text that goes on in text without quotes was at its start. -/
theorem Reads.exists_middle (h : Reads false rest depth (front ++ back) last)
    (hback : ∀ c ∈ back, c ≠ '\'' ∧ c ≠ '"' ∧ c ≠ '\x60') :
    ∃ middle,
      Reads false (back ++ rest) depth front middle ∧ Reads false rest middle back last := by
  generalize htext : front ++ back = text at h
  induction h generalizing front with
  | nil depth =>
    obtain ⟨rfl, rfl⟩ := List.append_eq_nil_iff.1 htext
    exact ⟨depth, .nil depth, .nil depth⟩
  | @cons depth depth' last word more hitem hmore ih =>
    rcases List.append_eq_append_iff.1 htext with ⟨after, rfl, rfl⟩ | ⟨after, rfl, rfl⟩
    · by_cases hfront : front = []
      · subst hfront
        exact ⟨depth, .nil depth, .cons hitem hmore⟩
      by_cases hafter : after = []
      · subst hafter
        rw [List.append_nil] at hitem
        exact ⟨depth', .of_item hitem, hmore⟩
      · -- the item would reach over the start, so its last quote would stand after it
        exfalso
        rcases hitem.length_eq_one_or with hone | ⟨x, hlast, hx⟩
        · have := List.length_pos_iff.2 hfront
          have := List.length_pos_iff.2 hafter
          rw [List.length_append] at hone
          omega
        · rw [List.getLast?_append, getLast?_or hafter] at hlast
          have hnot := hback x (List.mem_append_left more (List.mem_of_getLast? hlast))
          rcases hx with rfl | rfl | rfl <;> simp at hnot
    · obtain ⟨middle, hfront, hlast⟩ := ih rfl
      refine ⟨middle, .cons ?_ hfront, hlast⟩
      exact hitem.of_rest _

/-- How many brackets are open after a comment that is read as text. -/
theorem exists_reads_of_bracketed (h : Reads false rest 0 (bracketed depth comment n) last) :
    ∃ middle, Reads false [] depth comment middle ∧ last = middle - n := by
  have hopenings := reads_openings false (comment ++ List.replicate n ')' ++ rest) depth
  have hnot : ∀ c ∈ List.replicate n ')', c ≠ '\'' ∧ c ≠ '"' ∧ c ≠ '\x60' := by
    intro c hc
    rw [List.eq_of_mem_replicate hc]
    decide
  obtain ⟨middle, hcomment, hclosings⟩ := (hopenings.peel h).exists_middle hnot
  exact ⟨middle, hcomment.of_rest [], hclosings.unique (reads_closings false rest middle n)⟩

/-- **A comment that misleads no search is transparent.** -/
theorem transparent_of_found (hpiece : Searched piece) (hcomment : Comment comment)
    (h : ∀ n front rest, front ++ rest = bracketed depth comment n ++ piece →
      (seekOutside piece none 0 (front ++ rest) = some rest ↔ FirstPlace true piece front rest)) :
    Transparent piece depth comment := by
  -- with as many brackets closed as are open the piece has one place, so the search finds it
  have hfirst : FirstPlace true piece (bracketed depth comment depth) piece := by
    have hreads : Reads true piece 0 (bracketed depth comment depth) (depth - depth) :=
      reads_bracketed (.of_item (.comment depth rfl hcomment))
    rw [Nat.sub_self] at hreads
    refine ⟨⟨hreads, fits_bracketed hcomment depth depth⟩, fun front' rest' heq hplace => ?_⟩
    obtain ⟨rfl, _⟩ := place_of_bracketed hpiece hcomment hplace heq
    exact Nat.le_of_eq (congrArg List.length (List.append_cancel_right heq).symm)
  have hfound := (seekOutside_iff hpiece _ _).1 ((h depth _ _ rfl).2 hfirst)
  refine ⟨?_, ?_⟩
  · obtain ⟨middle, hmiddle, hlast⟩ := exists_reads_of_bracketed hfound.place.reads
    have hle : middle ≤ depth := by omega
    rcases Nat.lt_or_eq_of_le hle with hlt | rfl
    · -- too many brackets are closed in the comment, so the search finds a piece inside of brackets
      have hreads : Reads false piece 0 (bracketed depth comment middle) (middle - middle) :=
        reads_bracketed (hmiddle.of_rest _)
      rw [Nat.sub_self] at hreads
      obtain ⟨front, rest, heq, hsome⟩ := exists_found_of_place hpiece
        ⟨hreads, fits_bracketed hcomment depth middle⟩
      rw [← heq] at hsome
      have hplace := ((h middle front rest heq).1 hsome).place
      have := (place_of_bracketed hpiece hcomment hplace heq).2
      omega
    · exact hmiddle
  · -- the search would find the piece in the comment first
    rintro front inner rfl hreads hfits
    have hfront : front ≠ [] :=
      hcomment.ne_nil_of_fits hpiece (show Fits piece _ (inner ++ []) by simpa using hfits)
    have hinner : inner ≠ [] := by
      obtain ⟨c, more, rfl, _⟩ := hfits.head_plain hpiece
      simp
    have hplace : Place false piece (List.replicate depth '(' ++ front)
        (inner ++ (List.replicate depth ')' ++ piece)) := by
      refine ⟨?_, ?_⟩
      · exact (reads_openings false _ depth).append (hreads.of_rest _)
      · obtain ⟨body, x, rfl, hx⟩ := hcomment.exists_end hpiece hinner
        rw [List.getLast?_append, getLast?_or hfront]
        exact (fits_append_iff hx).2 hfits
    have hle := hfound.first _ _ (by simp [bracketed]) hplace
    have := List.length_pos_iff.2 hinner
    simp only [bracketed, List.length_append, List.length_replicate] at hle
    omega

end Misleading

/-! ### Block tags -/

/-- The characters of code that are not ordinary, or not always. -/
def signs : List Char := ['\'', '"', '\x60', '\x7b', '\x7d', '/']

theorem ordinary_of_not_mem_signs (h : c ∉ signs) (more : List Char) : Ordinary c more := by
  simp only [signs, List.mem_cons, List.not_mem_nil, or_false, not_or] at h
  obtain ⟨hsingle, hdouble, hbacktick, hopen, hclose, hslash⟩ := h
  exact ⟨⟨hsingle, hdouble⟩, hbacktick, ⟨hopen, hclose⟩, fun hc => absurd hc hslash⟩

theorem ordinary_of_mem_takeWhile {p : Char → Bool} (hp : signs.all (!p ·) = true)
    (hc : c ∈ cs.takeWhile p) (more : List Char) : Ordinary c more := by
  refine ordinary_of_not_mem_signs (fun hmem => ?_) more
  have htrue : p c = true := List.all_eq_true.1 List.all_takeWhile c hc
  have hfalse := List.all_eq_true.1 hp c hmem
  simp [htrue] at hfalse

/-- What follows the keyword of a block tag is balanced. -/
theorem balanced_of_blockTag {inside after text : List Char} {sign : Char} {kind : BlockKind}
    (h : braced cs = some (inside, after)) (hinside : inside.dropWhile Text.isSpace = sign :: text)
    (hsign : BlockKind.ofSign? sign = some kind) (hkind : kind ≠ .closing) :
    Balanced .code (text.drop (text.takeWhile Char.isAlpha).length) := by
  have hordinary : ∀ more, Ordinary sign more := by
    refine ordinary_of_not_mem_signs fun hmem => ?_
    unfold BlockKind.ofSign? at hsign
    split at hsign <;> simp_all [signs]
  have hbalanced := (braced_iff.1 h).1
  rw [← List.takeWhile_append_dropWhile (p := Text.isSpace) (l := inside), hinside,
    balanced_append_iff_of_ordinary fun c hc => ordinary_of_mem_takeWhile (by decide) hc,
    balanced_cons_iff_of_ordinary (hordinary _)] at hbalanced
  have hsplit : text.takeWhile Char.isAlpha ++ text.drop (text.takeWhile Char.isAlpha).length =
      text := List.prefix_iff_eq_append.1 <| List.takeWhile_prefix Char.isAlpha
  rwa [← hsplit, balanced_append_iff_of_ordinary fun c hc =>
    ordinary_of_mem_takeWhile (by decide) hc] at hbalanced

end TopLevel

open TopLevel

/-- **When the search finds the first place.**  What is found is the first place outside of
brackets, strings and templates, with comments read as text.  It is the first place outside of
comments too in every balanced text, such as that of a block tag, whose comments are transparent,
and of no larger class of comments this is true. -/
theorem seekOutside_first_place_iff {piece : List Char} (hpiece : piece ∈ pieces) :
    (∀ front rest, seekOutside piece none 0 (front ++ rest) = some rest ↔
      FirstPlace false piece front rest) ∧
    (∀ comments : Nat → List Char → Prop,
      (∀ depth comment, comments depth comment → Comment comment) →
      ((∀ depth comment, comments depth comment → Transparent piece depth comment) ↔
        ∀ text, Balanced .code text →
          (∀ front comment rest depth, front ++ (comment ++ rest) = text →
            Reads true (comment ++ rest) 0 front depth → Comment comment → comments depth comment) →
          ∀ front rest, front ++ rest = text →
            (seekOutside piece none 0 text = some rest ↔ FirstPlace true piece front rest))) ∧
    ∀ (cs inside after text : List Char) (sign : Char) (kind : BlockKind),
      braced cs = some (inside, after) → inside.dropWhile Text.isSpace = sign :: text →
      BlockKind.ofSign? sign = some kind → kind ≠ .closing →
      Balanced .code (text.drop (text.takeWhile Char.isAlpha).length) := by
  have hsearched := searched_of_mem hpiece
  refine ⟨fun front rest => seekOutside_iff hsearched front rest, ?_, ?_⟩
  · intro comments hcomments
    constructor
    · rintro htransparent text htext hall front rest rfl
      have hcalm : Calm piece 0 (front ++ rest) := by
        intro front' comment rest' depth heq hreads hcomment
        exact htransparent depth comment (hall front' comment rest' depth heq hreads hcomment)
      rw [seekOutside_iff hsearched, firstPlace_iff_of_calm hsearched htext hcalm]
    · intro hfound depth comment hmem
      have hcomment := hcomments depth comment hmem
      refine transparent_of_found hsearched hcomment fun n front rest heq => ?_
      refine hfound _ (heq ▸ balanced_bracketed hsearched hcomment depth n) ?_ front rest rfl
      intro front' comment' rest' depth' heq' hreads hcomment'
      obtain ⟨rfl, rfl⟩ := comment_of_bracketed hsearched hcomment hcomment' hreads (heq'.trans heq)
      exact hmem
  · intro cs inside after text sign kind h hinside hsign hkind
    exact balanced_of_blockTag h hinside hsign hkind

theorem seekOutside_first_place_iff_bracketed :
    " as ".toList ∈ pieces ∧ Transparent " as ".toList 1 "/* its */".toList ∧
      FirstPlace true " as ".toList (bracketed 1 "/* its */".toList 1) " as ".toList := by
  have hpiece : " as ".toList ∈ pieces := by decide +kernel
  have hcomment : Comment "/* its */".toList :=
    .block (show ¬['*', '/'] <:+: " its ".toList by decide +kernel)
  have htransparent : Transparent " as ".toList 1 "/* its */".toList :=
    transparent_of_plain (plain_of_all (by decide +kernel)) (by decide +kernel) 1
  obtain ⟨_, hcomments, _⟩ := seekOutside_first_place_iff hpiece
  have hfound := (hcomments (fun depth comment => depth = 1 ∧ comment = "/* its */".toList)
    (by rintro _ _ ⟨rfl, rfl⟩; exact hcomment)).1 (by rintro _ _ ⟨rfl, rfl⟩; exact htransparent)
    (bracketed 1 "/* its */".toList 1 ++ " as ".toList)
    (balanced_bracketed (searched_of_mem hpiece) hcomment 1 1)
    (fun front comment rest depth heq hreads hcomment' =>
      comment_of_bracketed (searched_of_mem hpiece) hcomment hcomment' hreads heq)
  exact ⟨hpiece, htransparent, (hfound _ _ rfl).1 (by decide +kernel)⟩

/-- **A comment misleads the search**: in one text it finds a piece inside of the comment, and in
another it finds none, though one stands after the comment. -/
theorem seekOutside_misled :
    (seekOutside " as ".toList none 0 " items /* all as read */ as item".toList =
        some " as read */ as item".toList ∧
      ∀ depth, ¬Reads true " as read */ as item".toList 0 " items /* all".toList depth) ∧
    Place true " as ".toList " items /* it's */".toList " as item".toList ∧
      seekOutside " as ".toList none 0 " items /* it's */ as item".toList = none := by
  have hitems : ∀ rest, Reads true rest 0 " items ".toList 0 := fun rest =>
    reads_plain (plain_of_all (by decide +kernel)) (fun _ => by decide +kernel) rest 0
  refine ⟨⟨by decide +kernel, fun depth h => ?_⟩, ⟨?_, by decide +kernel⟩, by decide +kernel⟩
  · -- the comment is one item, and it is longer than what is read of it
    have hsplit : " items /* all".toList = " items ".toList ++ "/* all".toList := by decide +kernel
    rw [hsplit] at h
    have hreads := (hitems _).peel h
    have hitem : Item true " as item".toList 0 "/* all as read */".toList 0 :=
      .comment 0 rfl (.block (show ¬['*', '/'] <:+: " all as read ".toList by decide +kernel))
    generalize htext : "/* all".toList = text at hreads
    cases hreads with
    | nil => exact absurd htext (by decide +kernel)
    | @cons _ _ _ word more hitem' _ =>
      have heq : "/* all as read */".toList ++ " as item".toList =
          word ++ (more ++ " as read */ as item".toList) := by
        rw [← List.append_assoc, ← htext]
        decide +kernel
      obtain ⟨rfl, _, _⟩ := hitem.unique hitem' heq
      have hlength := congrArg List.length htext
      rw [List.length_append] at hlength
      have : "/* all".toList.length < "/* all as read */".toList.length := by decide +kernel
      omega
  · have hsplit : " items /* it's */".toList = " items ".toList ++ "/* it's */".toList := by
      decide +kernel
    rw [hsplit]
    refine (hitems _).append (.of_item (.comment 0 rfl ?_))
    exact .block (show ¬['*', '/'] <:+: " it's ".toList by decide +kernel)

end CssRune
