/-
**Balanced text.**

The search for the brace that closes a group is one loop with a stack: an open brace belongs to a
group, or it interrupts a template.  What the loop accepts is said here by a grammar instead.  Text
of code is a sequence of ordinary characters, quoted strings, comments, templates and groups in
braces; text of a template may be interrupted by text of code in braces.  The two call each other,
so they are the two layers of one definition, and each layer has a character that ends it.

Main definitions:

* `Layer`, `Balanced` — **balanced text** of code and of templates.

Main results:

* `afterBrace_eq_elim` — the search is made of its rounds;
* `Balanced.reaches` — **a search passes balanced text**, and the same braces are open then;
* `Layer.passes` — what a search passes is balanced;
* `braced_iff`, `afterBacktick_iff` — what stands between two braces, and between two backticks.
-/

import CssRune.Proofs.Markup.Braces
import Mathlib.Logic.Relation

set_option autoImplicit false

namespace CssRune

open Text

/-! ### Strings and comments -/

/-- The text between two quotes: a backslash takes the character after it along. -/
inductive QuotedText (quote : Char) : List Char → Prop
  | nil : QuotedText quote []
  | plain {c : Char} {cs : List Char} (hquote : c ≠ quote) (hescape : c ≠ '\\')
      (h : QuotedText quote cs) : QuotedText quote (c :: cs)
  | escape (c : Char) {cs : List Char} (h : QuotedText quote cs) :
      QuotedText quote ('\\' :: c :: cs)

namespace Text

variable {cs r : List Char}

/-- What follows the closing quote follows the text between the quotes. -/
theorem afterQuoted_iff {quote : Char} (hquote : quote ≠ '\\') :
    afterQuoted quote cs = some r ↔ ∃ body, QuotedText quote body ∧ cs = body ++ quote :: r := by
  constructor
  · intro h
    fun_induction afterQuoted quote cs with
    | case1 => cases h
    | case2 => cases h
    | case3 c cs ih =>
      obtain ⟨body, hbody, rfl⟩ := ih h
      exact ⟨_, .escape c hbody, rfl⟩
    | case4 cs =>
      cases h
      exact ⟨[], .nil, rfl⟩
    | case5 c cs hescape hne ih =>
      obtain ⟨body, hbody, rfl⟩ := ih h
      exact ⟨_, .plain hne (fun heq => hescape heq) hbody, rfl⟩
  · rintro ⟨body, hbody, rfl⟩
    induction hbody with
    | nil => simp [afterQuoted]
    | plain hne hescape _ ih => simp [afterQuoted, hne, ih]
    | escape c _ ih => simpa [afterQuoted] using ih

/-- What follows a comment follows the first place where it is closed. -/
theorem afterComment_iff :
    afterComment cs = some r ↔
      ∃ body, ¬['*', '/'] <:+: body ∧ cs = body ++ '*' :: '/' :: r := by
  constructor
  · intro h
    fun_induction afterComment cs with
    | case1 => cases h
    | case2 cs =>
      cases h
      exact ⟨[], by simp, rfl⟩
    | case3 c cs hopen ih =>
      obtain ⟨body, hbody, rfl⟩ := ih h
      refine ⟨c :: body, ?_, rfl⟩
      intro hwithin
      rcases List.infix_cons_iff.1 hwithin with ⟨more, hmore⟩ | hwithin
      · cases hmore
        exact hopen _ rfl rfl
      · exact hbody hwithin
  · rintro ⟨body, hbody, rfl⟩
    induction body with
    | nil => rfl
    | cons c body ih =>
      have hnot : ∀ more, c = '*' → body ++ '*' :: '/' :: r = '/' :: more → False := by
        intro more hc hmore
        cases body with
        | nil => simp at hmore
        | cons d body =>
          cases hmore
          exact hbody ⟨[], body, by simp [hc]⟩
      rw [List.cons_append, afterComment]
      · exact ih fun hwithin => hbody (hwithin.trans (List.suffix_cons c body).isInfix)
      · exact hnot

end Text

/-! ### The grammar -/

/-- What a text is read as. -/
inductive Layer where
  | code
  /-- Between two backticks. -/
  | template
  deriving DecidableEq, Repr

/-- An ordinary character of code, with what comes after it: neither a quote, a backtick or a brace
nor the start of a comment. -/
structure Ordinary (c : Char) (cs : List Char) : Prop where
  not_quote : c ≠ '\'' ∧ c ≠ '"'
  not_backtick : c ≠ '\x60'
  not_brace : c ≠ '\x7b' ∧ c ≠ '\x7d'
  not_comment : c = '/' → cs.head? ≠ some '/' ∧ cs.head? ≠ some '*'

/-- **Balanced text** of code and of templates. -/
inductive Balanced : Layer → List Char → Prop
  | nil (layer : Layer) : Balanced layer []
  | ordinary {c : Char} {cs : List Char} (hc : Ordinary c cs) (h : Balanced .code cs) :
      Balanced .code (c :: cs)
  | quoted {quote : Char} {body cs : List Char} (hquote : quote = '\'' ∨ quote = '"')
      (hbody : QuotedText quote body) (h : Balanced .code cs) :
      Balanced .code (quote :: (body ++ quote :: cs))
  | template {body cs : List Char} (hbody : Balanced .template body) (h : Balanced .code cs) :
      Balanced .code ('\x60' :: (body ++ '\x60' :: cs))
  /-- A comment that ends with its line. -/
  | line {body cs : List Char} (hbody : '\n' ∉ body) (h : Balanced .code cs) :
      Balanced .code ('/' :: '/' :: (body ++ '\n' :: cs))
  /-- A comment that is closed. -/
  | block {body cs : List Char} (hbody : ¬['*', '/'] <:+: body) (h : Balanced .code cs) :
      Balanced .code ('/' :: '*' :: (body ++ '*' :: '/' :: cs))
  /-- Text in braces. -/
  | group {inside cs : List Char} (hinside : Balanced .code inside) (h : Balanced .code cs) :
      Balanced .code ('\x7b' :: (inside ++ '\x7d' :: cs))
  /-- A character of a template. -/
  | text {c : Char} {cs : List Char} (hescape : c ≠ '\\') (hbacktick : c ≠ '\x60')
      (hhole : c = '$' → cs.head? ≠ some '\x7b') (h : Balanced .template cs) :
      Balanced .template (c :: cs)
  /-- A backslash in a template takes the character after it along. -/
  | escape (c : Char) {cs : List Char} (h : Balanced .template cs) :
      Balanced .template ('\\' :: c :: cs)
  /-- An expression that interrupts a template. -/
  | hole {inside cs : List Char} (hinside : Balanced .code inside) (h : Balanced .template cs) :
      Balanced .template ('$' :: '\x7b' :: (inside ++ '\x7d' :: cs))

/-! ### The rounds of the search -/

variable {c : Char} {cs body text r : List Char} {stack : List Opening} {layer : Layer}

theorem Text.afterTemplate_text (hescape : c ≠ '\\') (hbacktick : c ≠ '\x60')
    (hhole : c = '$' → cs.head? ≠ some '\x7b') : afterTemplate (c :: cs) = afterTemplate cs := by
  rw [afterTemplate, if_neg hbacktick]
  · exact hescape
  · rintro rest rfl rfl
    exact hhole rfl rfl

/-- The open braces and the text a search goes on with from inside a template. -/
def resumed (stack : List Opening) (cs : List Char) : Option (List Opening × List Char) :=
  (Text.afterTemplate cs).map fun piece =>
    (if piece.1 then stack else .hole :: stack, piece.2)

/-- One round of the search: the open braces and the text it goes on with, unless it ends. -/
def nextRound (stack : List Opening) : List Char → Option (List Opening × List Char)
  | [] => none
  | c :: cs =>
    if c = '\'' ∨ c = '"' then (Text.afterQuoted c cs).map (stack, ·)
    else if c = '\x60' then resumed stack cs
    else if c = '/' ∧ cs.head? = some '/' then some (stack, cs.dropWhile (· ≠ '\n'))
    else if c = '/' ∧ cs.head? = some '*' then (Text.afterComment (cs.drop 1)).map (stack, ·)
    else if c = '\x7b' then some (.group :: stack, cs)
    else if c = '\x7d' then
      match stack with
      | [] => none
      | [_] => none
      | .group :: o :: stack => some (o :: stack, cs)
      | .hole :: o :: stack => resumed (o :: stack) cs
    else some (stack, cs)

/-- What a search finds in its last round: what follows a brace that closes the only open one. -/
def lastRound : List Opening → List Char → Option (List Char)
  | [_], '\x7d' :: cs => some cs
  | _, _ => none

/-- A search arrives at other open braces and another text in some rounds. -/
def Reaches : List Opening × List Char → List Opening × List Char → Prop :=
  Relation.ReflTransGen fun s t => nextRound s.1 s.2 = some t

/-- The search from inside a template on. -/
def resumeTemplate (stack : List Opening) (cs : List Char) : Option (List Char) :=
  match Text.afterTemplate cs with
  | none => none
  | some (true, rest) => afterBrace stack rest
  | some (false, rest) => afterBrace (.hole :: stack) rest

section Steps

variable {stack : List Opening} {cs : List Char}

theorem lastRound_eq_none (h : cs.head? ≠ some '\x7d') : lastRound stack cs = none := by
  unfold lastRound
  split
  · simp at h
  · rfl

/-- **The search is made of its rounds.** -/
theorem afterBrace_eq_elim :
    afterBrace stack cs =
      (nextRound stack cs).elim (lastRound stack cs) fun s => afterBrace s.1 s.2 := by
  rw [afterBrace.eq_def]
  cases cs with
  | nil => simp [nextRound, lastRound]
  | cons c cs =>
    dsimp only [nextRound]
    by_cases hclose : c = '\x7d'
    · subst hclose
      rcases stack with _ | ⟨_ | _, _ | ⟨o, stack⟩⟩
      case cons.hole.cons =>
        simp only [resumed, lastRound, Char.reduceEq, or_self, reduceIte, false_and,
          Option.elim_map]
        split <;> simp_all
      all_goals rfl
    · rw [lastRound_eq_none (by simpa using hclose)]
      simp only [hclose, if_false, resumed]
      -- branch by branch the two sides read the same piece of the text
      repeat' split
      all_goals simp_all

theorem resumed_backtick : resumed stack ('\x60' :: cs) = some (stack, cs) := by
  simp [resumed, afterTemplate]

theorem resumed_hole : resumed stack ('$' :: '\x7b' :: cs) = some (.hole :: stack, cs) := by
  simp [resumed, afterTemplate]

variable {quote c : Char} {s t : List Opening × List Char}

theorem nextRound_quote (hquote : quote = '\'' ∨ quote = '"') :
    nextRound stack (quote :: cs) = (afterQuoted quote cs).map (stack, ·) := by
  rw [nextRound.eq_def]
  exact if_pos hquote

/-- What a round does at a closing brace depends on what the brace closes. -/
theorem nextRound_close (o : Opening) (hstack : stack ≠ []) :
    nextRound (o :: stack) ('\x7d' :: cs) =
      if o = .group then some (stack, cs) else resumed stack cs := by
  obtain ⟨p, stack, rfl⟩ := List.exists_cons_of_ne_nil hstack
  cases o <;> rfl

theorem nextRound_ordinary (hc : Ordinary c cs) : nextRound stack (c :: cs) = some (stack, cs) := by
  obtain ⟨hquote, hbacktick, hbrace, hcomment⟩ := hc
  rw [nextRound.eq_def]
  dsimp only
  rw [if_neg (by simp [hquote]), if_neg hbacktick, if_neg ?_, if_neg ?_, if_neg hbrace.1,
    if_neg hbrace.2]
  · rintro ⟨rfl, hhead⟩
    exact (hcomment rfl).2 hhead
  · rintro ⟨rfl, hhead⟩
    exact (hcomment rfl).1 hhead

theorem Reaches.round (hround : nextRound stack cs = some s) (h : Reaches s t) :
    Reaches (stack, cs) t := .head hround h

theorem Reaches.afterBrace_eq (h : Reaches s t) : afterBrace s.1 s.2 = afterBrace t.1 t.2 := by
  induction h with
  | refl => rfl
  | tail _ hround ih => rw [ih, afterBrace_eq_elim, hround, Option.elim_some]

theorem resumeTemplate_eq_bind :
    resumeTemplate stack cs = (resumed stack cs).bind fun s => afterBrace s.1 s.2 := by
  rw [resumeTemplate, resumed]
  split <;> simp_all

/-! ### The search after one round -/

@[simp] theorem afterBrace_nil : afterBrace stack [] = none := by
  rw [afterBrace]

theorem afterBrace_quote (hquote : quote = '\'' ∨ quote = '"') :
    afterBrace stack (quote :: cs) = (afterQuoted quote cs).bind (afterBrace stack) := by
  have hhead : (quote :: cs).head? ≠ some '\x7d' := by rcases hquote with rfl | rfl <;> simp
  rw [afterBrace_eq_elim, nextRound_quote hquote, lastRound_eq_none hhead]
  cases afterQuoted quote cs <;> rfl

@[simp] theorem afterBrace_backtick :
    afterBrace stack ('\x60' :: cs) = resumeTemplate stack cs := by
  rw [afterBrace_eq_elim, lastRound_eq_none (by simp), resumeTemplate_eq_bind]
  change (resumed stack cs).elim _ _ = _
  cases resumed stack cs <;> rfl

theorem afterBrace_slashes :
    afterBrace stack ('/' :: '/' :: cs) = afterBrace stack (cs.dropWhile (· ≠ '\n')) :=
  afterBrace_eq_elim

theorem afterBrace_block :
    afterBrace stack ('/' :: '*' :: cs) = (afterComment cs).bind (afterBrace stack) := by
  rw [afterBrace_eq_elim, lastRound_eq_none (by simp)]
  change ((afterComment cs).map (stack, ·)).elim _ _ = _
  cases afterComment cs <;> rfl

@[simp] theorem afterBrace_open :
    afterBrace stack ('\x7b' :: cs) = afterBrace (.group :: stack) cs :=
  afterBrace_eq_elim

@[simp] theorem afterBrace_close_nil : afterBrace [] ('\x7d' :: cs) = none :=
  afterBrace_eq_elim

/-- What a closing brace does depends on what it closes. -/
theorem afterBrace_close (o : Opening) :
    afterBrace (o :: stack) ('\x7d' :: cs) =
      if stack = [] then some cs
      else if o = .group then afterBrace stack cs else resumeTemplate stack cs := by
  rw [afterBrace_eq_elim]
  by_cases hstack : stack = []
  · subst hstack
    rfl
  · have hlast : lastRound (o :: stack) ('\x7d' :: cs) = none := by simp [lastRound, hstack]
    rw [if_neg hstack, nextRound_close o hstack, hlast, resumeTemplate_eq_bind]
    cases o with
    | group => rfl
    | hole => cases resumed stack cs <;> simp

theorem afterBrace_ordinary (hc : Ordinary c cs) :
    afterBrace stack (c :: cs) = afterBrace stack cs := by
  rw [afterBrace_eq_elim, nextRound_ordinary hc, Option.elim_some]

@[simp] theorem resumeTemplate_nil : resumeTemplate stack [] = none := rfl

@[simp] theorem resumeTemplate_cut : resumeTemplate stack ['\\'] = none :=
  rfl

@[simp] theorem resumeTemplate_backtick :
    resumeTemplate stack ('\x60' :: cs) = afterBrace stack cs := by
  rw [resumeTemplate_eq_bind, resumed_backtick, Option.bind_some]

@[simp] theorem resumeTemplate_escape (c : Char) :
    resumeTemplate stack ('\\' :: c :: cs) = resumeTemplate stack cs := rfl

@[simp] theorem resumeTemplate_hole :
    resumeTemplate stack ('$' :: '\x7b' :: cs) = afterBrace (.hole :: stack) cs := by
  rw [resumeTemplate_eq_bind, resumed_hole, Option.bind_some]

theorem resumeTemplate_text (hescape : c ≠ '\\') (hbacktick : c ≠ '\x60')
    (hhole : c = '$' → cs.head? ≠ some '\x7b') :
    resumeTemplate stack (c :: cs) = resumeTemplate stack cs := by
  rw [resumeTemplate, afterTemplate_text hescape hbacktick hhole, resumeTemplate]

end Steps

/-- How text of code can start. -/
theorem code_cases (cs : List Char) :
    cs = [] ∨ (∃ quote more, (quote = '\'' ∨ quote = '"') ∧ cs = quote :: more) ∨
      (∃ more, cs = '\x60' :: more) ∨ (∃ more, cs = '/' :: '/' :: more) ∨
      (∃ more, cs = '/' :: '*' :: more) ∨ (∃ more, cs = '\x7b' :: more) ∨
      (∃ more, cs = '\x7d' :: more) ∨ ∃ c more, cs = c :: more ∧ Ordinary c more := by
  cases cs with
  | nil => exact .inl rfl
  | cons c cs =>
  refine .inr ?_
  by_cases hquote : c = '\'' ∨ c = '"'
  · exact .inl ⟨c, cs, hquote, rfl⟩
  refine .inr ?_
  by_cases hbacktick : c = '\x60'
  · exact .inl ⟨cs, by rw [hbacktick]⟩
  refine .inr ?_
  by_cases hline : c = '/' ∧ cs.head? = some '/'
  · obtain ⟨rfl, hhead⟩ := hline
    obtain ⟨cs, rfl⟩ := List.head?_eq_some_iff.1 hhead
    exact .inl ⟨cs, rfl⟩
  refine .inr ?_
  by_cases hblock : c = '/' ∧ cs.head? = some '*'
  · obtain ⟨rfl, hhead⟩ := hblock
    obtain ⟨cs, rfl⟩ := List.head?_eq_some_iff.1 hhead
    exact .inl ⟨cs, rfl⟩
  refine .inr ?_
  by_cases hopen : c = '\x7b'
  · exact .inl ⟨cs, by rw [hopen]⟩
  refine .inr ?_
  by_cases hclose : c = '\x7d'
  · exact .inl ⟨cs, by rw [hclose]⟩
  refine .inr ⟨c, cs, rfl, by simpa using hquote, hbacktick, ⟨hopen, hclose⟩, ?_⟩
  exact fun hc => ⟨fun hhead => hline ⟨hc, hhead⟩, fun hhead => hblock ⟨hc, hhead⟩⟩

/-- How text of a template can start. -/
theorem template_cases (cs : List Char) :
    cs = [] ∨ cs = ['\\'] ∨ (∃ c more, cs = '\\' :: c :: more) ∨ (∃ more, cs = '\x60' :: more) ∨
      (∃ more, cs = '$' :: '\x7b' :: more) ∨
      ∃ c more, cs = c :: more ∧ c ≠ '\\' ∧ c ≠ '\x60' ∧ (c = '$' → more.head? ≠ some '\x7b') := by
  cases cs with
  | nil => exact .inl rfl
  | cons c cs =>
  by_cases hescape : c = '\\'
  · subst hescape
    cases cs with
    | nil => exact .inr (.inl rfl)
    | cons d cs => exact .inr (.inr (.inl ⟨d, cs, rfl⟩))
  by_cases hbacktick : c = '\x60'
  · exact .inr (.inr (.inr (.inl ⟨cs, by rw [hbacktick]⟩)))
  by_cases hhole : c = '$' ∧ cs.head? = some '\x7b'
  · obtain ⟨rfl, hhead⟩ := hhole
    obtain ⟨cs, rfl⟩ := List.head?_eq_some_iff.1 hhead
    exact .inr (.inr (.inr (.inr (.inl ⟨cs, rfl⟩))))
  · refine .inr (.inr (.inr (.inr (.inr ⟨c, cs, rfl, hescape, hbacktick, ?_⟩))))
    exact fun hc hhead => hhole ⟨hc, hhead⟩

/-! ### The search in either layer -/

namespace Layer

/-- The character that ends a layer. -/
def ending : Layer → Char
  | code => '\x7d'
  | template => '\x60'

/-- The search in a layer. -/
def search : Layer → List Opening → List Char → Option (List Char)
  | code => afterBrace
  | template => resumeTemplate

/-- The open braces and the text a search in a layer goes on with. -/
def place : Layer → List Opening → List Char → Option (List Opening × List Char)
  | code => fun stack cs => some (stack, cs)
  | template => resumed

theorem search_eq_bind (layer : Layer) (stack : List Opening) (cs : List Char) :
    layer.search stack cs = (layer.place stack cs).bind fun s => afterBrace s.1 s.2 := by
  cases layer with
  | code => rfl
  | template => exact resumeTemplate_eq_bind

end Layer

theorem afterBrace_close_group (hstack : stack ≠ []) :
    afterBrace (.group :: stack) ('\x7d' :: cs) = afterBrace stack cs := by
  simp [afterBrace_close, hstack]

theorem afterBrace_close_hole (hstack : stack ≠ []) :
    afterBrace (.hole :: stack) ('\x7d' :: cs) = resumeTemplate stack cs := by
  simp [afterBrace_close, hstack]

theorem head?_append_ne_iff {d : Char} (hne : d ≠ c) (cs rest : List Char) :
    (cs ++ d :: rest).head? ≠ some c ↔ cs.head? ≠ some c := by
  cases cs <;> simp [hne]

/-- A brace does not turn the slash before it into a comment. -/
theorem ordinary_append_iff (rest : List Char) :
    Ordinary c (cs ++ '\x7d' :: rest) ↔ Ordinary c cs := by
  constructor <;> rintro ⟨hquote, hbacktick, hbrace, hcomment⟩ <;>
    refine ⟨hquote, hbacktick, hbrace, ?_⟩
  · rwa [head?_append_ne_iff (by decide), head?_append_ne_iff (by decide)] at hcomment
  · rwa [head?_append_ne_iff (by decide), head?_append_ne_iff (by decide)]

theorem ordinary_newline : Ordinary '\n' cs where
  not_quote := by decide
  not_backtick := by decide
  not_brace := by decide
  not_comment := by simp

theorem dropWhile_append_newline (hbody : '\n' ∉ body) (rest : List Char) :
    (body ++ '\n' :: rest).dropWhile (· ≠ '\n') = '\n' :: rest := by
  rw [List.dropWhile_append_of_pos, List.dropWhile_cons_of_neg (by simp)]
  intro c hc
  simpa using fun heq : c = '\n' => hbody (heq ▸ hc)

theorem dropWhile_eq_nil_of_newline_not_mem (hcs : '\n' ∉ cs) : cs.dropWhile (· ≠ '\n') = [] := by
  rw [← List.append_nil cs, List.dropWhile_append_of_pos, List.dropWhile_nil]
  intro c hc
  simpa using fun heq : c = '\n' => hcs (heq ▸ hc)

theorem afterBrace_line (hbody : '\n' ∉ body) :
    afterBrace stack ('/' :: '/' :: (body ++ '\n' :: cs)) = afterBrace stack cs := by
  rw [afterBrace_slashes, dropWhile_append_newline hbody]
  exact afterBrace_ordinary ordinary_newline

theorem afterBrace_line_last (hcs : '\n' ∉ cs) : afterBrace stack ('/' :: '/' :: cs) = none := by
  rw [afterBrace_slashes, dropWhile_eq_nil_of_newline_not_mem hcs, afterBrace_nil]

/-- **A search passes balanced text**, up to the character that ends its layer, and the same braces
are open then. -/
theorem Balanced.reaches (h : Balanced layer text) (hstack : stack ≠ []) (rest : List Char) :
    ∃ s t, layer.place stack (text ++ layer.ending :: rest) = some s ∧
      layer.place stack (layer.ending :: rest) = some t ∧ Reaches s t := by
  induction h generalizing stack rest with
  | nil layer =>
    cases layer with
    | code => exact ⟨_, _, rfl, rfl, .refl⟩
    | template => exact ⟨_, _, resumed_backtick, resumed_backtick, .refl⟩
  | @ordinary c cs hc _ ih =>
    obtain ⟨_, _, ⟨⟩, ⟨⟩, hrest⟩ := ih hstack rest
    exact ⟨_, _, rfl, rfl, .round (nextRound_ordinary ((ordinary_append_iff rest).2 hc)) hrest⟩
  | @quoted quote body cs hquote hbody _ ih =>
    have hne : quote ≠ '\\' := by rintro rfl; simp at hquote
    obtain ⟨_, _, ⟨⟩, ⟨⟩, hrest⟩ := ih hstack rest
    refine ⟨_, _, rfl, rfl, .round ?_ hrest⟩
    simp only [List.cons_append, List.append_assoc]
    rw [nextRound_quote hquote, (afterQuoted_iff hne).2 ⟨body, hbody, rfl⟩]
    rfl
  | @template body cs _ _ ihbody ih =>
    obtain ⟨_, _, ⟨⟩, ⟨⟩, hrest⟩ := ih hstack rest
    obtain ⟨s, t, hs, ht, hbody⟩ := ihbody hstack (cs ++ '\x7d' :: rest)
    cases resumed_backtick.symm.trans ht
    refine ⟨_, _, rfl, rfl, .round ?_ (hbody.trans hrest)⟩
    rw [List.cons_append, List.append_assoc]
    exact hs
  | @line body cs hbody _ ih =>
    obtain ⟨_, _, ⟨⟩, ⟨⟩, hrest⟩ := ih hstack rest
    refine ⟨_, _, rfl, rfl, .round ?_ (.round (nextRound_ordinary ordinary_newline) hrest)⟩
    simp only [List.cons_append, List.append_assoc]
    exact congrArg (fun more => some (stack, more)) (dropWhile_append_newline hbody _)
  | @block body cs hbody _ ih =>
    obtain ⟨_, _, ⟨⟩, ⟨⟩, hrest⟩ := ih hstack rest
    refine ⟨_, _, rfl, rfl, .round ?_ hrest⟩
    simp only [List.cons_append, List.append_assoc]
    exact congrArg (Option.map (stack, ·)) (afterComment_iff.2 ⟨body, hbody, rfl⟩)
  | @group inside cs _ _ ihinside ih =>
    obtain ⟨_, _, ⟨⟩, ⟨⟩, hrest⟩ := ih hstack rest
    obtain ⟨_, _, ⟨⟩, ⟨⟩, hinside⟩ := @ihinside (.group :: stack) (by simp)
      (cs ++ '\x7d' :: rest)
    refine ⟨_, _, rfl, rfl, .round ?_ (hinside.trans
      (Reaches.round (nextRound_close _ hstack) hrest))⟩
    rw [List.cons_append, List.append_assoc]
    rfl
  | @text c cs hescape hbacktick hhole _ ih =>
    have hhole' : c = '$' → (cs ++ '\x60' :: rest).head? ≠ some '\x7b' := fun hdollar =>
      (head?_append_ne_iff (by decide) cs rest).2 (hhole hdollar)
    obtain ⟨s, t, hs, ht, hrest⟩ := ih hstack rest
    refine ⟨s, t, ?_, ht, hrest⟩
    rw [← hs]
    exact congrArg (Option.map _) (afterTemplate_text hescape hbacktick hhole')
  | escape c _ ih => exact ih hstack rest
  | @hole inside cs _ _ ihinside ih =>
    obtain ⟨s, t, hs, ht, hrest⟩ := ih hstack rest
    obtain ⟨_, _, ⟨⟩, ⟨⟩, hinside⟩ := @ihinside (.hole :: stack) (by simp)
      (cs ++ '\x60' :: rest)
    refine ⟨_, t, ?_, ht, hinside.trans
      (Reaches.round ((nextRound_close _ hstack).trans hs) hrest)⟩
    simp only [List.cons_append, List.append_assoc]
    exact resumed_hole

theorem Balanced.search_append (h : Balanced layer text) (hstack : stack ≠ []) (rest : List Char) :
    layer.search stack (text ++ layer.ending :: rest) =
      layer.search stack (layer.ending :: rest) := by
  obtain ⟨s, t, hs, ht, hreaches⟩ := h.reaches hstack rest
  rw [Layer.search_eq_bind, Layer.search_eq_bind, hs, ht]
  exact hreaches.afterBrace_eq

/-- A search in the text that succeeds passes balanced text and reaches the end of its layer. -/
def Layer.Passes (layer : Layer) (cs : List Char) : Prop :=
  ∀ stack r, stack ≠ [] → layer.search stack cs = some r →
    ∃ text rest, cs = text ++ layer.ending :: rest ∧ Balanced layer text ∧
      layer.search stack (layer.ending :: rest) = some r

section Passes

variable {cs : List Char} (ih : ∀ layer : Layer, ∀ more : List Char, more.length < cs.length →
  layer.Passes more)

include ih

/-- One item of code, and what is passed after it. -/
theorem passes_code_of_shorter : Layer.code.Passes cs := by
  rintro stack r hstack h
  rcases code_cases cs with rfl | ⟨quote, more, hquote, rfl⟩ | ⟨more, rfl⟩ | ⟨more, rfl⟩ |
    ⟨more, rfl⟩ | ⟨more, rfl⟩ | ⟨more, rfl⟩ | ⟨c, more, rfl, hc⟩
  · simp [Layer.search] at h
  · have hne : quote ≠ '\\' := by rintro rfl; simp at hquote
    rw [Layer.search, afterBrace_quote hquote] at h
    obtain ⟨after, hafter, hrest⟩ := Option.bind_eq_some_iff.1 h
    obtain ⟨body, hbody, rfl⟩ := (afterQuoted_iff hne).1 hafter
    obtain ⟨text, rest, rfl, htext, hr⟩ := ih .code after (by grind) stack r hstack hrest
    exact ⟨_, rest, by simp, .quoted hquote hbody htext, hr⟩
  · rw [Layer.search, afterBrace_backtick] at h
    obtain ⟨body, after, rfl, hbody, h⟩ := ih .template more (by simp) stack r hstack h
    rw [Layer.search, Layer.ending, resumeTemplate_backtick] at h
    obtain ⟨text, rest, rfl, htext, hr⟩ := ih .code after (by grind) stack r hstack h
    exact ⟨_, rest, by simp [Layer.ending], .template hbody htext, hr⟩
  · have hmem : '\n' ∈ more := by
      refine Decidable.byContradiction fun hnot => ?_
      rw [Layer.search, afterBrace_line_last hnot] at h
      cases h
    obtain ⟨body, after, rfl, hbody⟩ := List.eq_append_cons_of_mem hmem
    rw [Layer.search, afterBrace_line hbody] at h
    obtain ⟨text, rest, rfl, htext, hr⟩ := ih .code after (by grind) stack r hstack h
    exact ⟨_, rest, by simp, .line hbody htext, hr⟩
  · rw [Layer.search, afterBrace_block] at h
    obtain ⟨after, hafter, hrest⟩ := Option.bind_eq_some_iff.1 h
    obtain ⟨body, hbody, rfl⟩ := afterComment_iff.1 hafter
    obtain ⟨text, rest, rfl, htext, hr⟩ := ih .code after (by grind) stack r hstack hrest
    exact ⟨_, rest, by simp, .block hbody htext, hr⟩
  · rw [Layer.search, afterBrace_open] at h
    obtain ⟨inside, after, rfl, hinside, h⟩ := ih .code more (by simp) _ r (by simp) h
    rw [Layer.search, Layer.ending, afterBrace_close_group hstack] at h
    obtain ⟨text, rest, rfl, htext, hr⟩ := ih .code after (by grind) stack r hstack h
    exact ⟨_, rest, by simp [Layer.ending], .group hinside htext, hr⟩
  · exact ⟨[], more, rfl, .nil _, h⟩
  · rw [Layer.search, afterBrace_ordinary hc] at h
    obtain ⟨text, rest, rfl, htext, hr⟩ := ih .code more (by simp) stack r hstack h
    exact ⟨c :: text, rest, rfl, .ordinary ((ordinary_append_iff rest).1 hc) htext, hr⟩

/-- One item of a template, and what is passed after it. -/
theorem passes_template_of_shorter : Layer.template.Passes cs := by
  rintro stack r hstack h
  rcases template_cases cs with rfl | rfl | ⟨c, more, rfl⟩ | ⟨more, rfl⟩ | ⟨more, rfl⟩ |
    ⟨c, more, rfl, hescape, hbacktick, hhole⟩
  · simp [Layer.search] at h
  · simp [Layer.search] at h
  · rw [Layer.search, resumeTemplate_escape] at h
    obtain ⟨text, rest, rfl, htext, hr⟩ := ih .template more (by grind) stack r hstack h
    exact ⟨_, rest, rfl, .escape c htext, hr⟩
  · exact ⟨[], more, rfl, .nil _, h⟩
  · rw [Layer.search, resumeTemplate_hole] at h
    obtain ⟨inside, after, rfl, hinside, h⟩ := ih .code more (by grind) _ r (by simp) h
    rw [Layer.search, Layer.ending, afterBrace_close_hole hstack] at h
    obtain ⟨text, rest, rfl, htext, hr⟩ := ih .template after (by grind) stack r hstack h
    exact ⟨_, rest, by simp [Layer.ending], .hole hinside htext, hr⟩
  · rw [Layer.search, resumeTemplate_text hescape hbacktick hhole] at h
    obtain ⟨text, rest, rfl, htext, hr⟩ := ih .template more (by simp) stack r hstack h
    refine ⟨c :: text, rest, rfl, .text hescape hbacktick (fun hc => ?_) htext, hr⟩
    exact (head?_append_ne_iff (by decide) text rest).1 (hhole hc)

end Passes

/-- **What a search passes is balanced.** -/
theorem Layer.passes (layer : Layer) (cs : List Char) : layer.Passes cs := by
  -- a search goes on after whole items, so the induction is on the length of the text
  induction hn : cs.length using Nat.strongRecOn generalizing layer cs with
  | ind n ih =>
  subst hn
  have hshorter : ∀ layer : Layer, ∀ more : List Char, more.length < cs.length →
      layer.Passes more := fun layer more hlt => ih more.length hlt layer more rfl
  cases layer with
  | code => exact passes_code_of_shorter hshorter
  | template => exact passes_template_of_shorter hshorter

/-! ### Between two braces and between two backticks -/

/-- What follows the closing brace follows balanced text. -/
theorem afterBrace_singleton_iff (o : Opening) :
    afterBrace [o] cs = some r ↔ ∃ inside, Balanced .code inside ∧ cs = inside ++ '\x7d' :: r := by
  have hclose : ∀ rest, afterBrace [o] ('\x7d' :: rest) = some rest := by simp [afterBrace_close]
  constructor
  · intro h
    obtain ⟨inside, rest, rfl, hinside, hr⟩ := Layer.passes .code cs [o] r (by simp) h
    rw [Layer.search, Layer.ending, hclose] at hr
    cases hr
    exact ⟨inside, hinside, rfl⟩
  · rintro ⟨inside, hinside, rfl⟩
    exact (hinside.search_append (by simp) r).trans (hclose r)

theorem dropLast_before_close (inside after : List Char) :
    (before (inside ++ '\x7d' :: after) after).dropLast = inside := by
  rw [List.append_cons, before_append, List.dropLast_concat]

theorem braced_iff {inside after : List Char} :
    braced cs = some (inside, after) ↔
      Balanced .code inside ∧ cs = inside ++ '\x7d' :: after := by
  rw [braced, Option.map_eq_some_iff]
  constructor
  · rintro ⟨rest, hrest, heq⟩
    obtain ⟨text, htext, rfl⟩ := (afterBrace_singleton_iff _).1 hrest
    cases heq
    rw [dropLast_before_close]
    exact ⟨htext, rfl⟩
  · rintro ⟨hinside, rfl⟩
    refine ⟨after, (afterBrace_singleton_iff _).2 ⟨inside, hinside, rfl⟩, ?_⟩
    rw [dropLast_before_close]

section Templates

variable {cs : List Char}

theorem afterBacktick_eq (cs : List Char) :
    afterBacktick cs = (afterTemplate cs).bind fun piece =>
      if piece.1 then some piece.2 else (afterBrace [.group] piece.2).bind afterBacktick := by
  rw [afterBacktick.eq_def]
  split
  · simp_all
  · simp_all
  · split <;> simp_all

@[simp] theorem afterBacktick_nil : afterBacktick [] = none := by
  rw [afterBacktick_eq]
  rfl

@[simp] theorem afterBacktick_cut : afterBacktick ['\\'] = none := by
  rw [afterBacktick_eq]
  rfl

@[simp] theorem afterBacktick_backtick : afterBacktick ('\x60' :: cs) = some cs := by
  rw [afterBacktick_eq]
  simp [afterTemplate]

@[simp] theorem afterBacktick_escape (c : Char) :
    afterBacktick ('\\' :: c :: cs) = afterBacktick cs := by
  rw [afterBacktick_eq, afterBacktick_eq cs, afterTemplate]

@[simp] theorem afterBacktick_hole :
    afterBacktick ('$' :: '\x7b' :: cs) = (afterBrace [.group] cs).bind afterBacktick := by
  rw [afterBacktick_eq, afterTemplate]
  rfl

theorem afterBacktick_text {c : Char} (hescape : c ≠ '\\') (hbacktick : c ≠ '\x60')
    (hhole : c = '$' → cs.head? ≠ some '\x7b') : afterBacktick (c :: cs) = afterBacktick cs := by
  rw [afterBacktick_eq, afterTemplate_text hescape hbacktick hhole, ← afterBacktick_eq]

end Templates

/-- A template is skipped up to the backtick that closes it. -/
theorem Balanced.afterBacktick_append (h : Balanced layer text) (hlayer : layer = .template)
    (rest : List Char) : afterBacktick (text ++ '\x60' :: rest) = some rest := by
  induction h with
  | nil => exact afterBacktick_backtick
  | @text c cs hescape hbacktick hhole _ ih =>
    rw [← ih hlayer]
    refine afterBacktick_text hescape hbacktick fun hdollar => ?_
    exact (head?_append_ne_iff (by decide) cs rest).2 (hhole hdollar)
  | escape c _ ih => exact (afterBacktick_escape c).trans (ih hlayer)
  | @hole inside cs hinside _ _ ih =>
    simp only [List.cons_append, List.append_assoc, afterBacktick_hole]
    rw [(afterBrace_singleton_iff .group).2 ⟨inside, hinside, rfl⟩]
    exact ih hlayer
  | ordinary | quoted | template | line | block | group => cases hlayer

/-- What follows a template follows the backtick that closes it. -/
theorem afterBacktick_iff :
    afterBacktick cs = some r ↔ ∃ body, Balanced .template body ∧ cs = body ++ '\x60' :: r := by
  constructor
  · intro h
    induction hn : cs.length using Nat.strongRecOn generalizing cs with
    | ind n ih =>
    subst hn
    rcases template_cases cs with rfl | rfl | ⟨c, more, rfl⟩ | ⟨more, rfl⟩ | ⟨more, rfl⟩ |
      ⟨c, more, rfl, hescape, hbacktick, hhole⟩
    · simp at h
    · simp at h
    · rw [afterBacktick_escape] at h
      obtain ⟨body, hbody, rfl⟩ := ih more.length (by grind) h rfl
      exact ⟨_, .escape c hbody, rfl⟩
    · rw [afterBacktick_backtick] at h
      cases h
      exact ⟨[], .nil _, rfl⟩
    · rw [afterBacktick_hole] at h
      obtain ⟨after, hafter, hrest⟩ := Option.bind_eq_some_iff.1 h
      obtain ⟨inside, hinside, rfl⟩ := (afterBrace_singleton_iff _).1 hafter
      obtain ⟨body, hbody, rfl⟩ := ih after.length (by grind) hrest rfl
      exact ⟨_, .hole hinside hbody, by simp⟩
    · rw [afterBacktick_text hescape hbacktick hhole] at h
      obtain ⟨body, hbody, rfl⟩ := ih more.length (by simp) h rfl
      refine ⟨c :: body, .text hescape hbacktick (fun hc => ?_) hbody, rfl⟩
      exact (head?_append_ne_iff (by decide) body r).1 (hhole hc)
  · rintro ⟨body, hbody, rfl⟩
    exact hbody.afterBacktick_append rfl r

end CssRune
