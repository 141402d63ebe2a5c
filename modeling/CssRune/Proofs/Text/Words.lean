/-
**Words, alone and with their places.**

The words of a text are found by dropping and taking characters, and the words with their places by
one walk that keeps the word it is in.  Both find the same words, and the walk finds each of them
where it is written.  Words that are joined by blanks are found again, and together they hold every
character of a text that is not blank.

* `Text.words_cons_of_blank`, `Text.words_cons_of_not_blank` — the words of a text by its first
  character;
* `Text.map_fst_wordSpans` — **the words with places are the words**;
* `Text.wordSpans_written` — their places are in order, and each holds its word;
* `Text.IsWord` — a text without blanks that is not empty, with `Text.words_intercalate`: **the
  words of joined words**;
* `Text.flatMap_words` — the characters that words hold.
-/

import CssRune.Proofs.Spans
import CssRune.Text.Words

set_option autoImplicit false

namespace CssRune

namespace Text

variable {c : Char} {cs : List Char}

@[simp] theorem words_nil : words [] = [] := words_eq_nil_iff.2 rfl

theorem words_cons_of_blank (h : isBlank c = true) : words (c :: cs) = words cs := by
  have hdrop : (c :: cs).dropWhile isBlank = cs.dropWhile isBlank := by simp [h]
  rw [words, hdrop, words]

theorem words_cons_of_not_blank (h : isBlank c = false) :
    words (c :: cs) =
      String.ofList (c :: cs.takeWhile (!isBlank ·)) :: words (cs.dropWhile (!isBlank ·)) := by
  have hdrop : (c :: cs).dropWhile isBlank = c :: cs := by simp [h]
  rw [words, hdrop]

/-- What a walk finds that is in a word: that word to its end, and the words after it. -/
theorem map_fst_wordSpansFrom (pos : Nat) (cs : List Char) :
    (wordSpansFrom pos none cs).map Prod.fst = words cs ∧
      ∀ start word, (wordSpansFrom pos (some (start, word)) cs).map Prod.fst =
        String.ofList (word.reverse ++ cs.takeWhile (!isBlank ·)) ::
          words (cs.dropWhile (!isBlank ·)) := by
  induction cs generalizing pos with
  | nil => simp [wordSpansFrom]
  | cons c cs ih =>
    cases h : isBlank c with
    | true =>
      refine ⟨?_, ?_⟩
      · rw [wordSpansFrom, if_pos h, (ih _).1, words_cons_of_blank h]
      · intro start word
        simp [wordSpansFrom, h, (ih _).1, words_cons_of_blank h]
    | false =>
      refine ⟨?_, ?_⟩
      · rw [wordSpansFrom, if_neg (by simp [h]), (ih _).2, words_cons_of_not_blank h]
        simp
      · intro start word
        simp [wordSpansFrom, h, (ih _).2]

/-- **The words with places are the words.** -/
theorem map_fst_wordSpans (base : Nat) (cs : List Char) :
    (wordSpans base cs).map Prod.fst = words cs := (map_fst_wordSpansFrom base cs).1

/-! ### Places -/

/-- Words with the ranges they are written at, in a text that starts at byte `base`: the ranges are
in order between two offsets, none touches the next, and each holds its word. -/
structure Written (source : List Char) (base lo hi : Nat) (ws : List (String × Span)) : Prop where
  row : Span.Row 1 lo hi (ws.map Prod.snd)
  holds : ∀ w ∈ ws, ∃ s : Span, s.shift base = w.2 ∧ s.Cuts source ∧ slice source s = w.1.toList

namespace Written

variable {source : List Char} {base lo hi k : Nat} {ws : List (String × Span)}

theorem nil (source : List Char) (base lo hi : Nat) : Written source base lo hi [] :=
  ⟨Span.Row.nil 1 lo hi, by simp⟩

theorem mono {lo' : Nat} (h : Written source base lo hi ws) (hlo : lo' ≤ lo) :
    Written source base lo' hi ws := ⟨h.row.mono hlo (Nat.le_refl hi), h.holds⟩

/-- A word that is written before the others. -/
theorem cons {word : List Char} (hword : word ≠ []) (hat : IsAt source k word)
    (hhi : base + k + byteLength word ≤ hi)
    (h : Written source base (base + k + byteLength word + 1) hi ws) :
    Written source base (base + k) hi
      ((String.ofList word, ⟨base + k, base + k + byteLength word⟩) :: ws) := by
  have hpos := byteLength_pos hword
  refine ⟨h.row.cons (Nat.le_refl _) (Nat.lt_add_of_pos_right hpos) hhi, ?_⟩
  rw [List.forall_mem_cons]
  refine ⟨⟨⟨k, k + byteLength word⟩, ?_, ⟨word, hat, rfl⟩, ?_⟩, h.holds⟩
  · rw [Span.shift, Nat.add_right_comm, Nat.add_comm k base]
  · rw [hat.slice, String.toList_ofList]

end Written

/-- The walk finds words where they are written, also if it is in one: that word stands before what
the walk has yet to read. -/
theorem written_wordSpansFrom {source : List Char} (base : Nat) (cs : List Char) (k : Nat) :
    (IsAt source k cs →
      Written source base (base + k) (base + k + byteLength cs)
        (wordSpansFrom (base + k) none cs)) ∧
    ∀ word, word ≠ [] → IsAt source k (word.reverse ++ cs) →
      Written source base (base + k) (base + k + byteLength (word.reverse ++ cs))
        (wordSpansFrom (base + k + byteLength word.reverse) (some (base + k, word)) cs) := by
  induction cs generalizing k with
  | nil =>
    refine ⟨fun _ => .nil .., fun word hword hat => ?_⟩
    rw [List.append_nil] at hat ⊢
    exact .cons (by simpa using hword) hat (Nat.le_refl _) (.nil ..)
  | cons c cs ih =>
    have hsize := c.utf8Size_pos
    cases h : isBlank c with
    | true =>
      refine ⟨fun hat => ?_, fun word hword hat => ?_⟩
      · have hrest := (ih (k + c.utf8Size)).1 hat.tail
        rw [wordSpansFrom, if_pos h, byteLength_cons]
        simp only [← Nat.add_assoc] at hrest ⊢
        exact hrest.mono (Nat.le_add_right _ _)
      · have hrest := (ih (k + byteLength word.reverse + c.utf8Size)).1 hat.right.tail
        rw [wordSpansFrom, if_pos h, byteLength_append, byteLength_cons]
        simp only [← Nat.add_assoc] at hrest ⊢
        exact .cons (by simpa using hword) hat.left (by omega) (hrest.mono (by omega))
    | false =>
      have hblank : ¬isBlank c = true := by simp [h]
      refine ⟨fun hat => ?_, fun word hword hat => ?_⟩
      · rw [wordSpansFrom, if_neg hblank]
        exact (ih k).2 [c] (by simp) hat
      · have hrest := (ih k).2 (c :: word) (by simp)
        rw [List.reverse_cons, List.append_assoc, byteLength_append _ [c], ← Nat.add_assoc] at hrest
        rw [wordSpansFrom, if_neg hblank]
        exact hrest hat

/-- **The words of a text with the places they are written at.**  They are the words of the text, in
order; their ranges lie in the text, one after another with a blank between them; and each of them,
shifted back to the start of the text, cuts its word out of it. -/
theorem wordSpans_written (base : Nat) (cs : List Char) :
    (wordSpans base cs).map Prod.fst = words cs ∧
      Span.Row 1 base (base + byteLength cs) ((wordSpans base cs).map Prod.snd) ∧
      ∀ w ∈ wordSpans base cs,
        ∃ s : Span, s.shift base = w.2 ∧ s.Cuts cs ∧ slice cs s = w.1.toList := by
  have h := (written_wordSpansFrom base cs 0).1 (isAt_self cs)
  exact ⟨map_fst_wordSpans base cs, h.row, h.holds⟩

/-- The last word stands after a letter and a blank of several bytes. -/
theorem wordSpans_written_wide :
    ("bc", ⟨16, 18⟩) ∈ wordSpans 10 " é\u3000bc".toList ∧
      ∃ s : Span, s.shift 10 = ⟨16, 18⟩ ∧ s.Cuts " é\u3000bc".toList ∧
        slice " é\u3000bc".toList s = ['b', 'c'] := by
  have hmem : ("bc", ⟨16, 18⟩) ∈ wordSpans 10 " é\u3000bc".toList := by decide +kernel
  exact ⟨hmem, (wordSpans_written 10 _).2.2 _ hmem⟩

/-! ### Joined words -/

/-- A text without blanks that is not empty. -/
def IsWord (w : String) : Prop := w.toList ≠ [] ∧ ∀ c ∈ w.toList, isBlank c = false

theorem not_isBlank_of_mem_takeWhile (h : c ∈ cs.takeWhile (!isBlank ·)) : isBlank c = false := by
  have := List.all_eq_true.1 List.all_takeWhile c h
  simpa using this

theorem not_isBlank_of_dropWhile {rest : List Char} (h : cs.dropWhile isBlank = c :: rest) :
    isBlank c = false := by
  have := List.head?_dropWhile_not isBlank cs
  simpa [h] using this

theorem isWord_of_mem_words {w : String} (h : w ∈ words cs) : IsWord w := by
  fun_induction words cs with
  | case1 => cases h
  | case2 cs c rest hdrop ih =>
    rcases List.mem_cons.1 h with rfl | h
    · rw [IsWord, String.toList_ofList, List.forall_mem_cons]
      exact ⟨by simp, not_isBlank_of_dropWhile hdrop,
        fun d hd => not_isBlank_of_mem_takeWhile hd⟩
    · exact ih h

/-- A word in front of a blank, or of nothing, is the first word. -/
theorem words_append {w : String} (h : IsWord w) {rest : List Char}
    (hrest : ∀ c ∈ rest.head?, isBlank c = true) : words (w.toList ++ rest) = w :: words rest := by
  obtain ⟨hne, hblank⟩ := h
  obtain ⟨c, cs, hw⟩ := List.exists_cons_of_ne_nil hne
  rw [hw, List.forall_mem_cons] at hblank
  have hcs : ∀ d ∈ cs, (!isBlank d) = true := fun d hd => by simp [hblank.2 d hd]
  have htake : rest.takeWhile (!isBlank ·) = [] ∧ rest.dropWhile (!isBlank ·) = rest := by
    cases rest with
    | nil => exact ⟨rfl, rfl⟩
    | cons d rest => simp [hrest d rfl]
  rw [hw, List.cons_append, words_cons_of_not_blank hblank.1, List.takeWhile_append_of_pos hcs,
    List.dropWhile_append_of_pos hcs, htake.1, htake.2, List.append_nil, ← hw,
    String.ofList_toList]

/-- **The words of joined words are these words.** -/
theorem words_intercalate {ws : List String} (h : ∀ w ∈ ws, IsWord w) :
    words (" ".intercalate ws).toList = ws := by
  rw [String.toList_intercalate]
  induction ws with
  | nil => simp
  | cons w ws ih =>
    obtain ⟨hw, hws⟩ := List.forall_mem_cons.1 h
    cases ws with
    | nil =>
      have hlast := words_append hw (show ∀ c ∈ ([] : List Char).head?, _ by nofun)
      simpa using hlast
    | cons v ws =>
      have hspace : words (' ' :: [' '].intercalate ((v :: ws).map String.toList)) = v :: ws := by
        rw [words_cons_of_blank (by decide)]
        exact ih hws
      rw [List.map_cons, List.map_cons, List.intercalate_cons_cons, List.append_assoc,
        words_append hw (by rintro c ⟨⟩; decide)]
      exact congrArg (w :: ·) hspace

/-- Words hold every character of a text that is not blank, in order. -/
theorem flatMap_words (cs : List Char) :
    (words cs).flatMap String.toList = cs.filter (!isBlank ·) := by
  have hblanks (cs : List Char) : cs.filter (!isBlank ·) =
      (cs.dropWhile isBlank).filter (!isBlank ·) := by
    induction cs with
    | nil => rfl
    | cons c cs ih => cases h : isBlank c <;> simp [h, ih]
  fun_induction words cs with
  | case1 cs hdrop => rw [hblanks, hdrop]; rfl
  | case2 cs c rest hdrop ih =>
    have hc := not_isBlank_of_dropWhile hdrop
    have hword : (rest.takeWhile (!isBlank ·)).filter (!isBlank ·) =
        rest.takeWhile (!isBlank ·) :=
      List.filter_eq_self.2 (List.all_eq_true.1 List.all_takeWhile)
    calc ((String.ofList (c :: rest.takeWhile (!isBlank ·))) ::
            words (rest.dropWhile (!isBlank ·))).flatMap String.toList
        = c :: (rest.takeWhile (!isBlank ·) ++
            (rest.dropWhile (!isBlank ·)).filter (!isBlank ·)) := by
          rw [List.flatMap_cons, String.toList_ofList, ih, List.cons_append]
      _ = c :: rest.filter (!isBlank ·) := by
          rw [← hword, ← List.filter_append, List.takeWhile_append_dropWhile]
      _ = cs.filter (!isBlank ·) := by
          rw [hblanks cs, hdrop, List.filter_cons_of_pos (by simp [hc])]

end Text

end CssRune
