/-
**Glob patterns.**

A question mark stands for any character but a slash, a star for any characters but slashes, two
stars that fill a whole segment for any number of segments, and brackets for one of the characters
they list, or for none of them after an exclamation mark.
-/

set_option autoImplicit false

namespace CssRune

/-- One piece of a pattern. -/
inductive GlobToken where
  | char (c : Char)
  | anyChar
  /-- One of the characters in the ranges. -/
  | oneOf (ranges : List (Char × Char))
  /-- None of the characters in the ranges. -/
  | noneOf (ranges : List (Char × Char))
  /-- Any characters but slashes. -/
  | sequence
  /-- Any number of segments. -/
  | recursive
  deriving DecidableEq, Repr

/-- What is wrong with a pattern. -/
inductive GlobFault where
  /-- More than two stars. -/
  | stars
  /-- Two stars that do not fill a segment. -/
  | partialSegment
  /-- Brackets that are not closed or empty. -/
  | range
  deriving DecidableEq, Repr

/-- What is wrong with a pattern, and at which character. -/
structure GlobError where
  position : Nat
  fault : GlobFault
  deriving DecidableEq, Repr

/-- What is said about a fault. -/
def GlobFault.message : GlobFault → String
  | stars => "wildcards are either regular `*` or recursive `**`"
  | partialSegment => "recursive wildcards must form a single path component"
  | range => "invalid range pattern"

def GlobError.message (e : GlobError) : String :=
  s!"Pattern syntax error near position {e.position}: " ++ e.fault.message

namespace Glob

/-! ### Reading -/

/-- The ranges between brackets: two characters with a dash between them, or one character. -/
def ranges : List Char → List (Char × Char)
  | a :: '-' :: b :: cs => (a, b) :: ranges cs
  | a :: cs => (a, a) :: ranges cs
  | [] => []

/-- The text before the first closing bracket, and the text after it. -/
def splitBracket : List Char → Option (List Char × List Char)
  | [] => none
  | c :: cs => if c = ']' then some ([], cs) else (splitBracket cs).map fun r => (c :: r.1, r.2)

/-- The piece that an opening bracket starts, and the text after it.  At least one character is
between the brackets. -/
def readBrackets : List Char → Option (GlobToken × List Char)
  | '!' :: c :: cs => (splitBracket cs).map fun r => (.noneOf (ranges (c :: r.1)), r.2)
  | ['!'] => none
  | c :: cs => (splitBracket cs).map fun r => (.oneOf (ranges (c :: r.1)), r.2)
  | [] => none

theorem splitBracket_length {cs : List Char} {r : List Char × List Char}
    (h : splitBracket cs = some r) : r.2.length < cs.length := by
  induction cs generalizing r with
  | nil => simp [splitBracket] at h
  | cons c cs ih =>
    rw [splitBracket] at h
    split at h
    · injection h with h
      simp [← h]
    · obtain ⟨q, hq, rfl⟩ := Option.map_eq_some_iff.1 h
      have := ih hq
      simp only [List.length_cons]
      omega

theorem readBrackets_length {cs : List Char} {r : GlobToken × List Char}
    (h : readBrackets cs = some r) : r.2.length < cs.length := by
  unfold readBrackets at h
  split at h
  · obtain ⟨q, hq, rfl⟩ := Option.map_eq_some_iff.1 h
    have := splitBracket_length hq
    simp only [List.length_cons]
    omega
  · simp at h
  · obtain ⟨q, hq, rfl⟩ := Option.map_eq_some_iff.1 h
    have := splitBracket_length hq
    simp only [List.length_cons]
    omega
  · simp at h

/-- The pieces of a pattern from a position on; `last` is the character before it. -/
def parseFrom (position : Nat) (last : Option Char) (cs : List Char) :
    Except GlobError (List GlobToken) :=
  match cs with
  | [] => .ok []
  | '?' :: cs => (parseFrom (position + 1) (some '?') cs).map (.anyChar :: ·)
  | '*' :: '*' :: '*' :: _ => .error ⟨position + 2, .stars⟩
  | '*' :: '*' :: cs =>
    if last.all (· == '/') then
      match cs with
      | [] => .ok [.recursive]
      | c :: cs =>
        if c = '/' then (parseFrom (position + 3) (some '/') cs).map (.recursive :: ·)
        else .error ⟨position + 2, .partialSegment⟩
    else .error ⟨position - 1, .partialSegment⟩
  | '*' :: cs => (parseFrom (position + 1) (some '*') cs).map (.sequence :: ·)
  | '[' :: cs =>
    match _h : readBrackets cs with
    | some (token, rest) =>
      (parseFrom (position + 1 + (cs.length - rest.length)) (some ']') rest).map (token :: ·)
    | none => .error ⟨position, .range⟩
  | c :: cs => (parseFrom (position + 1) (some c) cs).map (.char c :: ·)
termination_by cs.length
decreasing_by
  all_goals simp only [List.length_cons]
  all_goals try omega
  have := readBrackets_length _h
  simp only at this
  omega

def parse (pattern : String) : Except GlobError (List GlobToken) :=
  parseFrom 0 none pattern.toList

/-! ### Matching -/

/-- How a text fits pieces. -/
inductive Fit where
  | fits
  | misses
  /-- The text ends before the pieces do, so that no shorter text fits either. -/
  | tooShort
  deriving DecidableEq, Repr

/-- Whether a piece that stands for one character stands for this one. -/
def accepts : GlobToken → Char → Bool
  | .char d, c => c == d
  | .anyChar, c => c != '/'
  | .oneOf rs, c => c != '/' && rs.any fun r => r.1 ≤ c && c ≤ r.2
  | .noneOf rs, c => c != '/' && !rs.any fun r => r.1 ≤ c && c ≤ r.2
  | _, _ => false

/-- Tries the rest of a pattern after each number of characters up to the next slash. -/
def afterSome (rest : List Char → Fit) : List Char → Fit
  | [] => rest []
  | c :: cs =>
    match rest (c :: cs) with
    | .misses => if c = '/' then .misses else afterSome rest cs
    | r => r

/-- Tries the rest of a pattern after each slash, and at the end. -/
def afterSlashes (rest : List Char → Fit) : List Char → Fit
  | [] => rest []
  | c :: cs =>
    if c = '/' then
      match rest cs with
      | .misses => afterSlashes rest cs
      | r => r
    else afterSlashes rest cs

/-- Tries the rest of a pattern here, after each slash, and at the end. -/
def afterSegments (rest : List Char → Fit) (cs : List Char) : Fit :=
  match rest cs with
  | .misses => afterSlashes rest cs
  | r => r

/-- How a text fits pieces. -/
def fit : List GlobToken → List Char → Fit
  | [], cs => if cs.isEmpty then .fits else .misses
  | .sequence :: ts, cs => afterSome (fit ts) cs
  | .recursive :: ts, cs => afterSegments (fit ts) cs
  | _ :: _, [] => .tooShort
  | t :: ts, c :: cs => if accepts t c then fit ts cs else .misses

def isMatch (tokens : List GlobToken) (text : String) : Bool := fit tokens text.toList == .fits

end Glob

end CssRune
