/-
**The warnings about classes used both ways.**

Which range a class set knows for a name depends on the references that were recorded, and the last
one of a name counts.  A set has no order of its own: it may list its names in any order.  The
warnings are given in the order of the rune references, and references at the same place in the
order of the names, byte by byte.  This order leaves no choice, so the warnings only depend on which
ranges are known.

Main results:

* `utf8_lt_of_lt` — the order of texts is the order of their bytes;
* `ClassSet.Records.sorted_eq` — the order of a set is fixed by the ranges it knows;
* `Report.mixedUse_of_histories` — **the warnings only depend on the ranges that are known**.
-/

import CssRune.Proofs.Lists
import CssRune.Report.MixedUse

set_option autoImplicit false

namespace CssRune

/-! ### Texts in the order of their bytes -/

/-- The UTF-8 bytes of a text. -/
def utf8 (text : String) : List UInt8 := text.toList.flatMap String.utf8EncodeChar

/-- The bytes of two characters differ, and the first two that do are in the order of the
characters. -/
theorem utf8EncodeChar_append_lt {c d : Char} (h : c < d) (xs ys : List UInt8) :
    String.utf8EncodeChar c ++ xs < String.utf8EncodeChar d ++ ys := by
  have hlt : c.val.toNat < d.val.toNat := UInt32.lt_iff_toNat_lt.1 h
  have hvalid : d.val.toNat < 0x110000 := by
    rcases d.valid with hd | hd
    · exact Nat.lt_trans hd (by decide)
    · exact hd.2
  have hpage (n : Nat) : n / 4096 = n / 64 / 64 := by omega
  have hplane (n : Nat) : n / 262144 = n / 64 / 64 / 64 := by omega
  simp only [String.utf8EncodeChar, hpage, hplane]
  generalize c.val.toNat = v at hlt
  generalize d.val.toNat = w at hlt hvalid
  -- for each pair of lengths the leading bytes differ, or else the digits to base 64 decide
  (repeat' split) <;>
    simp only [List.cons_append, List.nil_append, List.cons_lt_cons_iff, UInt8.lt_iff_toNat_lt,
      ← UInt8.toNat_inj, UInt8.toNat_ofNat'] <;> omega

theorem flatMap_utf8EncodeChar_lt {xs ys : List Char} (h : xs < ys) :
    xs.flatMap String.utf8EncodeChar < ys.flatMap String.utf8EncodeChar := by
  induction h with
  | @nil c cs =>
    rw [List.flatMap_cons]
    have hne : String.utf8EncodeChar c ≠ [] := by
      refine List.ne_nil_of_length_pos ?_
      rw [String.length_utf8EncodeChar]
      exact c.utf8Size_pos
    obtain ⟨b, bs, hbytes⟩ := List.exists_cons_of_ne_nil hne
    rw [hbytes]
    exact List.Lex.nil
  | rel hlt => exact utf8EncodeChar_append_lt hlt _ _
  | cons _ ih => exact List.append_left_lt ih

/-- **The order of texts is the order of their bytes.** -/
theorem utf8_lt_of_lt {s t : String} (h : s < t) : utf8 s < utf8 t := flatMap_utf8EncodeChar_lt h

/-! ### What a set knows -/

/-- The range that the last reference of a name gives it. -/
def lastRange? (refs : List (String × Span)) (name : String) : Option Span :=
  refs.reverse.lookup name

namespace ClassSet

/-- The set lists each name that is referenced once, in whatever order, with the range of its last
reference. -/
structure Records (s : ClassSet) (refs : List (String × Span)) : Prop where
  distinct : (s.entries.map Prod.fst).Nodup
  get?_eq : ∀ name, s.get? name = lastRange? refs name

theorem get?_insertAll (s : ClassSet) (refs : List (String × Span)) (name : String) :
    (s.insertAll refs).get? name = (lastRange? refs name).or (s.get? name) := by
  induction refs generalizing s with
  | nil => rfl
  | cons r refs ih =>
    obtain ⟨other, span⟩ := r
    show ((s.insert other span).insertAll refs).get? name = _
    rw [ih, get?_insert, lastRange?, lastRange?, List.reverse_cons, List.lookup_append,
      Option.or_assoc]
    by_cases h : name = other
    · simp [h]
    · have hne : (name == other) = false := beq_eq_false_iff_ne.2 h
      simp [h, List.lookup_cons, hne]

theorem nodup_insert {s : ClassSet} (h : (s.entries.map Prod.fst).Nodup) (name : String)
    (span : Span) : ((s.insert name span).entries.map Prod.fst).Nodup := by
  refine List.nodup_cons.2 ⟨?_, h.sublist (List.filter_sublist.map Prod.fst)⟩
  intro hmem
  obtain ⟨e, he, rfl⟩ := List.mem_map.1 hmem
  simpa using (List.mem_filter.1 he).2

/-- References that are recorded one after another are recorded. -/
theorem records_insertAll (refs : List (String × Span)) : (empty.insertAll refs).Records refs := by
  refine ⟨?_, fun name => ?_⟩
  · have hfold : ∀ s : ClassSet, (s.entries.map Prod.fst).Nodup →
        ((s.insertAll refs).entries.map Prod.fst).Nodup := by
      induction refs with
      | nil => exact fun _ hs => hs
      | cons r refs ih => exact fun s hs => ih _ (nodup_insert hs r.1 r.2)
    exact hfold empty List.nodup_nil
  · rw [get?_insertAll]
    exact Option.or_none

/-- In a list of distinct names, what is found is what is listed. -/
theorem lookup_eq_some_iff_mem {entries : List (String × Span)} {name : String} {span : Span}
    (h : (entries.map Prod.fst).Nodup) :
    entries.lookup name = some span ↔ (name, span) ∈ entries := by
  induction entries with
  | nil => simp
  | cons e entries ih =>
    obtain ⟨other, place⟩ := e
    obtain ⟨hnew, hrest⟩ := List.nodup_cons.1 h
    rw [List.lookup_cons, List.mem_cons, Prod.mk.injEq]
    by_cases hname : name = other
    · subst hname
      have hmem : (name, span) ∉ entries := fun hmem => hnew (List.mem_map.2 ⟨_, hmem, rfl⟩)
      simp [hmem, eq_comm]
    · have hne : (name == other) = false := beq_eq_false_iff_ne.2 hname
      simp [hne, hname, ih hrest]

theorem precedes_iff {a b : String × Span} : precedes a b = true ↔
    a.2.start < b.2.start ∨ a.2.start = b.2.start ∧ a.1 ≤ b.1 := by
  simp [precedes]

theorem precedes_total (a b : String × Span) : precedes a b = true ∨ precedes b a = true := by
  rw [precedes_iff, precedes_iff]
  rcases Nat.lt_trichotomy a.2.start b.2.start with hlt | heq | hgt
  · exact .inl (.inl hlt)
  · exact (String.le_total a.1 b.1).imp (fun h => .inr ⟨heq, h⟩) fun h => .inr ⟨heq.symm, h⟩
  · exact .inr (.inl hgt)

theorem precedes_trans (a b c : String × Span) (hab : precedes a b = true)
    (hbc : precedes b c = true) : precedes a c = true := by
  rw [precedes_iff] at *
  rcases hab with hab | ⟨hab, hnames⟩
  · left
    omega
  · rcases hbc with hbc | ⟨hbc, hnames'⟩
    · left
      omega
    · exact .inr ⟨hab.trans hbc, String.le_trans hnames hnames'⟩

theorem pairwise_sorted (s : ClassSet) : s.sorted.Pairwise fun a b => precedes a b = true :=
  sortBy_pairwise precedes_total precedes_trans s.entries

namespace Records

variable {s t : ClassSet} {refs refs' : List (String × Span)} {name : String} {span : Span}

theorem mem_entries_iff (h : s.Records refs) :
    (name, span) ∈ s.entries ↔ lastRange? refs name = some span := by
  rw [← h.get?_eq, get?, lookup_eq_some_iff_mem h.distinct]

theorem mem_sorted_iff (h : s.Records refs) :
    (name, span) ∈ s.sorted ↔ lastRange? refs name = some span := by
  rw [sorted, (sortBy_perm _ _).mem_iff, h.mem_entries_iff]

theorem pairwise_ne (h : s.Records refs) : s.sorted.Pairwise fun a b => a.1 ≠ b.1 :=
  List.pairwise_map.1 (((sortBy_perm _ _).map Prod.fst).nodup_iff.2 h.distinct)

theorem nodup_sorted (h : s.Records refs) : s.sorted.Nodup :=
  h.pairwise_ne.imp fun hne heq => hne (congrArg Prod.fst heq)

/-- **The order of a set is fixed by the ranges it knows.** -/
theorem sorted_eq (h : s.Records refs) (h' : t.Records refs')
    (hsame : ∀ name, lastRange? refs name = lastRange? refs' name) : s.sorted = t.sorted := by
  refine List.Perm.eq_of_pairwise ?_ s.pairwise_sorted t.pairwise_sorted ?_
  · rintro ⟨name, span⟩ ⟨name', span'⟩ ha hb hab hba
    rw [precedes_iff] at hab hba
    obtain rfl : name = name' := String.le_antisymm
      (hab.resolve_left (by omega)).2 (hba.resolve_left (by omega)).2
    rw [h.mem_sorted_iff, hsame] at ha
    rw [h'.mem_sorted_iff, ha] at hb
    rw [Option.some.inj hb]
  · refine (List.perm_ext_iff_of_nodup h.nodup_sorted h'.nodup_sorted).2 ?_
    rintro ⟨name, span⟩
    rw [h.mem_sorted_iff, h'.mem_sorted_iff, hsame]

end Records

end ClassSet

namespace Report

/-! ### The classes used both ways -/

/-- A class that is used both ways: its name, where a rune names it and where it is used
natively. -/
structure MixedClass where
  name : String
  rune : Span
  used : Span
  deriving DecidableEq, Repr

namespace MixedClass

def warning (filename content : String) (m : MixedClass) : String :=
  mixedUseWarning filename content m.name m.rune m.used

/-- Strictly before: by the start of the rune reference, then by the bytes of the name. -/
def Before (a b : MixedClass) : Prop :=
  a.rune.start < b.rune.start ∨ a.rune.start = b.rune.start ∧ utf8 a.name < utf8 b.name

/-- The class of an entry, if it is used natively as well. -/
def ofPair? (used : ClassSet) (entry : String × Span) : Option MixedClass :=
  (used.get? entry.1).map fun span => ⟨entry.1, entry.2, span⟩

theorem ofPair?_eq_some_iff {used : ClassSet} {entry : String × Span} {m : MixedClass} :
    ofPair? used entry = some m ↔ entry = (m.name, m.rune) ∧ used.get? m.name = some m.used := by
  rw [ofPair?, Option.map_eq_some_iff]
  constructor
  · rintro ⟨span, hspan, rfl⟩
    exact ⟨rfl, hspan⟩
  · rintro ⟨rfl, hused⟩
    exact ⟨m.used, hused, rfl⟩

end MixedClass

/-- The classes used both ways, in the order of the rune references. -/
def mixedClasses (runes used : ClassSet) : List MixedClass :=
  runes.sorted.filterMap (MixedClass.ofPair? used)

theorem mixedUse_eq_map (filename content : String) (runes used : ClassSet) :
    mixedUse filename content runes used =
      (mixedClasses runes used).map (MixedClass.warning filename content) := by
  rw [mixedUse, mixedClasses, List.map_filterMap]
  congr 1
  funext entry
  rw [MixedClass.ofPair?, Option.map_map]
  rfl

section Mixed

variable {runes used : ClassSet} {runeRefs usedRefs : List (String × Span)}

theorem mem_mixedClasses_iff (hrunes : runes.Records runeRefs) (hused : used.Records usedRefs)
    {m : MixedClass} : m ∈ mixedClasses runes used ↔
      lastRange? runeRefs m.name = some m.rune ∧ lastRange? usedRefs m.name = some m.used := by
  rw [mixedClasses, List.mem_filterMap, ← hrunes.mem_sorted_iff, ← hused.get?_eq]
  constructor
  · rintro ⟨entry, hentry, hm⟩
    obtain ⟨rfl, hget⟩ := MixedClass.ofPair?_eq_some_iff.1 hm
    exact ⟨hentry, hget⟩
  · rintro ⟨hentry, hget⟩
    exact ⟨_, hentry, MixedClass.ofPair?_eq_some_iff.2 ⟨rfl, hget⟩⟩

/-- The classes used both ways are in order, and no two of them have the same name. -/
theorem pairwise_mixedClasses (hrunes : runes.Records runeRefs) :
    (mixedClasses runes used).Pairwise fun a b => a.name ≠ b.name ∧ a.Before b := by
  refine List.pairwise_filterMap.2 ((hrunes.pairwise_ne.and runes.pairwise_sorted).imp ?_)
  rintro a b ⟨hne, hle⟩ m hm m' hm'
  obtain ⟨rfl, _⟩ := MixedClass.ofPair?_eq_some_iff.1 hm
  obtain ⟨rfl, _⟩ := MixedClass.ofPair?_eq_some_iff.1 hm'
  refine ⟨hne, (ClassSet.precedes_iff.1 hle).imp id fun ⟨hstart, hname⟩ => ⟨hstart, ?_⟩⟩
  refine utf8_lt_of_lt (String.not_le.1 fun hge => ?_)
  exact hne (String.le_antisymm hname hge)

end Mixed

/-- **The warnings only depend on the ranges that are known.**  References that are recorded one
after another are recorded, a later one of a name replacing an earlier one.  If two histories give
the same names the same ranges, then whatever sets record them give the same warnings: one for each
class that is both named by a rune and used natively, and none else, strictly ordered by the start
of the rune reference and then by the bytes of the name. -/
theorem mixedUse_of_histories (filename content : String) :
    (∀ refs, (ClassSet.empty.insertAll refs).Records refs) ∧
    ∀ (runeRefs usedRefs runeRefs' usedRefs' : List (String × Span))
      (runes used runes' used' : ClassSet),
      runes.Records runeRefs → used.Records usedRefs →
      runes'.Records runeRefs' → used'.Records usedRefs' →
      (∀ name, lastRange? runeRefs name = lastRange? runeRefs' name) →
      (∀ name, lastRange? usedRefs name = lastRange? usedRefs' name) →
      mixedUse filename content runes used = mixedUse filename content runes' used' ∧
        ∃ mixed : List MixedClass,
          mixedUse filename content runes used = mixed.map (MixedClass.warning filename content) ∧
          (∀ m, m ∈ mixed ↔ lastRange? runeRefs m.name = some m.rune ∧
            lastRange? usedRefs m.name = some m.used) ∧
          mixed.Pairwise fun a b => a.name ≠ b.name ∧ a.Before b := by
  refine ⟨ClassSet.records_insertAll, ?_⟩
  intro runeRefs usedRefs runeRefs' usedRefs' runes used runes' used' hrunes hused hrunes' hused'
    hsameRunes hsameUsed
  have hget : used.get? = used'.get? := by
    funext name
    rw [hused.get?_eq, hused'.get?_eq, hsameUsed]
  refine ⟨?_, mixedClasses runes used, mixedUse_eq_map .., fun m => ?_, ?_⟩
  · rw [mixedUse, mixedUse, hrunes.sorted_eq hrunes' hsameRunes, hget]
  · exact mem_mixedClasses_iff hrunes hused
  · exact pairwise_mixedClasses hrunes

/-- References of two classes at one place, where one of them was referenced before. -/
def referencedTwice : List (String × Span) := [("é", ⟨0, 5⟩), ("z", ⟨20, 30⟩), ("é", ⟨20, 30⟩)]

/-- The last ones of these references, the other way around. -/
def referencedOnce : List (String × Span) := [("é", ⟨20, 30⟩), ("z", ⟨20, 30⟩)]

theorem mixedUse_of_histories_referencedTwice :
    (∀ name, lastRange? referencedTwice name = lastRange? referencedOnce name) ∧
      mixedUse "App.svelte" "" (ClassSet.empty.insertAll referencedTwice)
          (ClassSet.empty.insertAll referencedOnce) =
        mixedUse "App.svelte" "" (ClassSet.empty.insertAll referencedOnce)
          (ClassSet.empty.insertAll referencedTwice) := by
  have hsame : ∀ name, lastRange? referencedTwice name = lastRange? referencedOnce name := by
    intro name
    simp only [lastRange?, referencedTwice, referencedOnce, List.reverse_cons, List.reverse_nil,
      List.nil_append, List.cons_append, List.lookup_cons]
    by_cases hz : name = "z"
    · subst hz
      rfl
    · have hne : (name == "z") = false := beq_eq_false_iff_ne.2 hz
      rw [hne]
      cases name == "é" <;> rfl
  obtain ⟨hrecords, hwarnings⟩ := mixedUse_of_histories "App.svelte" ""
  exact ⟨hsame, (hwarnings _ _ _ _ _ _ _ _ (hrecords _) (hrecords _) (hrecords _) (hrecords _) hsame
    fun name => (hsame name).symm).1⟩

end Report

end CssRune
