/-
**Which classes that runes name are resolved.**

Every class that a rune call lists is replaced by its hashed name, which the stylesheet gives it.  A
component is refused for a class that the stylesheet does not define, and for no other reason once
it has been read, its references have been collected and its selectors stand where they may.  The
class in the error is the first one that is not defined in the order of the rune calls: those of the
markup, those of the instance script, those of the module script, and the classes of one call from
left to right.  The place in the error is that of the last call that lists it.

Main results:

* `hashedNames_cases`, `applyToCall_resolves`, `applyToAll_resolves` — the names of a list, one call
  and a pass over calls: they are resolved, or the first name without a hashed one is reported;
* `mem_keys_iff_defines` — the classes with hashed names are the defined ones;
* `preprocess_resolves_iff` — **preprocessing succeeds exactly if all classes that runes name are
  defined**.
-/

import CssRune.Proofs.Preprocessing
import CssRune.Proofs.Rune.Commutation
import CssRune.Proofs.Rune.References
import CssRune.Proofs.Style.Classes

set_option autoImplicit false

namespace CssRune

/-! ### First and last -/

/-- The first name of a list that fails a test. -/
def FirstFailing (P : String → Prop) (names : List String) (name : String) : Prop :=
  ∃ front back, names = front ++ name :: back ∧ (∀ n ∈ front, P n) ∧ ¬P name

namespace FirstFailing

variable {P Q : String → Prop} {names more : List String} {name : String}

theorem mem (h : FirstFailing P names name) : name ∈ names := by
  obtain ⟨front, back, rfl, _, _⟩ := h
  simp

theorem not_forall (h : FirstFailing P names name) : ¬∀ n ∈ names, P n := by
  intro hall
  have hname := hall name h.mem
  obtain ⟨_, _, _, _, hfails⟩ := h
  exact hfails hname

theorem append_right (h : FirstFailing P names name) (more : List String) :
    FirstFailing P (names ++ more) name := by
  obtain ⟨front, back, rfl, hfront, hname⟩ := h
  exact ⟨front, back ++ more, by simp, hfront, hname⟩

theorem append_left (h : FirstFailing P names name) (hmore : ∀ n ∈ more, P n) :
    FirstFailing P (more ++ names) name := by
  obtain ⟨front, back, rfl, hfront, hname⟩ := h
  exact ⟨more ++ front, back, by simp, List.forall_mem_append.2 ⟨hmore, hfront⟩, hname⟩

theorem congr (h : FirstFailing P names name) (hiff : ∀ n ∈ names, P n ↔ Q n) :
    FirstFailing Q names name := by
  obtain ⟨front, back, rfl, hfront, hname⟩ := h
  refine ⟨front, back, rfl, fun n hn => ?_, fun hq => hname ?_⟩
  · exact (hiff n (List.mem_append_left _ hn)).1 (hfront n hn)
  · exact (hiff name (by simp)).2 hq

end FirstFailing

/-- The last of some rune calls that lists a class. -/
def LastListing (calls : List RuneCall) (name : String) (call : RuneCall) : Prop :=
  ∃ front back, calls = front ++ call :: back ∧ name ∈ call.listed ∧
    ∀ other ∈ back, name ∉ other.listed

/-- A class that is listed is listed last by some call. -/
theorem exists_lastListing {calls : List RuneCall} {name : String}
    (h : name ∈ calls.flatMap RuneCall.listed) : ∃ call, LastListing calls name call := by
  induction calls with
  | nil => cases h
  | cons call calls ih =>
    by_cases hlater : name ∈ calls.flatMap RuneCall.listed
    · obtain ⟨last, front, back, rfl, hlisted, hback⟩ := ih hlater
      exact ⟨last, call :: front, back, rfl, hlisted, hback⟩
    · have hlisted : name ∈ call.listed := by
        rw [List.flatMap_cons, List.mem_append] at h
        exact h.resolve_right hlater
      refine ⟨call, [], calls, rfl, hlisted, fun other hother hmem => hlater ?_⟩
      exact List.mem_flatMap.2 ⟨other, hother, hmem⟩

/-- The place that is recorded for a class is that of the last call that lists it. -/
theorem get?_of_lastListing {calls : List RuneCall} {name : String} {call : RuneCall}
    (h : LastListing calls name call) (s : ClassSet) :
    (s.insertAll (calls.flatMap RuneCall.references)).get? name = some call.span := by
  obtain ⟨front, back, rfl, hlisted, hback⟩ := h
  have hlater : name ∉ (back.flatMap RuneCall.references).map Prod.fst := by
    rw [map_fst_references]
    intro hmem
    obtain ⟨other, hother, hmem⟩ := List.mem_flatMap.1 hmem
    exact hback other hother hmem
  have hhere : name ∈ call.references.map Prod.fst :=
    List.mem_map.2 ⟨_, List.mem_map_of_mem hlisted, rfl⟩
  rw [List.flatMap_append, List.flatMap_cons, ClassSet.insertAll_append, ClassSet.insertAll_append,
    ClassSet.get?_insertAll_of_not_mem hlater]
  exact ClassSet.get?_insertAll_of_mem (List.forall_mem_map.2 fun _ _ => rfl) hhere

/-! ### Rune calls -/

/-- What is reported for a class without a hashed name. -/
def unresolved (runes : ClassSet) (name : String) : RuneError :=
  ⟨.undefinedClass name, (runes.get? name).getD ⟨0, 0⟩⟩

section Calls

variable {names : ClassNames} {hash : String} {b : EditBuffer} {call : RuneCall}
  {calls : List RuneCall}

/-- All names of a list have hashed ones, or the first without one is reported. -/
theorem hashedNames_cases (runes : ClassSet) (names : ClassNames) (classes : List String) :
    (∃ hashed, hashedNames runes names classes = .ok hashed) ∨
      ∃ name, FirstFailing (· ∈ names.keys) classes name ∧
        hashedNames runes names classes = .error (unresolved runes name) := by
  induction classes with
  | nil => exact .inl ⟨[], rfl⟩
  | cons name rest ih =>
    rw [hashedNames]
    cases hget : names.get? name with
    | none =>
      have hmissing : name ∉ names.keys := by
        rw [ClassNames.mem_keys_iff, hget]
        simp
      exact .inr ⟨name, ⟨[], rest, rfl, by simp, hmissing⟩, rfl⟩
    | some hashed =>
      have hknown : name ∈ names.keys := ClassNames.mem_keys_iff.2 ⟨hashed, hget⟩
      rcases ih with ⟨more, hmore⟩ | ⟨other, hfirst, herror⟩
      · refine .inl ⟨hashed :: more, ?_⟩
        rw [hmore]
        rfl
      · refine .inr ⟨other, ?_, ?_⟩
        · show FirstFailing _ ([name] ++ rest) other
          exact hfirst.append_left (List.forall_mem_singleton.2 hknown)
        · rw [herror]
          rfl

/-- One call is replaced if all its classes have hashed names, and otherwise the first without one
is reported. -/
theorem applyToCall_resolves (hn : names.Hashes hash)
    (hclasses : ∃ classes, call.classes = .ok classes) (runes : ClassSet) (specific : Bool)
    (b : EditBuffer) :
    ((∀ name ∈ call.listed, name ∈ names.keys) ∧
      applyToCall runes names specific b call =
        ofEdit (b.overwrite call.span (callEdit hash specific call).text)) ∨
      ∃ name, FirstFailing (· ∈ names.keys) call.listed name ∧
        applyToCall runes names specific b call = .error (.rune (unresolved runes name)) := by
  obtain ⟨classes, hclasses⟩ := hclasses
  have hlisted : call.listed = Text.words classes.toList := by
    rw [RuneCall.listed, hclasses]
  rw [applyToCall, hclasses, hlisted]
  rcases hashedNames_cases runes names (Text.words classes.toList) with
    ⟨hashed, hhashed⟩ | ⟨name, hfirst, herror⟩
  · obtain ⟨heq, hknown⟩ := hashedNames_eq_ok hn hhashed
    refine .inl ⟨hknown, ?_⟩
    simp only [literal, hhashed, callEdit, quoted, hlisted, heq]
    rfl
  · refine .inr ⟨name, hfirst, ?_⟩
    simp only [literal, herror]
    rfl

/-- **A pass over calls succeeds if all their classes have hashed names**, and otherwise the first
without one is reported. -/
theorem applyToAll_resolves (hn : names.Hashes hash)
    (hclasses : ∀ call ∈ calls, ∃ classes, call.classes = .ok classes)
    (hready : b.Ready (calls.map RuneCall.span)) (runes : ClassSet) (specific : Bool) :
    ((∀ name ∈ calls.flatMap RuneCall.listed, name ∈ names.keys) ∧
      ∃ b', applyToAll runes names specific b calls = .ok b') ∨
      ∃ name, FirstFailing (· ∈ names.keys) (calls.flatMap RuneCall.listed) name ∧
        applyToAll runes names specific b calls = .error (.rune (unresolved runes name)) := by
  induction calls generalizing b with
  | nil => exact .inl ⟨by simp, b, rfl⟩
  | cons call calls ih =>
    obtain ⟨hcall, hcalls⟩ := List.forall_mem_cons.1 hclasses
    obtain ⟨b₁, hb₁, hready'⟩ :=
      EditBuffer.Ready.overwrite (callEdit hash specific call).text hready
    rw [applyToAll, List.flatMap_cons]
    rcases applyToCall_resolves hn hcall runes specific b with ⟨hknown, heq⟩ | ⟨name, hfirst, he⟩
    · rw [heq, hb₁]
      rcases ih hcalls hready' with ⟨hrest, b', hb'⟩ | ⟨name, hfirst, he⟩
      · exact .inl ⟨List.forall_mem_append.2 ⟨hknown, hrest⟩, b', hb'⟩
      · exact .inr ⟨name, hfirst.append_left hknown, he⟩
    · rw [he]
      exact .inr ⟨name, hfirst.append_right _, rfl⟩

end Calls

/-! ### Components -/

section Components

variable {scripts : ScriptReader} {options : Options} {filename source : String}
  {component : Component} {usage : Usage}

/-- The classes with hashed names are those that runes name and the stylesheet defines. -/
theorem mem_keys_iff_defines (hread : Component.read scripts source = .ok component)
    (hash : String) {name : String} (hname : usage.runes.contains name = true) :
    name ∈ (addNames hash ClassNames.empty (component.runesIn usage)).keys ↔
      component.Defines name := by
  rw [mem_keys_addNames, defines_iff_of_read hread, or_iff_left (by simp [ClassNames.keys,
    ClassNames.empty])]
  constructor
  · intro h
    obtain ⟨o, ho, rfl⟩ := List.mem_map.1 h
    obtain ⟨p, hp, ho⟩ := List.mem_flatMap.1 ho
    exact ⟨p, hp, o.span, (mem_runesIn_iff.1 ho).1⟩
  · rintro ⟨p, hp, span, hmem⟩
    have ho : ⟨name, span, usage.placement name, true⟩ ∈ runesIn usage p.2 :=
      mem_runesIn_iff.2 ⟨hmem, hname, rfl, rfl⟩
    exact List.mem_map.2 ⟨_, List.mem_flatMap.2 ⟨p, hp, ho⟩, rfl⟩

/-- The stylesheet is never a reason to refuse a component whose selectors stand where they may. -/
theorem exists_applyToStyle (hlaw : scripts.Lawful)
    (hread : Component.read scripts source = .ok component)
    (hplaced : ∀ p ∈ component.selectors, checkPlacement (occurrences usage p.2) p.1 = .ok ())
    (setting : StyleSetting) :
    ∃ style, applyToStyle component usage setting (EditBuffer.ofSource component.source) =
        .ok style ∧
      style.names = addNames setting.hash ClassNames.empty (component.runesIn usage) ∧
      style.buffer.Ready (component.runeCalls.map RuneCall.span) := by
  have hready : (EditBuffer.ofSource component.source).Ready (component.editRanges usage) :=
    EditBuffer.ready_ofSource ((laid_read hread).1 ▸ sited_editRanges hlaw hread usage)
  have hcases := applyToSelectors_of_ready (s := ⟨_, ClassNames.empty, []⟩) hready setting
    component.source
  rw [applyToStyle_eq]
  rcases hcases with ⟨e, ⟨p, hp, hmisused⟩, _⟩ | ⟨style, hstyle, hready'⟩
  · exact absurd hmisused (not_misused (hplaced p hp) setting component.source e)
  · exact ⟨style, hstyle, (applyToSelectors_eq_ok hstyle).2, hready'⟩

/-- Runes are applied if all classes that calls list are defined, and otherwise the first that is
not is reported. -/
theorem applyRunes_resolves (hlaw : scripts.Lawful)
    (hread : Component.read scripts source = .ok component) (husage : component.usage = .ok usage)
    (hreserved : options.specific = true → ∀ name ∈ reservedClasses,
      usage.runes.contains name = false)
    (hplaced : ∀ p ∈ component.selectors, checkPlacement (occurrences usage p.2) p.1 = .ok ())
    (hnested : component.nestedCalls = []) :
    ((∀ name ∈ component.runeCalls.flatMap RuneCall.listed, component.Defines name) ∧
      ∃ done, applyRunes options filename component usage = .ok done) ∨
      ∃ name, FirstFailing component.Defines (component.runeCalls.flatMap RuneCall.listed) name ∧
        applyRunes options filename component usage =
          .error (.rune (unresolved usage.runes name)) := by
  have hcheck : (if options.specific then ofRuneCheck (refuseReserved usage.runes reservedClasses)
      else pure () : Except ApplyError Unit) = .ok () := by
    split
    · rename_i hspecific
      rw [refuseReserved_eq_ok_iff.2 (hreserved hspecific)]
      rfl
    · rfl
  obtain ⟨style, hstyle, hnames, hready⟩ := exists_applyToStyle hlaw hread hplaced
    (options.styleSetting filename component.source)
  have hhashes : style.names.Hashes (options.styleSetting filename component.source).hash :=
    hnames ▸ hashes_addNames (hashes_empty _) _
  -- what calls list has a hashed name exactly if it is defined
  have hdefines : ∀ name ∈ component.runeCalls.flatMap RuneCall.listed,
      name ∈ style.names.keys ↔ component.Defines name := by
    intro name hname
    rw [hnames]
    exact mem_keys_iff_defines hread _ ((contains_runes_iff husage hnested).2 hname)
  rw [applyRunes_eq, hcheck, hstyle]
  dsimp only [bind, Except.bind, applyToCalls]
  rcases applyToAll_resolves hhashes (fun call hcall => classes_of_usage husage hcall) hready
      usage.runes options.specific with ⟨hknown, buffer, hbuffer⟩ | ⟨name, hfirst, herror⟩
  · rw [hbuffer]
    exact .inl ⟨fun name hname => (hdefines name hname).1 (hknown name hname), _, rfl⟩
  · rw [herror]
    exact .inr ⟨name, hfirst.congr hdefines, rfl⟩

/-- **Preprocessing succeeds exactly if all classes that runes name are defined.**  Otherwise the
first class that is not defined is reported, at the last rune call that lists it. -/
theorem preprocess_resolves_iff (hlaw : scripts.Lawful)
    (hread : Component.read scripts source = .ok component) (husage : component.usage = .ok usage)
    (hreserved : options.specific = true → ∀ name ∈ reservedClasses,
      usage.runes.contains name = false)
    (hplaced : ∀ p ∈ component.selectors, checkPlacement (occurrences usage p.2) p.1 = .ok ())
    (hnested : component.nestedCalls = []) (filename : String) :
    ((∃ out, preprocess scripts options filename source = .ok out) ↔
        ∀ name, usage.runes.contains name = true → component.Defines name) ∧
      ((¬∀ name, usage.runes.contains name = true → component.Defines name) →
        ∃ name call,
          FirstFailing component.Defines (component.runeCalls.flatMap RuneCall.listed) name ∧
          LastListing component.runeCalls name call ∧
          preprocess scripts options filename source =
            .error (.rune ⟨.undefinedClass name, call.span⟩)) := by
  have hnames : (∀ name, usage.runes.contains name = true → component.Defines name) ↔
      ∀ name ∈ component.runeCalls.flatMap RuneCall.listed, component.Defines name :=
    forall_congr' fun name => by rw [contains_runes_iff husage hnested]
  rw [hnames, preprocess_eq hread husage]
  by_cases hempty : usage.runes.isEmpty = true
  · -- where runes name no class, none is missing
    have hnone : ∀ name ∈ component.runeCalls.flatMap RuneCall.listed, component.Defines name := by
      intro name hname
      have hcontains := (contains_runes_iff husage hnested).2 hname
      cases hcontains.symm.trans (ClassSet.contains_of_isEmpty hempty name)
    rw [if_pos hempty]
    exact ⟨iff_of_true ⟨_, rfl⟩ hnone, fun hnot => absurd hnone hnot⟩
  · rw [if_neg hempty]
    rcases applyRunes_resolves hlaw hread husage hreserved hplaced hnested with
      ⟨hdefined, done, hdone⟩ | ⟨name, hfirst, herror⟩
    · rw [hdone]
      exact ⟨iff_of_true ⟨_, rfl⟩ hdefined, fun hnot => absurd hdefined hnot⟩
    · obtain ⟨call, hlast⟩ := exists_lastListing hfirst.mem
      have hspan : unresolved usage.runes name = ⟨.undefinedClass name, call.span⟩ := by
        rw [unresolved, runes_of_usage husage hnested, get?_of_lastListing hlast]
        rfl
      rw [herror, hspan]
      refine ⟨iff_of_false ?_ hfirst.not_forall, fun _ => ⟨name, call, hfirst, hlast, rfl⟩⟩
      rintro ⟨out, hout⟩
      cases hout

/-- A component that defines the classes `a` and `b` inside an at-rule and an argument.  The class
`x` stands only in an argument of `:global` and in keyframes. -/
def undefinedStyle : String :=
  "<p class=\x7b$css(\"b a\")\x7d>\x7b$css(\"a x y\")\x7d\x7b$css(\"x\")\x7d</p>" ++
    "<style>@media print\x7bp:is(.a .b)\x7b\x7d\x7d:global(.x)\x7b\x7d" ++
    "@keyframes x\x7b.x\x7b\x7d\x7d</style>"

/-- Not all of its classes are defined, so the first that is not is reported. -/
theorem preprocess_resolves_iff_undefinedStyle :
    ∃ component usage,
      Component.read ScriptReader.callsOnly undefinedStyle = .ok component ∧
      component.usage = .ok usage ∧
      (∀ name ∈ reservedClasses, usage.runes.contains name = false) ∧
      (∀ p ∈ component.selectors, checkPlacement (occurrences usage p.2) p.1 = .ok ()) ∧
      component.nestedCalls = [] ∧
      component.runeCalls.flatMap RuneCall.listed = ["b", "a", "a", "x", "y", "x"] ∧
      component.runeCalls.map RuneCall.span = [⟨10, 21⟩, ⟨24, 37⟩, ⟨39, 48⟩] ∧
      ∃ name call,
        FirstFailing component.Defines (component.runeCalls.flatMap RuneCall.listed) name ∧
        LastListing component.runeCalls name call ∧
        preprocess ScriptReader.callsOnly ⟨.djb2, .use, true⟩ "f" undefinedStyle =
          .error (.rune ⟨.undefinedClass name, call.span⟩) := by
  have heval : ((Component.read ScriptReader.callsOnly undefinedStyle).toOption.bind
      fun component => component.usage.toOption.map fun usage =>
        (reservedClasses.all (fun name => !usage.runes.contains name) &&
          component.selectors.all (fun p =>
            (checkPlacement (occurrences usage p.2) p.1).toOption == some ()) &&
          component.nestedCalls.isEmpty,
          component.runeCalls.flatMap RuneCall.listed, component.runeCalls.map RuneCall.span)) =
      some (true, ["b", "a", "a", "x", "y", "x"], [⟨10, 21⟩, ⟨24, 37⟩, ⟨39, 48⟩]) := by
    decide +kernel
  have hfails : (preprocess ScriptReader.callsOnly ⟨.djb2, .use, true⟩ "f"
      undefinedStyle).toOption.isNone = true := by decide +kernel
  obtain ⟨component, hread, heval⟩ := Option.bind_eq_some_iff.1 heval
  obtain ⟨usage, husage, heval⟩ := Option.map_eq_some_iff.1 heval
  rw [toOption_eq_some_iff] at hread husage
  simp only [Prod.mk.injEq, Bool.and_eq_true, List.all_eq_true, Bool.not_eq_true',
    beq_iff_eq, toOption_eq_some_iff, List.isEmpty_iff] at heval
  obtain ⟨⟨⟨hreserved, hplaced⟩, hnested⟩, hlisted, hspans⟩ := heval
  have hspecific : (⟨.djb2, .use, true⟩ : Options).specific = true →
      ∀ name ∈ reservedClasses, usage.runes.contains name = false := fun _ => hreserved
  obtain ⟨hiff, herror⟩ := preprocess_resolves_iff ScriptReader.lawful_callsOnly hread husage
    hspecific hplaced hnested "f"
  refine ⟨component, usage, hread, husage, hreserved, hplaced, hnested, hlisted, hspans,
    herror fun hall => ?_⟩
  obtain ⟨out, hout⟩ := hiff.2 hall
  rw [hout] at hfails
  cases hfails

end Components

end CssRune
