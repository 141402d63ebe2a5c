/-
**What runes name is what rune calls list.**

The classes that runes name are collected by one walk of the trees of scripts, and the calls that
are edited by another.  The first enters rune calls and the second does not, so both find the same
classes, at the same places and in the same order, when no rune call stands inside another one.

* `runeReferences`, `RuneCall.references` — the classes that references name by runes, and those
  that a rune call names, each with its place;
* `Usage.runes_ofReferences` — the classes that runes name are those of the references;
* `Component.nestedCalls` — the rune calls that stand inside another one;
* `Script.Node.runeReferences_references` — **the two walks agree on a tree without nested rune
  calls**;
* `runes_of_usage` — the classes that runes name in a component are those its calls list;
* `exists_call_of_contains_runes` — a class that a rune names is listed by a rune call;
* `classes_of_usage` — every rune call of a component whose references were collected lists classes.
-/

import CssRune.Proofs.Rune.Edits
import CssRune.Proofs.Script.Calls

set_option autoImplicit false

namespace CssRune

/-! ### The classes that references name -/

/-- The class that a reference names by a rune, and where. -/
def Reference.rune? : Reference → Option (String × Span)
  | rune name span => some (name, span)
  | native _ _ => none

/-- The classes that references name by runes, and where. -/
def runeReferences (refs : List Reference) : List (String × Span) := refs.filterMap Reference.rune?

/-- The classes that a rune call names, all of them at the call. -/
def RuneCall.references (call : RuneCall) : List (String × Span) :=
  call.listed.map fun name => (name, call.span)

theorem runeReferences_append (refs more : List Reference) :
    runeReferences (refs ++ more) = runeReferences refs ++ runeReferences more :=
  List.filterMap_append

theorem runeReferences_map_rune (names : List String) (span : Span) :
    runeReferences (names.map fun name => .rune name span) =
      names.map fun name => (name, span) := by
  rw [runeReferences, List.filterMap_map]
  exact congrFun List.filterMap_eq_map names

theorem runeReferences_nativeWords (text : String) (span : Span) :
    runeReferences (nativeWords text span) = [] := by
  rw [runeReferences, List.filterMap_eq_nil_iff, nativeWords]
  exact List.forall_mem_map.2 fun name _ => rfl

/-- The classes that runes name are collected from the references in their order. -/
theorem Usage.runes_ofReferences (refs : List Reference) :
    (Usage.ofReferences refs).runes = ClassSet.empty.insertAll (runeReferences refs) := by
  have hfold : ∀ u : Usage, (refs.foldl Usage.add u).runes =
      u.runes.insertAll (runeReferences refs) := by
    induction refs with
    | nil => exact fun _ => rfl
    | cons r refs ih =>
      intro u
      rw [List.foldl_cons, ih]
      cases r with
      | native name span => rfl
      | rune name span => rfl
  exact hfold ⟨ClassSet.empty, ClassSet.empty⟩

namespace ClassSet

variable {s : ClassSet} {refs more : List (String × Span)} {name : String} {span : Span}

theorem insertAll_append (s : ClassSet) (refs more : List (String × Span)) :
    s.insertAll (refs ++ more) = (s.insertAll refs).insertAll more := List.foldl_append

theorem get?_insertAll_of_not_mem (h : name ∉ refs.map Prod.fst) :
    (s.insertAll refs).get? name = s.get? name := by
  induction refs generalizing s with
  | nil => rfl
  | cons r refs ih =>
    rw [List.map_cons, List.mem_cons, not_or] at h
    show ((s.insert r.1 r.2).insertAll refs).get? name = _
    rw [ih h.2, get?_insert, if_neg h.1]

/-- A name that is recorded at one place only has this place. -/
theorem get?_insertAll_of_mem (hspan : ∀ r ∈ refs, r.2 = span) (h : name ∈ refs.map Prod.fst) :
    (s.insertAll refs).get? name = some span := by
  induction refs generalizing s with
  | nil => cases h
  | cons r refs ih =>
    obtain ⟨hr, hrefs⟩ := List.forall_mem_cons.1 hspan
    show ((s.insert r.1 r.2).insertAll refs).get? name = _
    by_cases hmem : name ∈ refs.map Prod.fst
    · exact ih hrefs hmem
    · rw [List.map_cons, List.mem_cons, or_iff_left hmem] at h
      rw [get?_insertAll_of_not_mem hmem, get?_insert, if_pos h, hr]

/-- The names of a set are those that were recorded. -/
theorem contains_insertAll : (s.insertAll refs).contains name = true ↔
    name ∈ refs.map Prod.fst ∨ s.contains name = true := by
  induction refs generalizing s with
  | nil => simp [insertAll]
  | cons r refs ih =>
    show ((s.insert r.1 r.2).insertAll refs).contains name = true ↔ _
    rw [ih, List.map_cons, List.mem_cons, contains, contains, get?_insert]
    by_cases h : name = r.1
    · simp [h]
    · simp [h]

end ClassSet

/-! ### Nested rune calls -/

namespace Script

namespace Node

mutual

/-- The rune calls of a tree that stand inside another one, and in no third one between them. -/
def nestedCalls (offset : Nat) : Node → List RuneCall
  | mk kind span children =>
    match (mk kind span children).calledClasses? with
    | some _ => runeCallsOfAll offset children
    | none => nestedCallsOfAll offset children

/-- The rune calls of a list of trees that stand inside another one. -/
def nestedCallsOfAll (offset : Nat) : List Node → List RuneCall
  | [] => []
  | n :: ns => n.nestedCalls offset ++ nestedCallsOfAll offset ns

end

variable {offset : Nat} {ns : List Node} {n : Node} {inClass : Bool} {refs : List Reference}

theorem nestedCallsOfAll_eq_nil_iff :
    nestedCallsOfAll offset ns = [] ↔ ∀ n ∈ ns, n.nestedCalls offset = [] := by
  induction ns with
  | nil => simp [nestedCallsOfAll]
  | cons n ns ih => rw [nestedCallsOfAll, List.append_eq_nil_iff, ih, List.forall_mem_cons]

theorem runeCallsOfAll_eq_nil_iff :
    runeCallsOfAll offset ns = [] ↔ ∀ n ∈ ns, n.runeCalls offset = [] := by
  rw [runeCallsOfAll_eq, List.flatMap_eq_nil_iff]

/-- Where there is no rune call there is no nested one. -/
theorem nestedCalls_eq_nil (h : n.runeCalls offset = []) : n.nestedCalls offset = [] := by
  induction n using Node.forall_of_children with
  | step kind span children ih =>
    cases hcalled : (mk kind span children).calledClasses? with
    | some classes =>
      rw [runeCalls, hcalled] at h
      cases h
    | none =>
      rw [runeCalls, hcalled] at h
      have hbelow := runeCallsOfAll_eq_nil_iff.1 h
      rw [nestedCalls, hcalled]
      exact nestedCallsOfAll_eq_nil_iff.2 fun n hn => ih n hn (hbelow n hn)

/-! ### The two walks -/

theorem runeReferences_keyReferences (offset : Nat) (n : Node) :
    runeReferences (n.keyReferences offset) = [] := by
  unfold keyReferences
  split
  · split
    · rfl
    · exact runeReferences_nativeWords _ _
    · rfl
  · rfl

theorem runeReferences_flatMap_keyReferences (offset : Nat) (ns : List Node) :
    runeReferences (ns.flatMap (keyReferences offset)) = [] := by
  induction ns with
  | nil => rfl
  | cons n ns ih =>
    rw [List.flatMap_cons, runeReferences_append, runeReferences_keyReferences, ih]
    rfl

theorem runeReferences_referencesOfAll (h : referencesOfAll offset inClass ns = .ok refs)
    (hns : ∀ n ∈ ns, ∀ refs, n.references offset inClass = .ok refs →
      runeReferences refs = (n.runeCalls offset).flatMap RuneCall.references) :
    runeReferences refs = (runeCallsOfAll offset ns).flatMap RuneCall.references := by
  induction ns generalizing refs with
  | nil =>
    cases h
    rfl
  | cons n ns ih =>
    obtain ⟨first, hfirst, h⟩ := bind_eq_ok_iff.1 h
    obtain ⟨more, hmore, h⟩ := bind_eq_ok_iff.1 h
    obtain ⟨hn, hrest⟩ := List.forall_mem_cons.1 hns
    rw [← pure_eq_ok_iff.1 h, runeReferences_append, runeCallsOfAll, List.flatMap_append,
      hn first hfirst, ih hmore hrest]

/-- **The two walks agree on a tree without nested rune calls.** -/
theorem runeReferences_references (h : n.references offset inClass = .ok refs)
    (hnested : n.nestedCalls offset = []) :
    runeReferences refs = (n.runeCalls offset).flatMap RuneCall.references := by
  induction n using Node.forall_of_children generalizing inClass refs with
  | step kind span children ih =>
    unfold references at h
    rw [nestedCalls] at hnested
    rw [runeCalls]
    cases hcalled : (mk kind span children).calledClasses? with
    | some classes =>
      rw [hcalled] at h hnested
      change runeCallsOfAll offset children = [] at hnested
      have hnone := runeCallsOfAll_eq_nil_iff.1 hnested
      cases classes with
      | error fault => cases h
      | ok classes =>
        obtain ⟨more, hmore, h⟩ := bind_eq_ok_iff.1 h
        -- the walk enters the call, but there is no rune call to be found in it
        have hbelow := runeReferences_referencesOfAll hmore fun n hn refs hrefs =>
          ih n hn hrefs (nestedCalls_eq_nil (hnone n hn))
        rw [hnested] at hbelow
        rw [← pure_eq_ok_iff.1 h, runeReferences_append, runeReferences_map_rune, hbelow]
        rfl
    | none =>
      rw [hcalled] at h hnested
      change nestedCallsOfAll offset children = [] at hnested
      have hbelow : ∀ {inClass refs}, referencesOfAll offset inClass children = .ok refs →
          runeReferences refs =
            (runeCallsOfAll offset children).flatMap RuneCall.references :=
        fun hrefs => runeReferences_referencesOfAll hrefs fun n hn refs hrefs =>
          ih n hn hrefs (nestedCallsOfAll_eq_nil_iff.1 hnested n hn)
      simp only at h
      split at h
      · obtain ⟨more, hmore, h⟩ := bind_eq_ok_iff.1 h
        have hkeys : runeReferences (if inClass = true then
            children.flatMap (keyReferences offset) else []) = [] := by
          split
          · exact runeReferences_flatMap_keyReferences offset children
          · rfl
        rw [← pure_eq_ok_iff.1 h, runeReferences_append, hkeys]
        exact hbelow hmore
      · rename_i value
        obtain ⟨more, hmore, h⟩ := bind_eq_ok_iff.1 h
        have hwords : runeReferences (if inClass = true then
            nativeWords value (span.shift offset) else []) = [] := by
          split
          · exact runeReferences_nativeWords _ _
          · rfl
        rw [← pure_eq_ok_iff.1 h, runeReferences_append, hwords]
        exact hbelow hmore
      · exact hbelow h

/-- A tree whose references are collected has no rune call that is used wrongly. -/
theorem classes_of_references (h : n.references offset inClass = .ok refs) {call : RuneCall}
    (hcall : call ∈ n.runeCalls offset) : ∃ classes, call.classes = .ok classes := by
  induction n using Node.forall_of_children generalizing inClass refs with
  | step kind span children ih =>
    have hbelow : ∀ {inClass refs ns}, (∀ n ∈ ns, n ∈ children) →
        referencesOfAll offset inClass ns = .ok refs → call ∈ runeCallsOfAll offset ns →
        ∃ classes, call.classes = .ok classes := by
      intro inClass refs ns hns hrefs hcall
      induction ns generalizing refs with
      | nil => cases hcall
      | cons n ns ihns =>
        obtain ⟨first, hfirst, hrefs⟩ := bind_eq_ok_iff.1 hrefs
        obtain ⟨more, hmore, _⟩ := bind_eq_ok_iff.1 hrefs
        obtain ⟨hn, hns⟩ := List.forall_mem_cons.1 hns
        rcases List.mem_append.1 hcall with hcall | hcall
        · exact ih n hn hfirst hcall
        · exact ihns hns hmore hcall
    unfold references at h
    rw [runeCalls] at hcall
    cases hcalled : (mk kind span children).calledClasses? with
    | some classes =>
      rw [hcalled] at h hcall
      rw [List.mem_singleton.1 hcall]
      cases classes with
      | error fault => cases h
      | ok classes => exact ⟨classes, rfl⟩
    | none =>
      rw [hcalled] at h hcall
      simp only at h
      split at h
      · obtain ⟨more, hmore, _⟩ := bind_eq_ok_iff.1 h
        exact hbelow (fun _ hn => hn) hmore hcall
      · obtain ⟨more, hmore, _⟩ := bind_eq_ok_iff.1 h
        exact hbelow (fun _ hn => hn) hmore hcall
      · exact hbelow (fun _ hn => hn) h hcall

end Node

end Script

/-! ### Components -/

/-- The rune calls of a part of markup that stand inside another one. -/
def MarkupPart.nestedCalls : MarkupPart → List RuneCall
  | expression _ e => e.node.nestedCalls e.offset
  | _ => []

/-- The rune calls of a component that stand inside another one. -/
def Component.nestedCalls (c : Component) : List RuneCall :=
  c.parts.flatMap MarkupPart.nestedCalls

variable {refs : List Reference}

theorem MarkupPart.runeReferences_references {p : MarkupPart} (h : p.references = .ok refs)
    (hnested : p.nestedCalls = []) :
    runeReferences refs = p.runeCalls.flatMap RuneCall.references := by
  cases p with
  | classText t =>
    rw [← Except.ok.inj h, runeReferences, List.filterMap_eq_nil_iff.2]
    · rfl
    · exact List.forall_mem_map.2 fun w _ => rfl
  | toggle name span =>
    rw [← Except.ok.inj h]
    rfl
  | expression inClass e => exact Script.Node.runeReferences_references h hnested

theorem runeReferences_referencesOfParts {ps : List MarkupPart}
    (h : referencesOfParts ps = .ok refs) (hnested : ∀ p ∈ ps, p.nestedCalls = []) :
    runeReferences refs = (ps.flatMap MarkupPart.runeCalls).flatMap RuneCall.references := by
  induction ps generalizing refs with
  | nil =>
    cases h
    rfl
  | cons p ps ih =>
    obtain ⟨first, hfirst, h⟩ := bind_eq_ok_iff.1 h
    obtain ⟨more, hmore, h⟩ := bind_eq_ok_iff.1 h
    obtain ⟨hp, hps⟩ := List.forall_mem_cons.1 hnested
    rw [← pure_eq_ok_iff.1 h, runeReferences_append, List.flatMap_cons, List.flatMap_append,
      p.runeReferences_references hfirst hp, ih hmore hps]

section Components

variable {component : Component} {usage : Usage}

/-- The classes that runes name in a component are those its rune calls list, in their order, if no
rune call stands inside another one. -/
theorem runes_of_usage (husage : component.usage = .ok usage)
    (hnested : component.nestedCalls = []) :
    usage.runes = ClassSet.empty.insertAll (component.runeCalls.flatMap RuneCall.references) := by
  obtain ⟨refs, hrefs, rfl⟩ := map_eq_ok_iff.1 husage
  rw [Component.nestedCalls, List.flatMap_eq_nil_iff] at hnested
  rw [Usage.runes_ofReferences, runeReferences_referencesOfParts hrefs hnested]
  rfl

theorem map_fst_references (calls : List RuneCall) :
    (calls.flatMap RuneCall.references).map Prod.fst = calls.flatMap RuneCall.listed := by
  rw [List.map_flatMap]
  congr 1
  funext call
  rw [RuneCall.references, List.map_map]
  exact List.map_id _

variable {name : String}

theorem contains_runes_iff (husage : component.usage = .ok usage)
    (hnested : component.nestedCalls = []) :
    usage.runes.contains name = true ↔ name ∈ component.runeCalls.flatMap RuneCall.listed := by
  rw [runes_of_usage husage hnested, ClassSet.contains_insertAll, map_fst_references]
  exact or_iff_left (by simp [ClassSet.contains, ClassSet.get?, ClassSet.empty])

/-- **A class that a rune names is listed by a rune call**, if no rune call stands inside another
one. -/
theorem exists_call_of_contains_runes (husage : component.usage = .ok usage)
    (hnested : component.nestedCalls = []) (h : usage.runes.contains name = true) :
    ∃ call ∈ component.runeCalls, name ∈ call.listed :=
  List.mem_flatMap.1 ((contains_runes_iff husage hnested).1 h)

/-- Rune calls of a component whose references are collected list classes. -/
theorem classes_of_usage (husage : component.usage = .ok usage) {call : RuneCall}
    (hcall : call ∈ component.runeCalls) : ∃ classes, call.classes = .ok classes := by
  obtain ⟨refs, hrefs, -⟩ := map_eq_ok_iff.1 husage
  rw [Component.runeCalls] at hcall
  generalize component.parts = ps at hrefs hcall
  induction ps generalizing refs with
  | nil => cases hcall
  | cons p ps ih =>
    obtain ⟨first, hfirst, hrefs⟩ := bind_eq_ok_iff.1 hrefs
    obtain ⟨more, hmore, _⟩ := bind_eq_ok_iff.1 hrefs
    rcases List.mem_append.1 hcall with hcall | hcall
    · cases p with
      | classText t => cases hcall
      | toggle name span => cases hcall
      | expression inClass e => exact Script.Node.classes_of_references hfirst hcall
    · exact ih more hmore hcall

end Components

end CssRune
