/-
**What a component uses natively.**

Native uses are collected by a walk that carries a flag: it is set in the value of a `class`
attribute, and taken back inside rune calls and inside object literals.  Said without the flag, a
class is used natively by the text of a `class` attribute, by a `class:` directive, or in an
expression of a `class` attribute by a string or a key that has no object literal and no rune call
above it.  Nothing else counts, so what rune calls hold never matters.

Main definition:

* `Script.Node.Exposes` — **a node stands in a tree outside of object literals and rune calls**.

Main results:

* `Script.Node.exists_native_references_iff` — the walk of a tree finds what it names;
* `Script.Node.Alike.namesNatively_iff` — what rune calls hold does not matter;
* `natives_of_usage` — **the native uses of a component**.
-/

import CssRune.Proofs.Markup.Calls
import CssRune.Proofs.Rune.References
import CssRune.Proofs.Text.Words
import Mathlib.Data.List.Forall2

set_option autoImplicit false

namespace CssRune

/-! ### Native references -/

variable {α β : Type} {refs : List Reference} {name : String}

/-- The classes that are used natively are those of the native references. -/
theorem Usage.contains_natives_ofReferences :
    (Usage.ofReferences refs).natives.contains name = true ↔
      ∃ span, Reference.native name span ∈ refs := by
  have hfold : ∀ u : Usage, (refs.foldl Usage.add u).natives.contains name = true ↔
      (∃ span, Reference.native name span ∈ refs) ∨ u.natives.contains name = true := by
    induction refs with
    | nil =>
      intro u
      simp
    | cons r refs ih =>
      intro u
      rw [List.foldl_cons, ih]
      cases r with
      | rune other span => simp [Usage.add]
      | native other span =>
        simp only [Usage.add, ClassSet.contains, ClassSet.get?_insert, List.mem_cons,
          Reference.native.injEq]
        by_cases h : name = other
        · simp [h]
        · simp [h]
  rw [Usage.ofReferences, hfold]
  simp [ClassSet.contains, ClassSet.get?, ClassSet.empty]

theorem exists_native_nativeWords_iff {text : String} {place : Span} :
    (∃ span, Reference.native name span ∈ nativeWords text place) ↔
      name ∈ Text.words text.toList := by
  simp [nativeWords]

theorem exists_native_append_iff {more : List Reference} :
    (∃ span, Reference.native name span ∈ refs ++ more) ↔
      (∃ span, Reference.native name span ∈ refs) ∨ ∃ span, Reference.native name span ∈ more := by
  simp only [List.mem_append, exists_or]

/-- Of two lists whose elements correspond, something in one has a property if something in the
other has the corresponding one. -/
theorem exists_mem_iff_of_forall₂ {R : α → β → Prop} {P : α → Prop} {Q : β → Prop} {as : List α}
    {bs : List β} (h : List.Forall₂ R as bs) (hiff : ∀ a ∈ as, ∀ b, R a b → (P a ↔ Q b)) :
    (∃ a ∈ as, P a) ↔ ∃ b ∈ bs, Q b := by
  induction h with
  | nil => simp
  | @cons a b as bs hab _ ih =>
    obtain ⟨ha, has⟩ := List.forall_mem_cons.1 hiff
    rw [List.exists_mem_cons_iff, List.exists_mem_cons_iff, ha b hab, ih has]

theorem exists_mem_flatMap_iff {f : α → List β} {P : β → Prop} {as : List α} :
    (∃ b ∈ as.flatMap f, P b) ↔ ∃ a ∈ as, ∃ b ∈ f a, P b := by
  constructor
  · rintro ⟨b, hb, hP⟩
    obtain ⟨a, ha, hb⟩ := List.mem_flatMap.1 hb
    exact ⟨a, ha, b, hb, hP⟩
  · rintro ⟨a, ha, b, hb, hP⟩
    exact ⟨b, List.mem_flatMap.2 ⟨a, ha, hb⟩, hP⟩

/-! ### Trees -/

namespace Script

namespace Node

@[simp] theorem kind_mk (kind : Kind) (span : Span) (children : List Node) :
    (mk kind span children).kind = kind := rfl

@[simp] theorem children_mk (kind : Kind) (span : Span) (children : List Node) :
    (mk kind span children).children = children := rfl

/-- A node stands in a tree outside of object literals and rune calls: none of its ancestors is
one. -/
inductive Exposes : Node → Node → Prop
  | here (n : Node) : Exposes n n
  | child {n m k : Node} (hobject : n.kind ≠ .object) (hcall : n.calledClasses? = none)
      (hm : m ∈ n.children) (hk : Exposes m k) : Exposes n k

/-- A property has a key, one that is not computed, that is the name of a class or a string that
lists it. -/
def HasKey (name : String) (property : Node) : Prop :=
  ∃ form key rest, property.kind = .property form false ∧ property.children = key :: rest ∧
    (key.kind = .label name ∨ ∃ value, key.kind = .string value ∧ name ∈ Text.words value.toList)

/-- A node itself names a class: it is a string that lists it, or an object literal with a key for
it. -/
def Says (name : String) (n : Node) : Prop :=
  (∃ value, n.kind = .string value ∧ name ∈ Text.words value.toList) ∨
    n.kind = .object ∧ ∃ property ∈ n.children, property.HasKey name

/-- The classes that a tree names where strings and keys count. -/
def NamesNatively (name : String) (tree : Node) : Prop := ∃ n, tree.Exposes n ∧ n.Says name

variable {n m : Node} {name : String} {offset : Nat}

/-- A tree names what its root says and, if the root is neither an object literal nor a rune call,
what its children name. -/
theorem namesNatively_iff_root :
    n.NamesNatively name ↔ n.Says name ∨
      n.kind ≠ .object ∧ n.calledClasses? = none ∧ ∃ m ∈ n.children, m.NamesNatively name := by
  constructor
  · rintro ⟨k, hexposes, htext⟩
    cases hexposes with
    | here => exact Or.inl htext
    | child hobject hcall hm hk => exact Or.inr ⟨hobject, hcall, _, hm, k, hk, htext⟩
  · rintro (htext | ⟨hobject, hcall, m, hm, k, hk, htext⟩)
    · exact ⟨n, .here n, htext⟩
    · exact ⟨k, .child hobject hcall hm hk, htext⟩

theorem isCall_kind (h : n.calledClasses?.isSome = true) : n.kind.isCall = true := by
  cases n
  exact isCall_of_calledClasses? h

theorem not_namesNatively_of_call (h : n.calledClasses?.isSome = true) (name : String) :
    ¬n.NamesNatively name := by
  have hcall := isCall_kind h
  rw [namesNatively_iff_root]
  rintro ((⟨value, hkind, _⟩ | ⟨hkind, _⟩) | ⟨_, hnone, _⟩)
  · simp [hkind, Kind.isCall] at hcall
  · simp [hkind, Kind.isCall] at hcall
  · simp [hnone] at h

/-- The walk finds the classes that the key of a property names. -/
theorem exists_native_keyReferences_iff {property : Node} :
    (∃ span, Reference.native name span ∈ property.keyReferences offset) ↔
      property.HasKey name := by
  unfold keyReferences HasKey
  split
  · rename_i form span key rest
    split
    · rename_i label hkey
      simp [hkey, eq_comm]
    · rename_i value hkey
      rw [exists_native_nativeWords_iff]
      simp [hkey]
    · rename_i hlabel hstring
      refine iff_of_false (by simp) ?_
      rintro ⟨_, other, _, _, hchildren, hkey⟩
      cases hchildren
      rcases hkey with hkey | ⟨value, hkey, _⟩
      · exact hlabel name hkey
      · exact hstring value hkey
  · rename_i hno
    refine iff_of_false (by simp) ?_
    rintro ⟨form, key, rest, hkind, hchildren, _⟩
    cases property
    exact hno _ _ _ _ (by rw [← hkind, ← hchildren]; rfl)

theorem exists_native_flatMap_keyReferences_iff {ns : List Node} :
    (∃ span, Reference.native name span ∈ ns.flatMap (keyReferences offset)) ↔
      ∃ property ∈ ns, property.HasKey name := by
  constructor
  · rintro ⟨span, hspan⟩
    obtain ⟨property, hmem, hspan⟩ := List.mem_flatMap.1 hspan
    exact ⟨property, hmem, exists_native_keyReferences_iff.1 ⟨span, hspan⟩⟩
  · rintro ⟨property, hmem, hkey⟩
    obtain ⟨span, hspan⟩ := exists_native_keyReferences_iff.2 hkey
    exact ⟨span, List.mem_flatMap.2 ⟨property, hmem, hspan⟩⟩

section Walks

variable {offset : Nat} {inClass : Bool} {refs : List Reference} {name : String}

/-- A list of trees uses natively what its trees do. -/
theorem exists_native_referencesOfAll_iff {ns : List Node}
    (h : referencesOfAll offset inClass ns = .ok refs)
    (hns : ∀ n ∈ ns, ∀ refs, n.references offset inClass = .ok refs →
      ((∃ span, Reference.native name span ∈ refs) ↔ inClass = true ∧ n.NamesNatively name)) :
    (∃ span, Reference.native name span ∈ refs) ↔
      inClass = true ∧ ∃ n ∈ ns, n.NamesNatively name := by
  induction ns generalizing refs with
  | nil =>
    cases h
    simp
  | cons n ns ih =>
    obtain ⟨first, hfirst, h⟩ := bind_eq_ok_iff.1 h
    obtain ⟨more, hmore, h⟩ := bind_eq_ok_iff.1 h
    obtain ⟨hn, hrest⟩ := List.forall_mem_cons.1 hns
    rw [← pure_eq_ok_iff.1 h, exists_native_append_iff, hn first hfirst, ih hmore hrest,
      List.exists_mem_cons_iff, and_or_left]

/-- **The walk of a tree finds what it names**, if strings and keys count to begin with. -/
theorem exists_native_references_iff {n : Node} (h : n.references offset inClass = .ok refs) :
    (∃ span, Reference.native name span ∈ refs) ↔ inClass = true ∧ n.NamesNatively name := by
  induction n using Node.forall_of_children generalizing inClass refs with
  | step kind span children ih =>
    have hbelow : ∀ {inClass refs}, referencesOfAll offset inClass children = .ok refs →
        ((∃ span, Reference.native name span ∈ refs) ↔
          inClass = true ∧ ∃ n ∈ children, n.NamesNatively name) :=
      fun hrefs => exists_native_referencesOfAll_iff hrefs fun n hn refs hrefs => ih n hn hrefs
    unfold references at h
    cases hcalled : (mk kind span children).calledClasses? with
    | some classes =>
      rw [hcalled] at h
      cases classes with
      | error fault => cases h
      | ok classes =>
        obtain ⟨more, hmore, h⟩ := bind_eq_ok_iff.1 h
        have hno : ¬(mk kind span children).NamesNatively name :=
          not_namesNatively_of_call (by simp [hcalled]) name
        rw [← pure_eq_ok_iff.1 h, exists_native_append_iff, hbelow hmore]
        simp [hno]
    | none =>
      rw [hcalled] at h
      rw [namesNatively_iff_root, hcalled]
      simp only at h
      split at h
      · -- an object literal: its keys count, and nothing inside it does
        obtain ⟨more, hmore, h⟩ := bind_eq_ok_iff.1 h
        rw [← pure_eq_ok_iff.1 h, exists_native_append_iff, hbelow hmore]
        cases inClass with
        | true =>
          rw [if_pos rfl, exists_native_flatMap_keyReferences_iff]
          simp [Says]
        | false => simp
      · rename_i value
        obtain ⟨more, hmore, h⟩ := bind_eq_ok_iff.1 h
        rw [← pure_eq_ok_iff.1 h, exists_native_append_iff, hbelow hmore]
        cases inClass with
        | true =>
          rw [if_pos rfl, exists_native_nativeWords_iff]
          simp [Says]
        | false => simp
      · rename_i hobject hstring
        rw [hbelow h]
        have htext : ¬(mk kind span children).Says name := by
          rintro (⟨value, hkind, _⟩ | ⟨hkind, _⟩)
          · exact hstring value hkind
          · exact hobject hkind
        simp [htext, show kind ≠ .object from hobject]

end Walks

/-! ### What rune calls hold -/

/-- Two trees are the same but for what rune calls hold, and for where they stand. -/
inductive Alike : Node → Node → Prop
  | call {n m : Node} (hn : n.calledClasses?.isSome = true) (hm : m.calledClasses?.isSome = true) :
      Alike n m
  | node {kind : Kind} {span span' : Span} {ns ms : List Node} (h : List.Forall₂ Alike ns ms) :
      Alike (mk kind span ns) (mk kind span' ms)

theorem Alike.kind_eq (h : n.Alike m) :
    n.kind = m.kind ∨ n.kind.isCall = true ∧ m.kind.isCall = true := by
  cases h with
  | call hn hm => exact Or.inr ⟨isCall_kind hn, isCall_kind hm⟩
  | node => exact Or.inl rfl

theorem Alike.kind_eq_iff (h : n.Alike m) (kind : Kind) (hkind : kind.isCall = false) :
    n.kind = kind ↔ m.kind = kind := by
  rcases h.kind_eq with heq | ⟨hn, hm⟩
  · rw [heq]
  · refine iff_of_false ?_ ?_
    · rintro rfl
      simp [hkind] at hn
    · rintro rfl
      simp [hkind] at hm

/-- Alike nodes are both rune calls, or none of them is. -/
theorem Alike.isSome_calledClasses? (h : n.Alike m) :
    n.calledClasses?.isSome = m.calledClasses?.isSome := by
  cases h with
  | call hn hm => rw [hn, hm]
  | @node kind span span' ns ms h =>
    cases h with
    | nil => cases kind <;> rfl
    | @cons callee callee' _ _ hcallee _ =>
      have hrune := hcallee.kind_eq_iff (.identifier runeName) rfl
      cases kind with
      | call count => by_cases hname : callee.kind = .identifier runeName <;>
          simp [calledClasses?, hname, ← hrune]
      | _ => rfl

/-- Alike properties have the same keys. -/
theorem Alike.hasKey_iff (h : n.Alike m) : n.HasKey name ↔ m.HasKey name := by
  cases h with
  | call hn hm =>
    have hn := isCall_kind hn
    have hm := isCall_kind hm
    refine iff_of_false ?_ ?_
    · rintro ⟨_, _, _, hkind, _⟩
      simp [hkind, Kind.isCall] at hn
    · rintro ⟨_, _, _, hkind, _⟩
      simp [hkind, Kind.isCall] at hm
  | @node kind span span' ns ms h =>
    cases h with
    | nil => simp [HasKey]
    | cons hkey _ =>
      simp [HasKey, hkey.kind_eq_iff (.label name) rfl,
        fun value => hkey.kind_eq_iff (.string value) rfl]

/-- **What rune calls hold does not matter** for what a tree names natively. -/
theorem Alike.namesNatively_iff (h : n.Alike m) : n.NamesNatively name ↔ m.NamesNatively name := by
  induction n using Node.forall_of_children generalizing m with
  | step kind span children ih =>
    have hcalled := h.isSome_calledClasses?
    cases h with
    | call hn hm =>
      exact iff_of_false (not_namesNatively_of_call hn name) (not_namesNatively_of_call hm name)
    | @node _ _ span' _ ms hchildren =>
      have hkeys := exists_mem_iff_of_forall₂ hchildren
        (P := HasKey name) (Q := HasKey name) fun n _ m hnm => hnm.hasKey_iff
      have hbelow := exists_mem_iff_of_forall₂ hchildren fun n hn m hnm => ih n hn hnm
      have hnone : (mk kind span children).calledClasses? = none ↔
          (mk kind span' ms).calledClasses? = none := by
        rw [← Option.not_isSome_iff_eq_none, ← Option.not_isSome_iff_eq_none, hcalled]
      rw [namesNatively_iff_root, namesNatively_iff_root, Says, Says, hnone]
      simp only [kind_mk, children_mk, hkeys, hbelow]

end Node

end Script

/-! ### Markup -/

/-- Induction on markup: what holds of a node as soon as it holds of its children holds of all. -/
theorem MarkupNode.forall_of_children {P : MarkupNode → Prop}
    (element : ∀ name attributes children selfClosing span, (∀ n ∈ children, P n) →
      P (.element name attributes children selfClosing span))
    (text : ∀ t, P (.text t)) (comment : ∀ t, P (.comment t))
    (expression : ∀ tag, P (.expression tag)) (block : ∀ tag, P (.block tag)) (n : MarkupNode) :
    P n := by
  refine @MarkupNode.rec P (fun ns => ∀ n ∈ ns, P n) ?_ text comment expression block ?_ ?_ n
  · exact fun name attributes children selfClosing span ih =>
      element name attributes children selfClosing span ih
  · simp
  · intro n ns hn hns
    exact List.forall_mem_cons.2 ⟨hn, hns⟩

/-- An attribute stands in an opening tag of a node, or of a node inside it. -/
inductive MarkupNode.Holds (a : AttributeNode) : MarkupNode → Prop
  | own {name : String} {attributes : List AttributeNode} {children : List MarkupNode}
      {selfClosing : Bool} {span : Span} (ha : a ∈ attributes) :
      Holds a (.element name attributes children selfClosing span)
  | inner {name : String} {attributes : List AttributeNode} {children : List MarkupNode}
      {selfClosing : Bool} {span : Span} {n : MarkupNode} (hn : n ∈ children) (h : Holds a n) :
      Holds a (.element name attributes children selfClosing span)

/-- A value has a piece of text. -/
def AttributeValue.HasText (t : TextNode) (v : AttributeValue) : Prop :=
  ∃ cs, v = .chunks cs ∧ .text t ∈ cs

/-- A value is an expression or has one among its pieces. -/
def AttributeValue.HasExpression (e : Expression) (v : AttributeValue) : Prop :=
  ∃ tag, tag.expression = e ∧ (v = .expression tag ∨ ∃ cs, v = .chunks cs ∧ .expression tag ∈ cs)

/-- The classes that an attribute uses natively. -/
inductive AttributeNode.NamesNatively (name : String) : AttributeNode → Prop
  /-- The words of the text of a `class` attribute. -/
  | text {a : Attribute} {t : TextNode} (hclass : a.name = "class") (ht : a.value.HasText t)
      (hword : name ∈ Text.words t.data.toList) : NamesNatively name (.plain a)
  /-- What an expression of a `class` attribute names. -/
  | expression {a : Attribute} {e : Expression} (hclass : a.name = "class")
      (he : a.value.HasExpression e) (hnames : e.node.NamesNatively name) :
      NamesNatively name (.plain a)
  /-- What a `class:` directive toggles. -/
  | toggle {d : Directive} (hkind : d.kind = .class_) (hname : d.name = name) :
      NamesNatively name (.directive d)

/-- The classes that a component uses natively: those that its attributes do. -/
def Component.UsesNatively (name : String) (c : Component) : Prop :=
  ∃ n ∈ c.fragment, ∃ a, n.Holds a ∧ a.NamesNatively name

/-- The classes that a part of markup uses natively. -/
def MarkupPart.NamesNatively (name : String) : MarkupPart → Prop
  | classText t => name ∈ Text.words t.data.toList
  | toggle other _ => other = name
  | expression inClass e => inClass = true ∧ e.node.NamesNatively name

section Parts

variable {name : String}

variable {p : MarkupPart} {refs : List Reference} {v : AttributeValue}

theorem MarkupPart.exists_native_references_iff (h : p.references = .ok refs) :
    (∃ span, Reference.native name span ∈ refs) ↔ p.NamesNatively name := by
  cases p with
  | classText t =>
    cases h
    rw [NamesNatively, ← Text.map_fst_wordSpans t.span.start]
    simp
  | toggle other span =>
    cases h
    simp [NamesNatively, eq_comm]
  | expression inClass e => exact Script.Node.exists_native_references_iff h

theorem exists_native_referencesOfParts_iff {ps : List MarkupPart}
    (h : referencesOfParts ps = .ok refs) :
    (∃ span, Reference.native name span ∈ refs) ↔ ∃ p ∈ ps, p.NamesNatively name := by
  induction ps generalizing refs with
  | nil =>
    cases h
    simp
  | cons p ps ih =>
    obtain ⟨first, hfirst, h⟩ := bind_eq_ok_iff.1 h
    obtain ⟨more, hmore, h⟩ := bind_eq_ok_iff.1 h
    rw [← pure_eq_ok_iff.1 h, exists_native_append_iff, p.exists_native_references_iff hfirst,
      ih hmore, List.exists_mem_cons_iff]

/-- Outside of `class` attributes nothing in a value counts. -/
theorem AttributeValue.not_namesNatively_parts (hp : p ∈ v.parts false) :
    ¬p.NamesNatively name := by
  cases v with
  | absent => simp [parts] at hp
  | expression tag =>
    obtain rfl := List.mem_singleton.1 hp
    simp [MarkupPart.NamesNatively]
  | chunks cs =>
    obtain ⟨x, _, hp⟩ := List.mem_flatMap.1 hp
    cases x with
    | text t => simp [ValueChunk.parts] at hp
    | expression tag =>
      obtain rfl := List.mem_singleton.1 hp
      simp [MarkupPart.NamesNatively]

/-- In a `class` attribute the pieces of text and the expressions count. -/
theorem AttributeValue.exists_parts_iff :
    (∃ p ∈ v.parts true, p.NamesNatively name) ↔
      (∃ t, v.HasText t ∧ name ∈ Text.words t.data.toList) ∨
        ∃ e, v.HasExpression e ∧ e.node.NamesNatively name := by
  cases v with
  | absent => simp [parts, HasText, HasExpression]
  | expression tag => simp [parts, HasText, HasExpression, MarkupPart.NamesNatively]
  | chunks cs =>
    constructor
    · rintro ⟨p, hp, hnames⟩
      obtain ⟨x, hx, hp⟩ := List.mem_flatMap.1 hp
      cases x with
      | text t =>
        obtain rfl := List.mem_singleton.1 hp
        exact Or.inl ⟨t, ⟨cs, rfl, hx⟩, hnames⟩
      | expression tag =>
        obtain rfl := List.mem_singleton.1 hp
        exact Or.inr ⟨_, ⟨tag, rfl, Or.inr ⟨cs, rfl, hx⟩⟩, hnames.2⟩
    · rintro (⟨t, ⟨cs', heq, ht⟩, hword⟩ | ⟨e, ⟨tag, rfl, hvalue⟩, hnames⟩)
      · obtain rfl := AttributeValue.chunks.inj heq
        exact ⟨.classText t, List.mem_flatMap.2 ⟨_, ht, List.mem_singleton.2 rfl⟩, hword⟩
      · rcases hvalue with heq | ⟨cs', heq, htag⟩
        · cases heq
        · obtain rfl := AttributeValue.chunks.inj heq
          exact ⟨.expression true tag.expression,
            List.mem_flatMap.2 ⟨_, htag, List.mem_singleton.2 rfl⟩, rfl, hnames⟩

/-- The parts of an attribute use natively what the attribute does. -/
theorem AttributeNode.exists_parts_iff {a : AttributeNode} :
    (∃ p ∈ a.parts, p.NamesNatively name) ↔ a.NamesNatively name := by
  constructor
  · rintro ⟨p, hp, hnames⟩
    cases a with
    | plain a =>
      by_cases hclass : a.name = "class"
      · rw [parts, beq_iff_eq.2 hclass] at hp
        rcases AttributeValue.exists_parts_iff.1 ⟨p, hp, hnames⟩ with
          ⟨t, ht, hword⟩ | ⟨e, he, hnames⟩
        · exact .text hclass ht hword
        · exact .expression hclass he hnames
      · rw [parts, beq_eq_false_iff_ne.2 hclass] at hp
        exact absurd hnames (AttributeValue.not_namesNatively_parts hp)
    | spread s =>
      obtain rfl := List.mem_singleton.1 hp
      simp [MarkupPart.NamesNatively] at hnames
    | directive d =>
      rcases List.mem_append.1 hp with hp | hp
      · split at hp
        · rename_i hkind
          obtain rfl := List.mem_singleton.1 hp
          exact .toggle hkind hnames
        · cases hp
      · obtain ⟨tag, _, rfl⟩ := List.mem_map.1 hp
        simp [MarkupPart.NamesNatively] at hnames
  · intro h
    cases h with
    | text hclass ht hword =>
      rw [parts, beq_iff_eq.2 hclass]
      exact AttributeValue.exists_parts_iff.2 (Or.inl ⟨_, ht, hword⟩)
    | expression hclass he hnames =>
      rw [parts, beq_iff_eq.2 hclass]
      exact AttributeValue.exists_parts_iff.2 (Or.inr ⟨_, he, hnames⟩)
    | @toggle d hkind hname =>
      refine ⟨.toggle d.name d.span, List.mem_append_left _ ?_, hname⟩
      simp [hkind]

/-- The parts of a node use natively what the attributes in it do. -/
theorem MarkupNode.exists_parts_iff {n : MarkupNode} :
    (∃ p ∈ n.parts, p.NamesNatively name) ↔ ∃ a, n.Holds a ∧ a.NamesNatively name := by
  induction n using MarkupNode.forall_of_children with
  | element tag attributes children selfClosing span ih =>
    rw [parts, partsOfNodes_eq]
    constructor
    · rintro ⟨p, hp, hnames⟩
      rcases List.mem_append.1 hp with hp | hp
      · obtain ⟨a, ha, hp⟩ := List.mem_flatMap.1 hp
        exact ⟨a, .own ha, AttributeNode.exists_parts_iff.1 ⟨p, hp, hnames⟩⟩
      · obtain ⟨n, hn, hp⟩ := List.mem_flatMap.1 hp
        obtain ⟨a, ha, hnames⟩ := (ih n hn).1 ⟨p, hp, hnames⟩
        exact ⟨a, .inner hn ha, hnames⟩
    · rintro ⟨a, ha, hnames⟩
      cases ha with
      | own ha =>
        obtain ⟨p, hp, hnames⟩ := AttributeNode.exists_parts_iff.2 hnames
        exact ⟨p, List.mem_append_left _ (List.mem_flatMap.2 ⟨a, ha, hp⟩), hnames⟩
      | inner hn ha =>
        obtain ⟨p, hp, hnames⟩ := (ih _ hn).2 ⟨a, ha, hnames⟩
        exact ⟨p, List.mem_append_right _ (List.mem_flatMap.2 ⟨_, hn, hp⟩), hnames⟩
  | text t => exact iff_of_false (by simp [parts]) (by rintro ⟨_, ⟨⟩, _⟩)
  | comment t => exact iff_of_false (by simp [parts]) (by rintro ⟨_, ⟨⟩, _⟩)
  | expression tag =>
    exact iff_of_false (by simp [parts, MarkupPart.NamesNatively]) (by rintro ⟨_, ⟨⟩, _⟩)
  | block tag =>
    exact iff_of_false (by simp [parts, MarkupPart.NamesNatively]) (by rintro ⟨_, ⟨⟩, _⟩)

/-- The parts of a component use natively what its attributes do: scripts do not count. -/
theorem Component.exists_parts_iff {c : Component} :
    (∃ p ∈ c.parts, p.NamesNatively name) ↔ c.UsesNatively name := by
  rw [parts, partsOfNodes_eq]
  constructor
  · rintro ⟨p, hp, hnames⟩
    rcases List.mem_append.1 hp with hp | hp
    · obtain ⟨n, hn, hp⟩ := List.mem_flatMap.1 hp
      exact ⟨n, hn, MarkupNode.exists_parts_iff.1 ⟨p, hp, hnames⟩⟩
    · obtain ⟨script, _, hp⟩ := List.mem_flatMap.1 hp
      obtain ⟨statement, _, rfl⟩ := List.mem_map.1 hp
      simp [MarkupPart.NamesNatively] at hnames
  · rintro ⟨n, hn, huses⟩
    obtain ⟨p, hp, hnames⟩ := MarkupNode.exists_parts_iff.2 huses
    exact ⟨p, List.mem_append_left _ (List.mem_flatMap.2 ⟨n, hn, hp⟩), hnames⟩

end Parts

/-! ### Markup that is alike -/

/-- Expressions are the same but for what rune calls hold. -/
def ExpressionTag.Alike (tag other : ExpressionTag) : Prop :=
  tag.expression.node.Alike other.expression.node

/-- Pieces of values are the same but for what rune calls hold. -/
inductive ValueChunk.Alike : ValueChunk → ValueChunk → Prop
  | text {t t' : TextNode} (h : t.data = t'.data) : Alike (.text t) (.text t')
  | expression {tag tag' : ExpressionTag} (h : tag.Alike tag') :
      Alike (.expression tag) (.expression tag')

/-- Values are the same but for what rune calls hold. -/
inductive AttributeValue.Alike : AttributeValue → AttributeValue → Prop
  | absent : Alike .absent .absent
  | expression {tag tag' : ExpressionTag} (h : tag.Alike tag') :
      Alike (.expression tag) (.expression tag')
  | chunks {cs cs' : List ValueChunk} (h : List.Forall₂ ValueChunk.Alike cs cs') :
      Alike (.chunks cs) (.chunks cs')

/-- Attributes are the same but for what rune calls hold. -/
inductive AttributeNode.Alike : AttributeNode → AttributeNode → Prop
  | plain {a a' : Attribute} (hname : a.name = a'.name) (hvalue : a.value.Alike a'.value) :
      Alike (.plain a) (.plain a')
  | spread {s s' : SpreadAttribute} (h : s.expression.node.Alike s'.expression.node) :
      Alike (.spread s) (.spread s')
  | directive {d d' : Directive} (hkind : d.kind = d'.kind) (hname : d.name = d'.name)
      (hmodifiers : d.modifiers = d'.modifiers)
      (hvalue : Option.Rel ExpressionTag.Alike d.value d'.value) :
      Alike (.directive d) (.directive d')

/-- Nodes of markup are the same but for what rune calls hold, and for where they stand. -/
inductive MarkupNode.Alike : MarkupNode → MarkupNode → Prop
  | element {name : String} {attributes attributes' : List AttributeNode}
      {children children' : List MarkupNode} {selfClosing : Bool} {span span' : Span}
      (hattributes : List.Forall₂ AttributeNode.Alike attributes attributes')
      (hchildren : List.Forall₂ Alike children children') :
      Alike (.element name attributes children selfClosing span)
        (.element name attributes' children' selfClosing span')
  | text {t t' : TextNode} (h : t.data = t'.data) : Alike (.text t) (.text t')
  | comment {t t' : TextNode} (h : t.data = t'.data) : Alike (.comment t) (.comment t')
  | expression {tag tag' : ExpressionTag} (h : tag.Alike tag') :
      Alike (.expression tag) (.expression tag')
  | block {tag tag' : BlockTag} (hkind : tag.kind = tag'.kind)
      (hkeyword : tag.keyword = tag'.keyword)
      (h : Option.Rel (fun e e' : Expression => e.node.Alike e'.node) tag.expression
        tag'.expression) : Alike (.block tag) (.block tag')

section Alike

variable {name : String}

theorem ExpressionTag.Alike.namesNatively_iff {tag tag' : ExpressionTag} (h : tag.Alike tag') :
    (MarkupPart.expression true tag.expression).NamesNatively name ↔
      (MarkupPart.expression true tag'.expression).NamesNatively name := by
  rw [MarkupPart.NamesNatively, MarkupPart.NamesNatively, Script.Node.Alike.namesNatively_iff h]

theorem ValueChunk.Alike.exists_parts_iff {x x' : ValueChunk} (h : x.Alike x') :
    (∃ p ∈ x.parts true, p.NamesNatively name) ↔ ∃ p ∈ x'.parts true, p.NamesNatively name := by
  cases h with
  | text h => simp [parts, MarkupPart.NamesNatively, h]
  | expression h => simp [parts, h.namesNatively_iff]

theorem AttributeValue.Alike.exists_parts_iff {v v' : AttributeValue} (h : v.Alike v') :
    (∃ p ∈ v.parts true, p.NamesNatively name) ↔ ∃ p ∈ v'.parts true, p.NamesNatively name := by
  cases h with
  | absent => exact Iff.rfl
  | expression h => simp [parts, h.namesNatively_iff]
  | chunks h =>
    rw [parts, parts, exists_mem_flatMap_iff, exists_mem_flatMap_iff]
    exact exists_mem_iff_of_forall₂ h fun _ _ _ hx => hx.exists_parts_iff

/-- Alike attributes use the same classes natively. -/
theorem AttributeNode.Alike.namesNatively_iff {a a' : AttributeNode} (h : a.Alike a') :
    a.NamesNatively name ↔ a'.NamesNatively name := by
  cases h with
  | @plain a a' hname hvalue =>
    rw [← exists_parts_iff, ← exists_parts_iff, parts, parts, ← hname]
    cases a.name == "class" with
    | true => exact hvalue.exists_parts_iff
    | false =>
      refine iff_of_false ?_ ?_
      · rintro ⟨p, hp, hnames⟩
        exact AttributeValue.not_namesNatively_parts hp hnames
      · rintro ⟨p, hp, hnames⟩
        exact AttributeValue.not_namesNatively_parts hp hnames
  | spread => exact iff_of_false (by rintro ⟨⟩) (by rintro ⟨⟩)
  | directive hkind hname _ _ =>
    constructor
    · rintro ⟨⟩
      rename_i hclass heq
      exact .toggle (hkind ▸ hclass) (hname ▸ heq)
    · rintro ⟨⟩
      rename_i hclass heq
      exact .toggle (hkind ▸ hclass) (hname ▸ heq)

theorem MarkupNode.exists_holds_element_iff {P : AttributeNode → Prop} {tag : String}
    {attributes : List AttributeNode} {children : List MarkupNode} {selfClosing : Bool}
    {span : Span} :
    (∃ a, (element tag attributes children selfClosing span).Holds a ∧ P a) ↔
      (∃ a ∈ attributes, P a) ∨ ∃ n ∈ children, ∃ a, n.Holds a ∧ P a := by
  constructor
  · rintro ⟨a, ha, hP⟩
    cases ha with
    | own ha => exact Or.inl ⟨a, ha, hP⟩
    | inner hn ha => exact Or.inr ⟨_, hn, a, ha, hP⟩
  · rintro (⟨a, ha, hP⟩ | ⟨n, hn, a, ha, hP⟩)
    · exact ⟨a, .own ha, hP⟩
    · exact ⟨a, .inner hn ha, hP⟩

/-- **Alike nodes use the same classes natively.** -/
theorem MarkupNode.Alike.exists_holds_iff {n n' : MarkupNode} (h : n.Alike n') :
    (∃ a, n.Holds a ∧ a.NamesNatively name) ↔ ∃ a, n'.Holds a ∧ a.NamesNatively name := by
  induction n using MarkupNode.forall_of_children generalizing n' with
  | element tag attributes children selfClosing span ih =>
    cases h with
    | element hattributes hchildren =>
      rw [exists_holds_element_iff, exists_holds_element_iff,
        exists_mem_iff_of_forall₂ hattributes fun _ _ _ ha => ha.namesNatively_iff,
        exists_mem_iff_of_forall₂ hchildren fun n hn _ hnm => ih n hn hnm]
  | _ =>
    -- what is no element holds no attribute
    cases h
    exact iff_of_false (by rintro ⟨_, ⟨⟩, _⟩) (by rintro ⟨_, ⟨⟩, _⟩)

end Alike

/-- **The native uses of a component** whose references are collected are the words of the text of
its `class` attributes, its `class:` directives and, in the expressions of its `class` attributes,
the words of strings and the keys of object literals that have no object literal and no rune call
above them.  In particular they stay the same whatever rune calls hold, and whatever stands in
scripts. -/
theorem natives_of_usage {c : Component} {u : Usage} (h : c.usage = .ok u) :
    (∀ name, u.natives.contains name = true ↔ c.UsesNatively name) ∧
      ∀ (c' : Component) (u' : Usage), c'.usage = .ok u' →
        List.Forall₂ MarkupNode.Alike c.fragment c'.fragment →
        ∀ name, u'.natives.contains name = u.natives.contains name := by
  have hcontains : ∀ {c u}, Component.usage c = .ok u →
      ∀ name, u.natives.contains name = true ↔ c.UsesNatively name := by
    intro c u h name
    obtain ⟨refs, hrefs, rfl⟩ := map_eq_ok_iff.1 h
    rw [Usage.contains_natives_ofReferences, exists_native_referencesOfParts_iff hrefs,
      Component.exists_parts_iff]
  refine ⟨hcontains h, ?_⟩
  intro c' u' h' halike name
  rw [Bool.eq_iff_iff, hcontains h, hcontains h']
  exact (exists_mem_iff_of_forall₂ halike fun _ _ _ hn => hn.exists_holds_iff).symm

/-- The expression `[on ? "a b" : $css(classes), {k: {inner: "v"}}]`. -/
def choosingTree (classes : String) : Script.Node :=
  .mk .array ⟨0, 0⟩
    [.mk .other ⟨0, 0⟩
      [.mk (.identifier "on") ⟨0, 0⟩ [], .mk (.string "a b") ⟨0, 0⟩ [],
        .mk (.call 1) ⟨0, 0⟩
          [.mk (.identifier runeName) ⟨0, 0⟩ [], .mk (.string classes) ⟨0, 0⟩ []]],
      .mk .object ⟨0, 0⟩
        [.mk (.property .pair false) ⟨0, 0⟩
          [.mk (.label "k") ⟨0, 0⟩ [],
            .mk .object ⟨0, 0⟩
              [.mk (.property .pair false) ⟨0, 0⟩
                [.mk (.label "inner") ⟨0, 0⟩ [], .mk (.string "v") ⟨0, 0⟩ []]]]]]

/-- An element with a `class` attribute of text and this expression, and a `class:` directive. -/
def choosingComponent (classes : String) : Component :=
  ⟨"", [.element "p" [.plain ⟨"class", .chunks [.text ⟨"x ", ⟨0, 0⟩⟩,
    .expression ⟨⟨choosingTree classes, 0⟩, ⟨0, 0⟩⟩], ⟨0, 0⟩⟩,
    .directive ⟨.class_, "t", [], none, ⟨0, 0⟩⟩] [] true ⟨0, 0⟩], none, none, none⟩

/-- Its strings and keys count, but for those inside the inner object literal and inside the call,
which may list other classes. -/
theorem natives_of_usage_choosing :
    ∃ u u', (choosingComponent "q").usage = .ok u ∧ (choosingComponent "r v").usage = .ok u' ∧
      (∀ name ∈ ["x", "t", "a", "b", "k"], (choosingComponent "q").UsesNatively name) ∧
      (∀ name ∈ ["q", "inner", "v"], ¬(choosingComponent "q").UsesNatively name) ∧
      ∀ name, u'.natives.contains name = u.natives.contains name := by
  have heval : (choosingComponent "q").usage.toOption.map (fun u =>
      (["x", "t", "a", "b", "k"].all u.natives.contains,
        ["q", "inner", "v"].any u.natives.contains)) = some (true, false) := by decide +kernel
  have heval' : (choosingComponent "r v").usage.toOption.isSome = true := by decide +kernel
  obtain ⟨u, hu, hnames⟩ := Option.map_eq_some_iff.1 heval
  obtain ⟨u', hu'⟩ := Option.isSome_iff_exists.1 heval'
  rw [toOption_eq_some_iff] at hu hu'
  obtain ⟨huses, hsame⟩ := natives_of_usage hu
  obtain ⟨hall, hany⟩ := Prod.mk.inj hnames
  have halike : (choosingTree "q").Alike (choosingTree "r v") := by
    refine .node (.cons (.node (.cons (.node .nil) (.cons (.node .nil) (.cons ?_ .nil))))
      (.cons ?_ .nil))
    · exact .call rfl rfl
    · exact .node (.cons (.node (.cons (.node .nil) (.cons (.node (.cons (.node (.cons (.node .nil)
        (.cons (.node .nil) .nil))) .nil)) .nil))) .nil)
  refine ⟨u, u', hu, hu', ?_, ?_, hsame _ u' hu' ?_⟩
  · intro name hname
    exact (huses name).1 (List.all_eq_true.1 hall name hname)
  · intro name hname huse
    have htrue : ["q", "inner", "v"].any u.natives.contains = true :=
      List.any_eq_true.2 ⟨name, hname, (huses name).2 huse⟩
    rw [hany] at htrue
    cases htrue
  · refine .cons (.element (.cons (.plain rfl (.chunks (.cons (.text rfl) (.cons ?_ .nil))))
      (.cons (.directive rfl rfl rfl .none) .nil)) .nil) .nil
    exact .expression halike

end CssRune
