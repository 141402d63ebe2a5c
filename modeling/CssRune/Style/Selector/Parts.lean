/-
**The simple selectors of a selector.**

A pseudo-class can hold selectors in its argument, so the simple selectors of a selector form a
tree.  They are listed here in source order, a pseudo-class before what its argument holds.
-/

import CssRune.Style.Selector

set_option autoImplicit false

namespace CssRune

mutual

/-- A simple selector and the ones in its argument, if it is entered. -/
def SimpleSelector.parts (enters : String → Bool) : SimpleSelector → List SimpleSelector
  | .named kind name span => [.named kind name span]
  | .nesting span => [.nesting span]
  | .pseudoClass name none span => [.pseudoClass name none span]
  | .pseudoClass name (some args) span =>
    .pseudoClass name (some args) span :: if enters name then args.parts enters else []
termination_by structural s => s

/-- The simple selectors of a list. -/
def ListOf.parts (enters : String → Bool) : ListOf SimpleSelector → List SimpleSelector
  | ⟨children, _⟩ => partsOfComplexes enters children
termination_by structural s => s

/-- The simple selectors of complex selectors. -/
def partsOfComplexes (enters : String → Bool) :
    List (ComplexOf SimpleSelector) → List SimpleSelector
  | [] => []
  | c :: cs => c.parts enters ++ partsOfComplexes enters cs
termination_by structural s => s

/-- The simple selectors of a complex selector. -/
def ComplexOf.parts (enters : String → Bool) : ComplexOf SimpleSelector → List SimpleSelector
  | ⟨children, _⟩ => partsOfRelatives enters children
termination_by structural s => s

/-- The simple selectors of relative selectors. -/
def partsOfRelatives (enters : String → Bool) :
    List (RelativeOf SimpleSelector) → List SimpleSelector
  | [] => []
  | r :: rs => r.parts enters ++ partsOfRelatives enters rs
termination_by structural s => s

/-- The simple selectors of a relative selector. -/
def RelativeOf.parts (enters : String → Bool) : RelativeOf SimpleSelector → List SimpleSelector
  | ⟨_, selectors, _⟩ => partsOfSimples enters selectors
termination_by structural s => s

/-- Simple selectors and the ones in their arguments. -/
def partsOfSimples (enters : String → Bool) : List SimpleSelector → List SimpleSelector
  | [] => []
  | s :: ss => s.parts enters ++ partsOfSimples enters ss
termination_by structural s => s

end

end CssRune
