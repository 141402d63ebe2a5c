/-
**What can be wrong with the use of a rune.**
-/

import CssRune.Span

set_option autoImplicit false

namespace CssRune

def runeName : String := "$css"

/-- The class added to rune classes when their specificity is increased. -/
def sentinelClass : String := "__css_rune"

/-- The classes that runes may not name when their specificity is increased. -/
def reservedClasses : List String := [sentinelClass, "__css_rune_specific"]

/-- The highest number of mixed classes of a selector that is expanded. -/
def maxMixedTargets : Nat := 12

/-- How a component refers to a selector. -/
inductive Placement where
  /-- Named by no rune.  Ids, types and attributes are always native. -/
  | native
  /-- Named by a rune only. -/
  | rune
  /-- Named by a rune and used natively. -/
  | mixed
  deriving DecidableEq, Repr

/-- Whether a rune names the selector. -/
def Placement.isRune (p : Placement) : Bool := p != .native

/-- What is wrong with the use of a rune. -/
inductive RuneFault where
  /-- A call without exactly one argument, or with one that is no literal. -/
  | argumentCount
  /-- A call with a literal that is no string. -/
  | argumentType
  /-- A call names a class that no selector defines. -/
  | undefinedClass (name : String)
  /-- A call names a reserved class. -/
  | reservedClass (name : String)
  /-- A selector stands where it cannot be escaped. -/
  | misplaced (name : String) (placement : Placement)
  /-- A selector has too many mixed classes to be expanded. -/
  | tooManyMixed (count : Nat)
  deriving DecidableEq, Repr

/-- The families of faults. -/
inductive RuneErrorKind where
  | invalidCall
  | undefinedClass
  | invalidPlacement
  | reservedClass
  deriving DecidableEq, Repr

namespace RuneFault

/-- The family of a fault. -/
def kind : RuneFault → RuneErrorKind
  | argumentCount | argumentType => .invalidCall
  | undefinedClass _ => .undefinedClass
  | reservedClass _ => .reservedClass
  | misplaced _ _ | tooManyMixed _ => .invalidPlacement

/-- The headline of a fault. -/
def message : RuneFault → String
  | argumentCount | argumentType | undefinedClass _ | reservedClass _ => "Invalid $css call"
  | misplaced _ _ =>
    "Invalid class placement. Svelte only allows global classes at the beginning or end of a "
      ++ "selector list."
  | tooManyMixed _ => "Too many mixed selectors"

/-- The explanation of a placement fault. -/
def placementDetail (name : String) : Placement → String
  | .mixed =>
    s!"The class \"{name}\" is used with the $css rune"
      ++ " and natively. It can only be used the first or last selector.\n"
      ++ s!"Consider using the $css rune for all references to this class \"{name}\"."
  | .rune =>
    s!"The class \"{name}\" is used with the $css rune"
      ++ ". Other selectors in this rule are used natively or mixed. Classes that are used with "
      ++ "the $css rune must be in the beginning or end of the selector.\n"
      ++ ".rune .rune .native .native .rune // OK\n"
      ++ ".rune .native .rune .native .rune // NOT OK"
  | .native => ""

/-- The caption of a fault. -/
def detail : RuneFault → String
  | argumentCount => "$css must have exactly one argument"
  | argumentType => "$css argument must be a string"
  | undefinedClass name => s!"class {name} is not defined"
  | reservedClass name => s!"class {name} is reserved when increaseSpecificity is enabled"
  | misplaced name placement =>
    "Contains a selector that is used by runes and is not in the beginning or end of the "
      ++ "selector list. \n\n"
      ++ placementDetail name placement ++ "\n"
  | tooManyMixed count =>
    s!"The selector uses {count} classes with and without the $css rune, "
      ++ s!"at most {maxMixedTargets} are supported."

end RuneFault

/-- A fault at a range of the source. -/
structure RuneError where
  fault : RuneFault
  span : Span
  deriving DecidableEq, Repr

def RuneError.kind (e : RuneError) : RuneErrorKind := e.fault.kind

end CssRune
