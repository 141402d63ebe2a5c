/-
**Hashers: the choice of a hash function.**

The hash of 64 bits over the bytes of a text is an argument here: nothing depends on its value.
-/

import CssRune.Hash.Djb2

set_option autoImplicit false

namespace CssRune

namespace Hash

def hex (value : UInt64) : String :=
  String.ofList (Text.padded 16 (Text.inBase 16 value.toNat))

/-- The 64 bits that a function gives for the bytes of a text, in 16 hexadecimal digits. -/
def hexSum (sum : Array UInt8 → UInt64) (text : String) : String := hex (sum text.toByteArray.data)

end Hash

/-- A hash function for class names. -/
inductive Hasher where
  /-- The rolling multiply hash, in base 36. -/
  | djb2
  /-- The hash of 64 bits, in hexadecimal digits. -/
  | xxh3 (sum : Array UInt8 → UInt64)
  /-- A function of the caller's.  Configuration files cannot name one. -/
  | custom (run : String → String)

namespace Hasher

def hash : Hasher → String → String
  | djb2, text => Hash.djb2 text
  | xxh3 sum, text => Hash.hexSum sum text
  | custom run, text => run text

/-- How a hasher is shown. -/
def label : Hasher → String
  | djb2 => "Djb2"
  | xxh3 _ => "Xxh3"
  | custom _ => "Custom(..)"

end Hasher

instance : Inhabited Hasher := ⟨.djb2⟩

/-! ### Names -/

/-- The hash functions that have a name. -/
inductive HashName where
  | djb2
  | xxh3
  deriving DecidableEq, Repr

namespace HashName

def ofName? (name : String) : Option HashName :=
  if name = "djb2" then some .djb2 else if name = "xxh3" then some .xxh3 else none

/-- The hasher with a name, given the hash of 64 bits. -/
def hasher (sum : Array UInt8 → UInt64) : HashName → Hasher
  | djb2 => .djb2
  | xxh3 => .xxh3 sum

end HashName

end CssRune
