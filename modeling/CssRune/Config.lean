/-
**Configuration.**

Options and configurations are read from JSON.  Either is an object whose members are read by name,
or an array whose items are read by position; what is missing has its default, a known name occurs
at most once, and unknown names are skipped.
-/

import CssRune.Host
import CssRune.Options

set_option autoImplicit false

namespace CssRune

namespace Json

/-- The value of a member that occurs at most once. -/
def member? (members : List (String × Json)) (name : String) : Option (Option Json) :=
  match members.filter (·.1 == name) with
  | [] => some none
  | [m] => some (some m.2)
  | _ => none

/-- The values of named fields, in the order of the names. -/
def fields? (names : List String) : Json → Option (List (Option Json))
  | object members => names.mapM (member? members)
  | array items =>
    if items.length ≤ names.length then
      some (items.map some ++ List.replicate (names.length - items.length) none)
    else none
  | _ => none

/-- The value of a field, or its default. -/
def fieldOr {α : Type} (default : α) (read : Json → Option α) : Option Json → Option α
  | none => some default
  | some j => read j

def bool? : Json → Option Bool
  | bool value => some value
  | _ => none

/-- A text, or null for none. -/
def stringOrNull? : Json → Option (Option String)
  | null => some none
  | string value => some (some value)
  | _ => none

end Json

/-! ### Options -/

/-- A hash function: its name, or an object of its name and null. -/
def HashName.ofJson? : Json → Option HashName
  | .string name => ofName? name
  | .object [(name, .null)] => ofName? name
  | _ => none

/-- The name of a hasher; a function of the caller's has none. -/
def Hasher.toJson : Hasher → Json
  | djb2 => .string "djb2"
  | xxh3 _ => .string "xxh3"
  | custom _ => .null

/-- A warning level: a truth value or a name. -/
def WarningLevel.ofJson? : Json → Option WarningLevel
  | .bool false => some .off
  | .bool true => some .all
  | .string name => (WarningLevel.ofName name).toOption
  | _ => none

/-- A warning level as JSON: a truth value for the lowest and the highest. -/
def WarningLevel.toJson : WarningLevel → Json
  | off => .bool false
  | use => .string "use"
  | all => .bool true

/-- The names of the options. -/
def Options.fieldNames : List String := ["hash", "mixedUseWarnings", "increaseSpecificity"]

/-- The options that a JSON value gives. -/
def Options.ofJson? (host : Host) (j : Json) : Option Options := do
  let [hash, level, specific] ← j.fields? Options.fieldNames | none
  let hasher ← Json.fieldOr Options.default.hasher
    (fun j => (HashName.ofJson? j).map (·.hasher host.sum64)) hash
  let level ← Json.fieldOr Options.default.level WarningLevel.ofJson? level
  let specific ← Json.fieldOr Options.default.specific Json.bool? specific
  return ⟨hasher, level, specific⟩

/-- Options as JSON. -/
def Options.toJson (o : Options) : Json :=
  .object [("hash", o.hasher.toJson), ("mixedUseWarnings", o.level.toJson),
    ("increaseSpecificity", .bool o.specific)]

def Options.read? (host : Host) (text : String) : Option Options :=
  (host.readJson text).bind (Options.ofJson? host)

/-! ### Configurations -/

def configFile : String := "sigil.config.json"

structure Config where
  /-- Where editors find a description of the file. -/
  schema : Option String
  options : Options

namespace Config

def default : Config := ⟨none, Options.default⟩

/-- The configuration that a JSON value gives. -/
def ofJson? (host : Host) (j : Json) : Option Config := do
  let [schema, options] ← j.fields? ["$schema", "preprocess"] | none
  let schema ← Json.fieldOr none Json.stringOrNull? schema
  let options ← Json.fieldOr Options.default (Options.ofJson? host) options
  return ⟨schema, options⟩

def toJson (c : Config) : Json :=
  .object (c.schema.toList.map (fun s => ("$schema", .string s)) ++
    [("preprocess", c.options.toJson)])

/-- The configuration of a file with the given content, the default one if there is no file or it
cannot be read. -/
def load (host : Host) (content : Option String) : Config :=
  ((content.bind host.readJson).bind (ofJson? host)).getD default

end Config

end CssRune
