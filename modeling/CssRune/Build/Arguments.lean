/-
**Command lines.**

A command line is an optional `build` with patterns and options, or a request for the version or for
help.  An option is given at most once; its value follows it, or an equals sign, or directly a short
name.  After two dashes everything is a pattern.
-/

import CssRune.Options

set_option autoImplicit false

namespace CssRune

/-- What a build writes. -/
inductive BuildFormat where
  /-- The preprocessed components. -/
  | code
  /-- A description of each component, and where its text came from. -/
  | json
  /-- Nothing. -/
  | stats
  deriving DecidableEq, Repr

/-- What a build is asked to do.  What is not set is left to the configuration. -/
structure BuildSetting where
  patterns : List String
  output : String
  format : BuildFormat
  hasher : Option HashName
  level : Option WarningLevel
  specific : Bool
  continueOnError : Bool

/-- The build of a command line that says nothing. -/
def BuildSetting.default : BuildSetting :=
  ⟨["./**/*.svelte"], "./dist", .code, none, none, false, false⟩

/-- Options with those of a build in place of them, given the hash of 64 bits. -/
def BuildSetting.options (s : BuildSetting) (sum : Array UInt8 → UInt64) (o : Options) : Options :=
  ⟨(s.hasher.map (·.hasher sum)).getD o.hasher, s.level.getD o.level, s.specific || o.specific⟩

/-- What a command line asks for. -/
inductive Command where
  | version
  | help
  | build (setting : BuildSetting)

/-! ### Options -/

/-- The options that have a value. -/
inductive ValueOption where
  | output
  | format
  | hasher
  | level
  | threads
  deriving DecidableEq, Repr

/-- The options that have none. -/
inductive Switch where
  | verbose
  | specific
  | continueOnError
  deriving DecidableEq, Repr

/-- The option of a build with a long name. -/
def longOption? (name : String) : Option (ValueOption ⊕ Switch) :=
  if name = "output" then some (.inl .output)
  else if name = "format" then some (.inl .format)
  else if name = "hash" then some (.inl .hasher)
  else if name = "mixed-use-warnings" then some (.inl .level)
  else if name = "threads" then some (.inl .threads)
  else if name = "verbose" then some (.inr .verbose)
  else if name = "increase-specificity" then some (.inr .specific)
  else if name = "continue-on-error" then some (.inr .continueOnError)
  else none

/-- The option of a build with a short name. -/
def shortOption? (c : Char) : Option ValueOption :=
  if c = 'o' then some .output
  else if c = 'f' then some .format
  else if c = 'j' then some .threads
  else none

/-- The format with a name. -/
def BuildFormat.ofName? (name : String) : Option BuildFormat :=
  if name = "code" then some .code
  else if name = "json" then some .json
  else if name = "stats" then some .stats
  else none

/-- The warning level that an argument names. -/
def levelArgument? (name : String) : Option WarningLevel :=
  if name = "off" then some .off
  else if name = "use" then some .use
  else if name = "all" then some .all
  else none

/-- Whether an argument is a number of threads: digits, perhaps after a plus sign, for a number of
64 bits. -/
def isThreadCount (text : String) : Bool :=
  let digits := match text.toList with
    | '+' :: cs => cs
    | cs => cs
  !digits.isEmpty && digits.all Char.isDigit &&
    digits.foldl (fun n c => 10 * n + (c.toNat - 48)) 0 < 0x10000000000000000

/-- What has been read of a build: its setting, with patterns only as they were given, and the
options that were used. -/
structure ArgumentState where
  setting : BuildSetting
  values : List ValueOption
  switches : List Switch

namespace ArgumentState

/-- Nothing has been read. -/
def start : ArgumentState := ⟨{ BuildSetting.default with patterns := [] }, [], []⟩

def addPattern (s : ArgumentState) (p : String) : ArgumentState :=
  { s with setting := { s.setting with patterns := s.setting.patterns ++ [p] } }

/-- The setting with the value of an option, if the value is one. -/
def withValue? (s : BuildSetting) (value : String) : ValueOption → Option BuildSetting
  | .output => if value = "" then none else some { s with output := value }
  | .format => (BuildFormat.ofName? value).map fun f => { s with format := f }
  | .hasher => (HashName.ofName? value).map fun h => { s with hasher := some h }
  | .level => (levelArgument? value).map fun l => { s with level := some l }
  | .threads => if isThreadCount value then some s else none

/-- Takes an option with its value. -/
def setValue? (s : ArgumentState) (option : ValueOption) (value : String) : Option ArgumentState :=
  if s.values.contains option then none
  else (withValue? s.setting value option).map fun setting =>
    { s with setting := setting, values := option :: s.values }

/-- Takes a switch. -/
def setSwitch? (s : ArgumentState) (switch : Switch) : Option ArgumentState :=
  if s.switches.contains switch then none
  else
    let setting := match switch with
      | .verbose => s.setting
      | .specific => { s.setting with specific := true }
      | .continueOnError => { s.setting with continueOnError := true }
    some { s with setting := setting, switches := switch :: s.switches }

/-- The setting that was read; without patterns the default ones count. -/
def finish (s : ArgumentState) : BuildSetting :=
  if s.setting.patterns.isEmpty then
    { s.setting with patterns := BuildSetting.default.patterns }
  else s.setting

end ArgumentState

/-! ### Arguments -/

/-- What an argument looks like. -/
inductive ArgumentShape where
  /-- Two dashes. -/
  | rest
  /-- A long name, perhaps with a value after an equals sign. -/
  | long (name : String) (value : Option String)
  /-- A dash and at least one character. -/
  | short (c : Char) (more : List Char)
  /-- Anything else. -/
  | plain
  deriving DecidableEq, Repr

/-- A long name, and the value after the first equals sign. -/
def splitEquals (cs : List Char) : String × Option String :=
  let name := String.ofList (cs.takeWhile (· ≠ '='))
  match cs.dropWhile (· ≠ '=') with
  | [] => (name, none)
  | _ :: value => (name, some (String.ofList value))

/-- What an argument looks like. -/
def ArgumentShape.of (argument : String) : ArgumentShape :=
  match argument.toList with
  | ['-', '-'] => .rest
  | '-' :: '-' :: cs => .long (splitEquals cs).1 (splitEquals cs).2
  | '-' :: c :: cs => .short c cs
  | _ => .plain

/-- The value that directly follows a short name; an equals sign in front of it does not count. -/
def attached : List Char → Option String
  | [] => none
  | '=' :: cs => some (String.ofList cs)
  | cs => some (String.ofList cs)

/-- Takes the value of an option from the next argument, which must not look like an option. -/
def takeValue? (s : ArgumentState) (option : ValueOption) (argument : String) :
    Option ArgumentState :=
  match ArgumentShape.of argument with
  | .plain => s.setValue? option argument
  | _ => none

/-- Reads the arguments of a build; nothing for a command line that is no such build. -/
def readBuild? (s : ArgumentState) : List String → Option Command
  | [] => some (.build s.finish)
  | a :: as =>
    match ArgumentShape.of a with
    | .plain => readBuild? (s.addPattern a) as
    | .rest => some (.build (as.foldl ArgumentState.addPattern s).finish)
    | .long name value =>
      if name = "help" ∧ value = none then some .help
      else
        match longOption? name, value, as with
        | some (.inl option), some v, as => do readBuild? (← s.setValue? option v) as
        | some (.inl option), none, v :: as => do readBuild? (← takeValue? s option v) as
        | some (.inr switch), none, as => do readBuild? (← s.setSwitch? switch) as
        | _, _, _ => none
    | .short c more =>
      if c = 'h' then some .help
      else
        match shortOption? c, attached more, as with
        | some option, some v, as => do readBuild? (← s.setValue? option v) as
        | some option, none, v :: as => do readBuild? (← takeValue? s option v) as
        | _, _, _ => none

/-- Reads a command line; `verbose` tells whether that switch was given. -/
def readCommand? (verbose : Bool) : List String → Option Command
  | [] => some (.build BuildSetting.default)
  | a :: as =>
    match ArgumentShape.of a with
    | .plain =>
      if a = "build" ∨ a = "atelier" then readBuild? ArgumentState.start as
      else if a = "help" then some .help
      else none
    | .rest => if as.isEmpty then some (.build BuildSetting.default) else none
    | .long name value =>
      if value.isSome then none
      else if name = "version" then some .version
      else if name = "help" then some .help
      else if name = "verbose" ∧ !verbose then readCommand? true as
      else none
    | .short c _ =>
      if c = 'V' then some .version
      else if c = 'h' then some .help
      else none

def Command.parse (arguments : List String) : Option Command := readCommand? false arguments

end CssRune
