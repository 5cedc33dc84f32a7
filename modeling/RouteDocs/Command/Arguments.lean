/-!
# Command line arguments

An option takes a value: behind it, behind an equals sign, or, after its letter, directly. Letters
of flags and a last option may share a hyphen. A value is checked when the next option or flag is
met, or at the end; arguments that are not understood at all are a failure before that.

## Main definitions

* `Command.Format`, `Command.Arguments`: what a run is asked to do.
* `Command.UsageError`: why arguments are not accepted, or a text that they ask for.
* `Arguments.parse`: reads the arguments.
-/

namespace RouteDocs.Command

/-- The formats of a document. -/
inductive Format where
  | json
  | yaml
deriving DecidableEq

/-- What a run is asked to do. -/
structure Arguments where
  input : String
  output : String
  format : Format
  config : Option String
  title : Option String
  description : Option String
  verbose : Bool
deriving DecidableEq

/-- Why there is no run: the arguments are not accepted, or they ask for a text. -/
inductive UsageError where
  | missingRequiredArgument
  | unknownArgument
  | invalidValue
  | argumentConflict
  | tooManyValues
  | displayHelp
  | displayVersion
deriving DecidableEq

/-- The options, which take a value. -/
inductive Opt where
  | input
  | output
  | format
  | config
  | title
  | description
deriving DecidableEq

/-- The flags, which take none. -/
inductive Flag where
  | verbose
  | help
  | version
deriving DecidableEq

/-- What a name or a letter stands for. -/
abbrev Switch := Opt ⊕ Flag

/-- The switch with a name. -/
def Switch.ofName? (name : String) : Option Switch :=
  match name with
  | "input" => some (.inl .input)
  | "output" => some (.inl .output)
  | "format" => some (.inl .format)
  | "config" => some (.inl .config)
  | "title" => some (.inl .title)
  | "description" => some (.inl .description)
  | "verbose" => some (.inr .verbose)
  | "help" => some (.inr .help)
  | "version" => some (.inr .version)
  | _ => none

/-- The switch with a letter. -/
def Switch.ofLetter? : Char → Option Switch
  | 'i' => some (.inl .input)
  | 'o' => some (.inl .output)
  | 'f' => some (.inl .format)
  | 'c' => some (.inl .config)
  | 'v' => some (.inr .verbose)
  | 'h' => some (.inr .help)
  | 'V' => some (.inr .version)
  | _ => none

/-- What the arguments have set so far. -/
structure Given where
  input : Option String := none
  output : Option String := none
  format : Option Format := none
  config : Option String := none
  title : Option String := none
  description : Option String := none
  verbose : Bool := false

namespace Given

/-- An option has a value. -/
def has (g : Given) : Opt → Bool
  | .input => g.input.isSome
  | .output => g.output.isSome
  | .format => g.format.isSome
  | .config => g.config.isSome
  | .title => g.title.isSome
  | .description => g.description.isSome

/-- A path must not be empty. -/
def path (value : String) : Except UsageError String :=
  if value.isEmpty then .error .invalidValue else .ok value

/-- A format is given by its name. -/
def formatOf : String → Except UsageError Format
  | "json" => .ok .json
  | "yaml" => .ok .yaml
  | _ => .error .invalidValue

/-- Gives an option a value. It must not have one, and the value has to be of its kind. -/
def set (g : Given) (o : Opt) (value : String) : Except UsageError Given :=
  if g.has o then .error .argumentConflict
  else
    match o with
    | .input => (path value).map fun v => { g with input := some v }
    | .output => (path value).map fun v => { g with output := some v }
    | .format => (formatOf value).map fun v => { g with format := some v }
    | .config => (path value).map fun v => { g with config := some v }
    | .title => .ok { g with title := some value }
    | .description => .ok { g with description := some value }

/-- Raises a flag. -/
def raise (g : Given) : Flag → Except UsageError Given
  | .verbose => if g.verbose then .error .argumentConflict else .ok { g with verbose := true }
  | .help => .error .displayHelp
  | .version => .error .displayVersion

end Given

/-- The state between two arguments. -/
structure Parsing where
  given : Given := {}
  /-- An option that was met, with the argument behind it, if that was met too. -/
  pending : Option (Opt × Option String) := none
  /-- Options are not looked for any more. -/
  trailing : Bool := false

namespace Parsing

/-- Gives the pending option its value. -/
def settle (s : Parsing) : Except UsageError Parsing :=
  match s.pending with
  | none => .ok s
  | some (_, none) => .error .invalidValue
  | some (o, some value) => do return { s with given := ← s.given.set o value, pending := none }

/-- An option with its value, or with a value still to come. -/
def option (s : Parsing) (o : Opt) (value : Option String) : Except UsageError Parsing := do
  let s ← s.settle
  match value with
  | some v => return { s with given := ← s.given.set o v }
  | none => return { s with pending := some (o, none) }

/-- A flag. -/
def flag (s : Parsing) (f : Flag) : Except UsageError Parsing := do
  let s ← s.settle
  return { s with given := ← s.given.raise f }

/-- An argument with two hyphens: a name, and perhaps a value behind an equals sign. -/
def long (s : Parsing) (text : List Char) : Except UsageError Parsing :=
  let name := text.takeWhile (· ≠ '=')
  let value :=
    match text.dropWhile (· ≠ '=') with
    | [] => none
    | _ :: v => some (String.ofList v)
  match Switch.ofName? (String.ofList name), value with
  | none, _ => .error .unknownArgument
  | some (.inl o), value => s.option o value
  | some (.inr _), some _ => .error .tooManyValues
  | some (.inr f), none => s.flag f

/-- The letters after one hyphen. What follows the letter of an option is its value, and an equals
sign in front of that is dropped. -/
def letters (s : Parsing) : List Char → Except UsageError Parsing
  | [] => .ok s
  | c :: cs =>
    match Switch.ofLetter? c with
    | none => .error .unknownArgument
    | some (.inl o) =>
      match cs with
      | [] => s.option o none
      | '=' :: v => s.option o (some (String.ofList v))
      | v => s.option o (some (String.ofList v))
    | some (.inr f) => do letters (← s.flag f) cs

/-- An argument that is no option: the value of the option in front of it, if that waits for one. -/
def value (s : Parsing) (text : String) : Except UsageError Parsing :=
  match s.pending with
  | some (o, none) => .ok { s with pending := some (o, some text) }
  | _ => .error .unknownArgument

/-- One argument. -/
def argument (s : Parsing) (text : String) : Except UsageError Parsing :=
  if s.trailing then .error .unknownArgument
  else
    match text.toList with
    | ['-', '-'] => .ok { s with trailing := true }
    | '-' :: '-' :: cs => s.long cs
    | '-' :: c :: cs => s.letters (c :: cs)
    | _ => s.value text

/-- What has to be given, and the defaults. -/
def finish (s : Parsing) : Except UsageError Arguments := do
  let g := (← s.settle).given
  match g.input, g.output with
  | some input, some output =>
    return {
      input := input, output := output, format := g.format.getD .json, config := g.config
      title := g.title, description := g.description, verbose := g.verbose }
  | _, _ => .error .missingRequiredArgument

end Parsing

/-- Reads the arguments. -/
def Arguments.parse (args : List String) : Except UsageError Arguments := do
  (← args.foldlM Parsing.argument {}).finish

end RouteDocs.Command
