import RouteDocs.Command.Arguments
import RouteDocs.Document.Json
import RouteDocs.Document.Yaml
import RouteDocs.Files.Access
import RouteDocs.Files.Path
import RouteDocs.Generate
import RouteDocs.Settings.Yaml

/-!
# A run

A run reads the input and writes the document. Whatever fails, fails before the output is touched.

## Main definitions

* `Command.Message`: what a run reports.
* `Command.RunError`: why a run fails, and its causes.
* `Arguments.run`: the run.
* `Command.commandLine`: a run from the command line.
-/

namespace RouteDocs.Command

open Files

/-- The name of a format. -/
def Format.name : Format → String
  | .json => "Json"
  | .yaml => "Yaml"

/-! ## Messages -/

/-- How important a message is. -/
inductive Level where
  | info
  | warn
deriving DecidableEq

/-- What a run reports. -/
inductive Message where
  | inputFile (path : String)
  | outputFile (path : String)
  | outputFormat (format : Format)
  | starting
  | usingConfig (path : String)
  | extracting
  | warning (w : Warning)
  | noRoutes (input : String)
  | serializing (format : Format)
  | wrote (path : String)
  | summary
  | paths (n : Nat)
  | operations (n : Nat)
  | components (n : Nat)
deriving DecidableEq

namespace Message

/-- The importance of a message. -/
def level : Message → Level
  | .warning _ | .noRoutes _ => .warn
  | _ => .info

/-- The wording of a message. -/
def text : Message → String
  | .inputFile path => "Input file: " ++ path
  | .outputFile path => "Output file: " ++ path
  | .outputFormat format => "Output format: " ++ format.name
  | .starting => "Starting OpenAPI document generation..."
  | .usingConfig path => "Using config file: " ++ path
  | .extracting => "Extracting annotated routes..."
  | .warning w => w.message
  | .noRoutes input => "No annotated routes found in " ++ input
  | .serializing format => "Serializing to " ++ format.name ++ " format..."
  | .wrote path => "Successfully wrote API document to " ++ path
  | .summary => "Summary:"
  | .paths n => "  - Paths: " ++ toString n
  | .operations n => "  - Operations: " ++ toString n
  | .components n => "  - Components: " ++ toString n

end Message

/-! ## Failures -/

/-- Why a run fails. -/
inductive RunError where
  | noInput (path : String)
  | config (path : String)
  | unreadable (input : String) (cause : FileError)
  | malformed (input : String) (cause : Signature.Malformed)
  | unwritable (format : Format)
  | directory (path : String) (cause : FileError)
  | output (path : String) (cause : FileError)
deriving DecidableEq

/-- The wording of a failure and of its causes, the last one at the end. -/
def RunError.chain : RunError → List String
  | .noInput path => ["Input file does not exist: " ++ path]
  | .config path => ["invalid configuration " ++ path]
  | .unreadable input cause =>
    ["Failed to generate document from " ++ input, "IO error: " ++ cause.message, cause.message]
  | .malformed input cause => ["Failed to generate document from " ++ input, cause.message]
  | .unwritable format =>
    ["Failed to serialize API document to " ++ format.name.toUpper]
  | .directory path cause => ["Failed to create directory: " ++ path, cause.message]
  | .output path cause => ["Failed to write to file: " ++ path, cause.message]

/-! ## The run -/

/-- A computation that reports messages and may fail. The messages before a failure stay. -/
abbrev Run (m : Type → Type) := ExceptT RunError (StateT (List Message) m)

section

variable {m : Type → Type} [Monad m]

/-- Reports messages. -/
def report (messages : List Message) : Run m Unit := modify (· ++ messages)

/-- An operation on files. -/
def onFiles {α : Type} (x : m α) : Run m α := ExceptT.lift (StateT.lift x)

/-- An operation on files whose failure has a cause. -/
def attempt {α : Type} (wrap : FileError → RunError) (x : m (Except FileError α)) : Run m α := do
  match ← onFiles x with
  | .ok a => return a
  | .error e => throw (wrap e)

/-- The settings of a run: those of the configuration file, if there is one, with the title and the
description of the arguments. -/
def Arguments.settings (a : Arguments) (files : Access m) : Run m Settings := do
  let s : Settings ←
    match a.config with
    | none => pure {}
    | some path => do
      report [.usingConfig path]
      let text ← attempt (fun _ => .config path) (files.readText path)
      match Settings.read? text with
      | some s => pure s
      | none => throw (.config path)
  return s.override a.title a.description

/-- The text of a document in a format. -/
def Format.print? (f : Format) (d : Document) : Option String :=
  match f with
  | .json => some d.printJson
  | .yaml => d.printYaml?

/-- The document of the input. -/
def Arguments.document (a : Arguments) (files : Access m) (s : Settings) : Run m Document := do
  let text ← attempt (.unreadable a.input) (files.readText a.input)
  let g := generate s text
  report (g.log.map .warning)
  match g.result with
  | .ok d => return d
  | .error e => throw (.malformed a.input e)

/-- Puts a text into a file, and makes the directory for it. -/
def writeOutput (files : Access m) (path text : String) : Run m Unit := do
  match parent? path with
  | none | some "" => pure ()
  | some directory => attempt (.directory directory) (files.makeDirectories directory)
  attempt (.output path) (files.write path text)

/-- The run. -/
def Arguments.run (a : Arguments) (files : Access m) : Run m Unit := do
  if !(← onFiles (files.isFile a.input)) then throw (.noInput a.input)
  report [.inputFile a.input, .outputFile a.output, .outputFormat a.format, .starting]
  let s ← a.settings files
  report [.extracting]
  let d ← a.document files s
  if d.paths.size = 0 then report [.noRoutes a.input]
  report [.serializing a.format]
  match a.format.print? d with
  | none => throw (.unwritable a.format)
  | some text => writeOutput files a.output text
  report [.wrote a.output, .summary, .paths d.paths.size, .operations d.operationCount,
    .components d.components.memberCount]

/-- The outcome of a run and its messages. -/
def Arguments.execute (a : Arguments) (files : Access m) :
    m (Except RunError Unit × List Message) :=
  (a.run files).run.run []

/-- Why a command line fails. -/
inductive Failure where
  | usage (e : UsageError)
  | run (e : RunError)
deriving DecidableEq

/-- Reads the arguments of a command line and does the run that they ask for. -/
def commandLine (args : List String) (files : Access m) :
    m (Except Failure Unit × List Message) := do
  match Arguments.parse args with
  | .error e => return (.error (.usage e), [])
  | .ok a =>
    let (outcome, messages) ← a.execute files
    return (outcome.mapError .run, messages)

end

end RouteDocs.Command
