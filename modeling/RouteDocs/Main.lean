import RouteDocs.Command.Run

/-!
# The program

Reads the command line, runs on the files of the machine, and prints the messages.
-/

namespace RouteDocs

open Command Files

/-- The failure that an error of the machine stands for. -/
def fileError : IO.Error → FileError
  | .noFileOrDirectory _ _ _ => .notFound
  | .alreadyExists _ _ _ => .exists
  | .inappropriateType _ 20 _ => .notDirectory
  | .inappropriateType _ 21 _ => .isDirectory
  | e => .other (toString e)

/-- An operation of the machine, with its failure as a value. -/
def caught {α : Type} (x : IO α) : IO (Except FileError α) := do
  match ← x.toBaseIO with
  | .ok a => return .ok a
  | .error e => return .error (fileError e)

/-- The files of the machine. A file need not be readable to be one. -/
def machine : Access IO where
  isFile path := do
    match ← caught (do (← IO.FS.realPath path).metadata) with
    | .ok m => return m.type == .file
    | .error _ => return false
  read path := caught (IO.FS.readBinFile path)
  makeDirectories path := caught (IO.FS.createDirAll path)
  write path text := caught (IO.FS.writeFile path text)

/-- How to call the program. -/
def usage : String :=
  "Usage: routedocs --input <FILE> --output <FILE> [--format json|yaml] [--config <FILE>] " ++
    "[--title <TITLE>] [--description <DESCRIPTION>] [--verbose]"

/-- Prints a message with its level. -/
def printMessage (m : Message) : IO Unit :=
  IO.eprintln ((match m.level with | .info => "INFO " | .warn => "WARN ") ++ m.text)

/-- Prints why there is no run, or the text that was asked for. -/
def printUsage : UsageError → IO UInt32
  | .displayHelp => do
    IO.println usage
    return 0
  | .displayVersion => do
    IO.println "routedocs 0.1.0"
    return 0
  | _ => do
    IO.eprintln usage
    return 2

/-- Prints why a run failed. -/
def printRunError (e : RunError) : IO UInt32 := do
  IO.eprintln ("Error: " ++ "\nCaused by: ".intercalate e.chain)
  return 1

/-- Runs the program. -/
def program (args : List String) : IO UInt32 := do
  let (outcome, messages) ← commandLine args machine
  messages.forM printMessage
  match outcome with
  | .ok () => return 0
  | .error (.usage e) => printUsage e
  | .error (.run e) => printRunError e

end RouteDocs

def main (args : List String) : IO UInt32 := RouteDocs.program args
