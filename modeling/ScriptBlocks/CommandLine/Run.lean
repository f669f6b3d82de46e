import ScriptBlocks.Archive
import ScriptBlocks.CommandLine.Arguments
import ScriptBlocks.CommandLine.Path
import ScriptBlocks.Compile.Statement
import ScriptBlocks.Diagnostic.Report
import ScriptBlocks.Project.Json

/-!
# Running a command

A command reads and writes files and prints lines through a host, so that the same run can be made
on real files or on a tree of files held in memory.
-/
namespace ScriptBlocks.CommandLine

/-- What went wrong with a file, in words. -/
abbrev FileError := String

/-- The files and output channels that a run uses. -/
structure Host (m : Type → Type) where
  /-- The full path of a regular file. -/
  fullPath? : String → m (Option String)
  readText : String → m (Except FileError String)
  /-- Writes a file, and makes the folders above it. -/
  writeFile : String → List UInt8 → m (Except FileError Unit)
  printLine : String → m Unit
  logLine : String → m Unit

/-- Why a run fails. -/
inductive Failure where
  | unknownCode (code : String)
  | sourceNotFound (path : String)
  | file (error : FileError)
  | refused (refusal : Project.Refusal)
  deriving DecidableEq, Repr

def Failure.message : Failure → String
  | .unknownCode code => s!"Unknown diagnostic code '{code}'."
  | .sourceNotFound path => s!"Input file not found: '{path}'."
  | .file error => error
  | .refused refusal => refusal.message

/-- A bar of fourteen cells for step `step` of four. -/
def progressBar (step : Nat) : String :=
  let filled := (step * 14 + 2) / 4
  "[" ++ "".pushn '=' filled ++ "".pushn '-' (14 - filled) ++ "]"

def progressLine (step : Nat) (label : String) : String :=
  s!"[Compile] {label}... ({step}/4) {progressBar step}"

variable {m : Type → Type} [Monad m]

def logLines (host : Host m) : List String → m Unit
  | [] => pure ()
  | line :: lines => do
    host.logLine line
    logLines host lines

/-- Compiles a source text and logs what there is to say about it. -/
def compileLogged (host : Host m) (path source sprite : String) (console : Bool) : m Project := do
  let project := compile source sprite
  if console then
    logLines host (project.journal.map fun event => "[DEBUG] " ++ event.message)
  for d in project.diagnostics do
    logLines host (d.reportLines (.coloured d.severity) (Path.shown path) source)
  pure project

def build (host : Host m) (source : String) (output : Option String) (console : Bool)
    (sprite : String) : m (Except Failure Unit) := do
  host.logLine (progressLine 1 "Resolving input path")
  match ← host.fullPath? source with
  | none => pure (.error (.sourceNotFound source))
  | some path =>
    host.logLine (progressLine 2 "Reading source")
    match ← host.readText path with
    | .error error => pure (.error (.file error))
    | .ok text =>
      host.logLine (progressLine 3 "Lexing, parsing, and compiling")
      let project ← compileLogged host path text sprite console
      match project.package with
      | .error refusal => pure (.error (.refused refusal))
      | .ok files =>
        let output := output.getD (Path.withArchiveEnding path)
        host.logLine (progressLine 4 "Building .sb3")
        match ← host.writeFile output (Archive.bytes files) with
        | .error error => pure (.error (.file error))
        | .ok () =>
          if console then host.logLine s!"[INFO] wrote '{Path.shown output}'"
          pure (.ok ())

def explain (host : Host m) (code : String) : m (Except Failure Unit) :=
  match explain? code with
  | some text => do
    host.printLine text
    pure (.ok ())
  | none => pure (.error (.unknownCode code))

/-- Runs a command, which is given by the words after the program name. The result is the exit
code. -/
def run (host : Host m) (words : List String) : m Nat := do
  match Command.ofWords words with
  | .error error =>
    host.logLine error.message
    pure (if error = .helpRequested then 0 else 2)
  | .ok command =>
    let result ← match command with
      | .build source output console sprite => build host source output console sprite
      | .explain code => explain host code
    match result with
    | .ok () => pure 0
    | .error failure =>
      host.logLine ("Error: " ++ failure.message)
      pure 1

end ScriptBlocks.CommandLine
