import ScriptBlocks.CommandLine.Run

/-!
# The command line tool

Runs a command on real files. All decisions are made by `CommandLine.run`; this module only reads,
writes and prints.
-/
namespace ScriptBlocks.CommandLine

/-- The words of a file error and its number. -/
def describe : IO.Error → FileError
  | .alreadyExists _ code details | .noFileOrDirectory _ code details
  | .inappropriateType _ code details | .permissionDenied _ code details
  | .otherError code details => s!"{details} (os error {code})"
  | error => toString error

def attempt {α : Type} (action : IO α) : IO (Except FileError α) := do
  match ← action.toBaseIO with
  | .ok value => pure (.ok value)
  | .error error => pure (.error (describe error))

def findFile (path : String) : IO (Option String) := do
  match ← attempt (IO.FS.realPath path) with
  | .error _ => pure none
  | .ok found =>
    match ← attempt found.metadata with
    | .ok data => pure (if data.type == .file then some found.toString else none)
    | .error _ => pure none

def readSource (path : String) : IO (Except FileError String) := do
  match ← attempt (IO.FS.readBinFile path) with
  | .error error => pure (.error error)
  | .ok bytes =>
    match String.fromUTF8? bytes with
    | some text => pure (.ok text)
    | none => pure (.error "stream did not contain valid UTF-8")

def saveFile (path : String) (bytes : List UInt8) : IO (Except FileError Unit) :=
  attempt do
    match Path.parent? path with
    | none | some "" => pure ()
    | some folder => IO.FS.createDirAll folder
    IO.FS.writeBinFile path ⟨bytes.toArray⟩

/-- The host of a run on real files. -/
def fileHost : Host IO where
  fullPath? := findFile
  readText := readSource
  writeFile := saveFile
  printLine := IO.println
  logLine := IO.eprintln

end ScriptBlocks.CommandLine

def main (words : List String) : IO UInt32 := do
  let code ← ScriptBlocks.CommandLine.run ScriptBlocks.CommandLine.fileHost words
  pure code.toUInt32
