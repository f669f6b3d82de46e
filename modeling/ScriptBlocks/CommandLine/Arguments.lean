import ScriptBlocks.CommandLine.Options

/-!
# The commands of the tool

`build` compiles a source file into a project archive, and `explain` shows the wording of a
diagnostic code. The first word names the command.
-/
namespace ScriptBlocks.CommandLine

inductive Command where
  | build (source : String) (output : Option String) (console : Bool) (sprite : String)
  | explain (code : String)
  deriving DecidableEq, Repr

def buildSpec : CommandSpec :=
  { argument := "INPUT"
    argumentAllowsEmpty := false
    options :=
      [⟨"output", some 'o', .value false⟩, ⟨"console", some 'c', .flag⟩,
       ⟨"sprite", none, .value true⟩] }

def explainSpec : CommandSpec :=
  { argument := "CODE", argumentAllowsEmpty := true, options := [] }

def readBuild (words : List String) : Except UsageError Command := do
  let values ← buildSpec.read words
  .ok (.build ((values.get? "INPUT").getD "") (values.get? "output") (values.contains "console")
    ((values.get? "sprite").getD "Sprite1"))

def readExplain (words : List String) : Except UsageError Command := do
  let values ← explainSpec.read words
  .ok (.explain ((values.get? "CODE").getD ""))

/-- Help on a command, or on all of them. -/
def readHelp : List String → UsageError
  | [] => .helpRequested
  | [name] =>
    if ["build", "compile", "explain", "help"].contains name then .helpRequested
    else .unknownCommand
  | _ => .unknownCommand

/-- The command that a name starts, given the words after it. -/
def command? (name : String) (words : List String) : Option (Except UsageError Command) :=
  if name = "build" ∨ name = "compile" then some (readBuild words)
  else if name = "explain" then some (readExplain words)
  else if name = "help" then some (.error (readHelp words))
  else none

/-- A word in the place of a command that names none. -/
def strayWord (w : String) : UsageError :=
  match w.toList with
  | '-' :: '-' :: rest =>
    let (name, attached) := Reading.splitEquals rest
    if name = "help" then
      if attached.isSome then .unexpectedValue else .helpRequested
    else .unknownArgument
  | '-' :: letter :: _ => if letter = 'h' then .helpRequested else .unknownArgument
  | _ => .unknownCommand

/-- The command of the words after the program name. -/
def Command.ofWords : List String → Except UsageError Command
  | [] => .error .noCommand
  | ["--"] => .error .noCommand
  | "--" :: w :: _ =>
    if (command? w []).isSome then .error .unknownArgument else .error .unknownCommand
  | w :: words =>
    match command? w words with
    | some result => result
    | none => .error (strayWord w)

end ScriptBlocks.CommandLine
