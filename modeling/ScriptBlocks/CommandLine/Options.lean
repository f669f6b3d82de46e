import ScriptBlocks.Table

/-!
# Options of a command

A command takes one positional argument and named options. An option is written in full or by one
letter, letters can be run together, and a value is attached or follows as a word of its own. After
`--` every word is positional. An option is complete only when the next one starts or the words
end, which decides which of two faults is reported.
-/
namespace ScriptBlocks.CommandLine

/-- Why a command line cannot be understood. -/
inductive UsageError where
  /-- No command is given. -/
  | noCommand
  | unknownCommand
  | missingArgument
  | unknownArgument
  /-- A value is missing, or empty where it must not be. -/
  | missingValue
  | repeatedOption
  /-- A value is attached to an option that takes none. -/
  | unexpectedValue
  | helpRequested
  deriving DecidableEq, Repr

/-- One line that says what is wrong, or how the tool is called. -/
def UsageError.message : UsageError → String
  | .noCommand => "error: a command is needed: build or explain"
  | .unknownCommand => "error: there is no such command"
  | .missingArgument => "error: an argument is missing"
  | .unknownArgument => "error: unexpected argument"
  | .missingValue => "error: an option or argument needs a value"
  | .repeatedOption => "error: an option is given twice"
  | .unexpectedValue => "error: a value is given to an option that takes none"
  | .helpRequested => "usage: build INPUT [-o OUTPUT] [-c] [--sprite NAME], or explain CODE"

inductive OptionKind where
  | flag
  | value (allowsEmpty : Bool)
  | help
  deriving DecidableEq, Repr

structure OptionSpec where
  name : String
  letter : Option Char
  kind : OptionKind
  deriving DecidableEq, Repr

def helpOption : OptionSpec :=
  ⟨"help", some 'h', .help⟩

/-- A command: its positional argument, and its options besides the one for help. -/
structure CommandSpec where
  argument : String
  argumentAllowsEmpty : Bool
  options : List OptionSpec
  deriving DecidableEq, Repr

namespace CommandSpec

def allOptions (spec : CommandSpec) : List OptionSpec :=
  spec.options ++ [helpOption]

def named? (spec : CommandSpec) (name : String) : Option OptionSpec :=
  spec.allOptions.find? (fun option => option.name == name)

def lettered? (spec : CommandSpec) (letter : Char) : Option OptionSpec :=
  spec.allOptions.find? (fun option => option.letter == some letter)

end CommandSpec

/-- Something that has been started: its name, whether its value may be empty, and its value once
there is one. -/
structure Open where
  name : String
  allowsEmpty : Bool
  value : Option String
  deriving DecidableEq, Repr

/-- What has been read of a command's words. -/
structure Reading where
  /-- The values by option or argument; a flag has the empty value. -/
  values : Table String := .empty
  pending : Option Open := none
  /-- Whether the next word is the value of the pending option. -/
  awaiting : Bool := false
  /-- Whether all further words are positional. -/
  trailing : Bool := false
  /-- Whether the positional argument has been given. -/
  argumentGiven : Bool := false

namespace Reading

/-- Records a value. -/
def record (r : Reading) (name : String) (allowsEmpty : Bool) (value : String) :
    Except UsageError Reading :=
  if r.values.contains name then .error .repeatedOption
  else if value = "" && !allowsEmpty then .error .missingValue
  else .ok { r with values := r.values.insert name value }

/-- Completes what was started last. -/
def settle (r : Reading) : Except UsageError Reading :=
  match r.pending with
  | none => .ok r
  | some ⟨_, _, none⟩ => .error .missingValue
  | some ⟨name, allowsEmpty, some value⟩ =>
    record { r with pending := none } name allowsEmpty value

/-- Starts an option whose value is attached to it, if it is given. -/
def startValue (r : Reading) (name : String) (allowsEmpty : Bool) (attached : Option String) :
    Except UsageError Reading := do
  let r ← r.settle
  match attached with
  | some value => record { r with awaiting := false } name allowsEmpty value
  | none => .ok { r with pending := some ⟨name, allowsEmpty, none⟩, awaiting := true }

def setFlag (r : Reading) (name : String) : Except UsageError Reading := do
  let r ← r.settle
  record { r with awaiting := false } name true ""

def askHelp (r : Reading) : Except UsageError Reading := do
  let _ ← r.settle
  .error .helpRequested

/-- A word `--name` or `--name=value`. -/
def longOption (spec : CommandSpec) (r : Reading) (name : String) (attached : Option String) :
    Except UsageError Reading :=
  match spec.named? name with
  | none => .error .unknownArgument
  | some option =>
    match option.kind, attached with
    | .value allowsEmpty, attached => r.startValue option.name allowsEmpty attached
    | .flag, none => r.setFlag option.name
    | .help, none => r.askHelp
    | _, some _ => .error .unexpectedValue

/-- The letters after a single dash. The rest of the word is the value of a letter that takes one,
without an equals sign in front. -/
def letters (spec : CommandSpec) (r : Reading) : List Char → Except UsageError Reading
  | [] => .ok r
  | letter :: rest =>
    match spec.lettered? letter with
    | none => .error .unknownArgument
    | some option =>
      match option.kind with
      | .flag => do
        let r ← r.setFlag option.name
        letters spec r rest
      | .help => r.askHelp
      | .value allowsEmpty =>
        let attached :=
          match rest with
          | [] => none
          | '=' :: value => some (String.ofList value)
          | value => some (String.ofList value)
        r.startValue option.name allowsEmpty attached

def positional (spec : CommandSpec) (r : Reading) (word : String) : Except UsageError Reading :=
  if r.argumentGiven then .error .unknownArgument
  else do
    let r ← r.settle
    .ok { r with
      pending := some ⟨spec.argument, spec.argumentAllowsEmpty, some word⟩
      awaiting := false
      argumentGiven := true }

/-- The name and the attached value of a long option. -/
def splitEquals (cs : List Char) : String × Option String :=
  let name := String.ofList (cs.takeWhile (· ≠ '='))
  match cs.dropWhile (· ≠ '=') with
  | [] => (name, none)
  | _ :: value => (name, some (String.ofList value))

def word (spec : CommandSpec) (r : Reading) (w : String) : Except UsageError Reading :=
  if r.trailing then r.positional spec w
  else
    match w.toList with
    | ['-', '-'] => .ok { r with trailing := true }
    | '-' :: '-' :: rest =>
      let (name, attached) := splitEquals rest
      r.longOption spec name attached
    | '-' :: letter :: rest => r.letters spec (letter :: rest)
    | _ =>
      match r.awaiting, r.pending with
      | true, some started =>
        .ok { r with pending := some { started with value := some w }, awaiting := false }
      | _, _ => r.positional spec w

def words (spec : CommandSpec) (r : Reading) : List String → Except UsageError Reading
  | [] => .ok r
  | w :: rest => do
    let r ← r.word spec w
    words spec r rest

end Reading

/-- The values that the words of a command give. -/
def CommandSpec.read (spec : CommandSpec) (words : List String) :
    Except UsageError (Table String) := do
  let r ← Reading.words spec {} words
  let r ← r.settle
  if r.values.contains spec.argument then .ok r.values else .error .missingArgument

end ScriptBlocks.CommandLine
