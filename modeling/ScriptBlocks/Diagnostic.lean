import ScriptBlocks.Literal
import ScriptBlocks.Span

/-!
# Diagnostics

Everything that can be reported about a program has a code; the catalog gives each code its
wording. Codes that start with `W` are warnings, all others errors.
-/
namespace ScriptBlocks

/-- What can be wrong with a program. -/
inductive Problem where
  | divisionByZero
  | missingOperand
  | variableRedeclared (name : String)
  | lateDirective
  | untypedVariable (name : String)
  | undefinedVariable (name : String)
  | wrongAssignment (found expected : String)
  | unknownName (name : String)
  | malformedSource (message : String)
  | typeMismatch (expected found : String)
  | functionNamedLikeVariable (name : String)
  | functionRedefined (name : String)
  | argumentNamedLikeFunction
  | argumentNamedLikeVariable
  | nestedFunction
  | strayReturn
  | untypedResult (function : String)
  | untypedArgument (argument function : String)
  | unknownDirective (name : String)
  | undefinedFunction (name : String)
  | wrongArgumentCount (function : String) (expected given : Nat)
  | argumentRepeated (name : String)
  | errorsIgnored
  | variableNamedLikeFunction (name : String)
  deriving DecidableEq, Repr

namespace Problem

def code : Problem → String
  | .divisionByZero => "W1"
  | .missingOperand => "E2"
  | .variableRedeclared _ => "E3"
  | .lateDirective => "E4"
  | .untypedVariable _ => "W5"
  | .undefinedVariable _ => "E7"
  | .wrongAssignment _ _ => "E8"
  | .unknownName _ => "E9"
  | .malformedSource _ => "E10"
  | .typeMismatch _ _ => "E11"
  | .functionNamedLikeVariable _ => "E12"
  | .functionRedefined _ => "E13"
  | .argumentNamedLikeFunction => "E14"
  | .argumentNamedLikeVariable => "E15"
  | .nestedFunction => "E16"
  | .strayReturn => "E17"
  | .untypedResult _ => "W18"
  | .untypedArgument _ _ => "W19"
  | .unknownDirective _ => "E20"
  | .undefinedFunction _ => "E21"
  | .wrongArgumentCount _ _ _ => "E22"
  | .argumentRepeated _ => "E23"
  | .errorsIgnored => "W24"
  | .variableNamedLikeFunction _ => "E25"

/-- The texts that the wording refers to, by number. -/
def arguments : Problem → List String
  | .variableRedeclared name => [name]
  | .untypedVariable name => [name]
  | .undefinedVariable name => [name]
  | .wrongAssignment found expected => [found, expected]
  | .unknownName name => [name]
  | .malformedSource message => [message]
  | .typeMismatch expected found => [expected, found]
  | .functionNamedLikeVariable name => [name]
  | .functionRedefined name => [name]
  | .untypedResult function => [function]
  | .untypedArgument argument function => [argument, function]
  | .unknownDirective name => [name]
  | .undefinedFunction name => [name]
  | .wrongArgumentCount function expected given =>
    [function, toString expected, toString given]
  | .argumentRepeated name => [name]
  | .variableNamedLikeFunction name => [name]
  | _ => []

end Problem

/-- The wording of a code. A number in braces stands for an argument. -/
structure CatalogEntry where
  code : String
  message : String
  note : Option String := none
  deriving DecidableEq, Repr

def catalog : List CatalogEntry :=
  [{ code := "W1", message := "Division by zero is not recommended." },
   { code := "E2", message := "ICE: compiler failed to parse an expression." },
   { code := "E3", message := "Variable \"\x7b0\x7d\" was already defined."
     note := some "Did you mean to assign a value?" },
   { code := "E4", message := "Attributes must be defined at the beginning of the file." },
   { code := "W5", message := "Could not infer the type of variable \"\x7b0\x7d\"."
     note := some "Defaulting to string." },
   { code := "E7", message := "Variable \"\x7b0\x7d\" is not defined." },
   { code := "E8"
     message :=
      "Cannot assign a value of type \"\x7b0\x7d\" to a variable of type \"\x7b1\x7d\"." },
   { code := "E9", message := "Unexpected identifier \"\x7b0\x7d\"." },
   { code := "E10", message := "Syntax error: \x7b0\x7d" },
   { code := "E11", message := "Type mismatch: expected \"\x7b0\x7d\", received \"\x7b1\x7d\"." },
   { code := "E12"
     message := "Cannot define function with name \"\x7b0\x7d\"; a variable with such name " ++
      "already exists." },
   { code := "E13", message := "Function with name \"\x7b0\x7d\" is already defined." },
   { code := "E14", message := "Argument names cannot match the function name." },
   { code := "E15", message := "Argument names cannot match already defined variables." },
   { code := "E16", message := "Functions must be defined as top-level statements." },
   { code := "E17", message := "Cannot return in a non-function context." },
   { code := "W18", message := "Could not infer the return type of function \"\x7b0\x7d\"."
     note := some "Defaulting to string." },
   { code := "W19"
     message := "Could not infer the type of argument \"\x7b0\x7d\" of function \"\x7b1\x7d\"."
     note := some "Defaulting to string." },
   { code := "E20", message := "Unknown attribute \"\x7b0\x7d\"."
     note := some "Known attributes: stage, ignore_errors." },
   { code := "E21", message := "Function \"\x7b0\x7d\" is not defined." },
   { code := "E22"
     message := "Function \"\x7b0\x7d\" takes \x7b1\x7d argument(s), but \x7b2\x7d were given." },
   { code := "E23", message := "Argument \"\x7b0\x7d\" is declared more than once." },
   { code := "W24", message := "Errors are ignored for this file."
     note := some "The project is packaged even if compilation fails." },
   { code := "E25"
     message := "Cannot define variable with name \"\x7b0\x7d\"; a function with such name " ++
      "already exists." }]

def catalogued? (code : String) : Option CatalogEntry :=
  catalog.find? (fun entry => entry.code == code)

/-- Writes `value` for every occurrence of `pattern`, from left to right. -/
def replaceAll (pattern value : List Char) : List Char → List Char
  | [] => []
  | c :: cs =>
    if pattern.isPrefixOf (c :: cs) then
      value ++ replaceAll pattern value (cs.drop (pattern.length - 1))
    else c :: replaceAll pattern value cs
termination_by cs => cs.length
decreasing_by
  · simp only [List.length_cons, List.length_drop]; omega
  · simp

/-- What stands for an argument in a wording. -/
def placeholder (index : Nat) : List Char :=
  '\x7b' :: (Nat.toDigits 10 index ++ ['\x7d'])

/-- The wording with its arguments, which are put in one after the other. -/
def renderTemplate (template : String) (arguments : List String) : String :=
  String.ofList <| arguments.zipIdx.foldl
    (fun text argument => replaceAll (placeholder argument.2) argument.1.toList text)
    template.toList

inductive Severity where
  | error
  | warning
  deriving DecidableEq, Repr

def Severity.name : Severity → String
  | .error => "error"
  | .warning => "warning"

def severityOf (code : String) : Severity :=
  if code.toList.head? = some 'W' then .warning else .error

structure Diagnostic where
  code : String
  message : String
  span : Option Span
  note : Option String
  /-- The texts that it was reported with. -/
  arguments : List String
  deriving DecidableEq, Repr

namespace Diagnostic

/-- A report with a code and the texts for its wording. A code that is not in the catalog is
followed by those texts. -/
def ofCode (code : String) (arguments : List String) (span : Option Span) : Diagnostic :=
  match catalogued? code with
  | some entry =>
    ⟨code, renderTemplate entry.message arguments, span,
      entry.note.map fun note => renderTemplate note arguments, arguments⟩
  | none => ⟨code, code ++ " " ++ " ".intercalate arguments, span, none, arguments⟩

def ofProblem (problem : Problem) (span : Option Span) : Diagnostic :=
  ofCode problem.code problem.arguments span

def severity (d : Diagnostic) : Severity :=
  severityOf d.code

def isError (d : Diagnostic) : Bool :=
  d.severity = .error

/-- A diagnostic on one line. -/
def display (d : Diagnostic) : String :=
  let head := d.severity.name ++ "[" ++ d.code ++ "]"
  match d.span with
  | some span => s!"{head} at line {span.line}, column {span.column}: {d.message}"
  | none => s!"{head}: {d.message}"

end Diagnostic

/-- The wording of a code, in either case of its letters and between blanks. -/
def explain? (code : String) : Option String :=
  let code := String.ofList ((Text.trim code.toList).map Char.toUpper)
  (catalogued? code).map fun entry =>
    let note := (entry.note.map fun note => "\nnote: " ++ note).getD ""
    entry.code ++ " (" ++ (severityOf code).name ++ "): " ++ entry.message ++ note

end ScriptBlocks
