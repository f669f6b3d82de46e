import ScriptBlocks.Program.Parser
import ScriptBlocks.Text.Quoted
import ScriptBlocks.Token.Lexer

/-!
# Errors in source texts

A source text that is no program has an error either in its characters or in its tokens. This
module reads programs from texts and holds the wording of both kinds of error.
-/
namespace ScriptBlocks

def LexCause.message : LexCause → String
  | .unexpectedCharacter c => "Unexpected character " ++ Text.quotedChar c
  | .loneOperator c => "Expected '" ++ String.ofList [c, c] ++ "'"
  | .invalidColor text => "Invalid color literal '" ++ text ++ "', expected #rrggbb"
  | .unterminatedString => "Unterminated string literal"
  | .unterminatedComment => "Unterminated block comment"

def ParseCause.message : ParseCause → String
  | .unexpectedToken text => "Unexpected token '" ++ text ++ "'"
  | .unexpectedKeyword word => "Unexpected keyword '" ++ word ++ "'"
  | .unexpectedAfterStatement text => "Unexpected '" ++ text ++ "' after statement"
  | .missingDirectiveName => "Expected attribute name after '@'"
  | .missingVariableName => "Expected variable name after 'let'"
  | .missingEquals => "Expected '=' after variable name"
  | .wrongEquals found => "Expected '=', found '" ++ found ++ "'"
  | .missingAssignment name => "Expected assignment after '" ++ name ++ "'"
  | .missingFunctionName => "Expected function name"
  | .missingParameters => "Expected '(' after function name"
  | .missingParameterName => "Expected argument name"
  | .unclosedParameters => "Expected ')' after arguments"
  | .missingBlock => "Expected '\x7b'"
  | .unclosedBlock => "Expected '\x7d' before end of file"
  | .invalidNumber text => "Invalid number literal '" ++ text ++ "'"
  | .missingExpression found =>
    "Expected expression, found '" ++ String.ofList (Text.shownText found.toList) ++ "'"
  | .endBeforeExpression => "Expected expression before end of file"
  | .unclosedParenthesis => "Expected ')'"
  | .missingArguments => "Expected '('"
  | .unclosedArguments => "Expected ')' after call arguments"

/-- Why a text is no program. -/
inductive SourceError where
  | lex (error : LexError)
  | parse (error : ParseError)
  deriving DecidableEq, Repr

namespace SourceError

def message : SourceError → String
  | .lex error => error.cause.message
  | .parse error => error.cause.message

def span : SourceError → Span
  | .lex error => error.span
  | .parse error => error.span

/-- The message with its place. -/
def display (error : SourceError) : String :=
  s!"{error.message} (line {error.span.line}, column {error.span.column})"

end SourceError

/-- The program that a text holds. -/
def Program.ofSource (source : String) : Except SourceError Program :=
  match Token.ofSource source with
  | .error error => .error (.lex error)
  | .ok tokens =>
    match Program.ofTokens tokens with
    | .error error => .error (.parse error)
    | .ok program => .ok program

end ScriptBlocks
