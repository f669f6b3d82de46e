import ScriptBlocks.Span

/-!
# Tokens

A token is a kind, a text and the range it covers. The text of a string is its value without
quotes and escapes, that of a comment its trimmed contents, and that of a color is in lower case.
-/
namespace ScriptBlocks

inductive TokenKind where
  | keyword
  | identifier
  | number
  | string
  | color
  | operator
  | leftParen
  | rightParen
  | leftBrace
  | rightBrace
  | comma
  | at
  | semicolon
  | newline
  | comment
  | endOfFile
  deriving DecidableEq, Repr

structure Token where
  kind : TokenKind
  text : String
  span : Span
  deriving DecidableEq, Repr

/-- The words that cannot be names. -/
def keywords : List String :=
  ["let", "function", "return", "if", "else", "true", "false"]

namespace Token

def isKeyword (t : Token) (word : String) : Bool :=
  t.kind == .keyword && t.text == word

/-- Newlines and semicolons separate statements. -/
def isSeparator (t : Token) : Bool :=
  t.kind == .newline || t.kind == .semicolon

end Token

/-- Why a source text has no tokens. -/
inductive LexCause where
  | unexpectedCharacter (c : Char)
  | loneOperator (c : Char)
  | invalidColor (text : String)
  | unterminatedString
  | unterminatedComment
  deriving DecidableEq, Repr

structure LexError where
  cause : LexCause
  span : Span
  deriving DecidableEq, Repr

end ScriptBlocks
