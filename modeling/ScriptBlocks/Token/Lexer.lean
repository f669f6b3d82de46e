import ScriptBlocks.Text.Class
import ScriptBlocks.Token

/-!
# Reading tokens

At every place the reader looks at one character and at what follows it, and says which token
starts there and how many further characters it covers. Spaces, tabs, carriage returns and byte
order marks between tokens are skipped.
-/
namespace ScriptBlocks.Token

/-- A character that may stand between tokens. -/
def isSkipped (c : Char) : Bool :=
  c = ' ' || c = '\t' || c = '\r' || c = Char.ofNat 0xFEFF

def startsName (c : Char) : Bool :=
  Text.isAlphabetic c || c = '_'

def continuesName (c : Char) : Bool :=
  Text.isAlphanumeric c || c = '_'

def isHexDigit (c : Char) : Bool :=
  c.isDigit || ('a' ≤ c && c ≤ 'f') || ('A' ≤ c && c ≤ 'F')

/-- The characters that may be followed by `=` to form an operator. -/
def isOperatorStart (c : Char) : Bool :=
  ['+', '-', '*', '/', '%', '=', '!', '<', '>'].contains c

/-- The kind of a character that is a token by itself. -/
def punctuation? (c : Char) : Option TokenKind :=
  if c = '(' then some .leftParen
  else if c = ')' then some .rightParen
  else if c = '\x7b' then some .leftBrace
  else if c = '\x7d' then some .rightBrace
  else if c = ',' then some .comma
  else if c = '@' then some .at
  else if c = ';' then some .semicolon
  else if c = '\n' then some .newline
  else none

/-- A token that starts with the character at hand: its kind and text, and how many of the
characters after that one it covers. -/
structure Reading where
  kind : TokenKind
  text : List Char
  covered : Nat
  deriving DecidableEq, Repr

/-- Why no token starts here, and how many of the following characters were looked through. -/
structure Failure where
  cause : LexCause
  covered : Nat
  deriving DecidableEq, Repr

/-- The character that a backslash and `c` stand for. -/
def unescape (c : Char) : Char :=
  if c = 'n' then '\n' else if c = 'r' then '\r' else if c = 't' then '\t' else c

/-- The value of a string up to its closing quote and the number of characters read, which stops
at a newline or at the end when there is no such quote. -/
def readQuoted : List Char → Except Nat (List Char × Nat)
  | [] => .error 0
  | ['\\'] => .error 1
  | '\\' :: c :: rest =>
    match readQuoted rest with
    | .ok (value, covered) => .ok (unescape c :: value, covered + 2)
    | .error covered => .error (covered + 2)
  | c :: rest =>
    if c = '"' then .ok ([], 1)
    else if c = '\n' then .error 1
    else
      match readQuoted rest with
      | .ok (value, covered) => .ok (c :: value, covered + 1)
      | .error covered => .error (covered + 1)

/-- The contents of a block comment before the first `*/`, if there is one. -/
def readBlockComment? : List Char → Option (List Char)
  | [] => none
  | '*' :: '/' :: _ => some []
  | c :: rest => (readBlockComment? rest).map (c :: ·)

/-- The digits of a number that starts with `c`, after which at most one point is followed by
further digits. -/
def readNumberTail (c : Char) (rest : List Char) : List Char :=
  let whole := rest.takeWhile Char.isDigit
  if c = '.' then whole
  else
    match rest.dropWhile Char.isDigit with
    | '.' :: d :: more =>
      if d.isDigit then whole ++ '.' :: (d :: more).takeWhile Char.isDigit else whole
    | _ => whole

def readName (c : Char) (rest : List Char) : Reading :=
  let tail := rest.takeWhile continuesName
  let kind := if keywords.contains (String.ofList (c :: tail)) then .keyword else .identifier
  ⟨kind, c :: tail, tail.length⟩

def readColor (rest : List Char) : Except Failure Reading :=
  let tail := rest.takeWhile isHexDigit
  if tail.length = 6 then .ok ⟨.color, '#' :: tail.map Char.toLower, 6⟩
  else .error ⟨.invalidColor (String.ofList ('#' :: tail)), tail.length⟩

def readString (rest : List Char) : Except Failure Reading :=
  match readQuoted rest with
  | .ok (value, covered) => .ok ⟨.string, value, covered⟩
  | .error covered => .error ⟨.unterminatedString, covered⟩

/-- An operator of one character, or of two when the second is `=`. -/
def readOperator (c : Char) (rest : List Char) : Reading :=
  match rest with
  | '=' :: _ => ⟨.operator, [c, '='], 1⟩
  | _ => ⟨.operator, [c], 0⟩

/-- An operator that is a character written twice. -/
def readDoubled (c : Char) (rest : List Char) : Except Failure Reading :=
  if rest.head? = some c then .ok ⟨.operator, [c, c], 1⟩ else .error ⟨.loneOperator c, 0⟩

/-- The comment that a slash and these characters form, if they form one. -/
def readComment? : List Char → Option (Except Failure Reading)
  | '/' :: rest =>
    let contents := rest.takeWhile (· ≠ '\n')
    some (.ok ⟨.comment, Text.trim contents, contents.length + 1⟩)
  | '*' :: rest =>
    match readBlockComment? rest with
    | some contents => some (.ok ⟨.comment, Text.trim contents, contents.length + 3⟩)
    | none => some (.error ⟨.unterminatedComment, rest.length + 1⟩)
  | _ => none

/-- The token that starts with `c`, given what follows. -/
def read (c : Char) (rest : List Char) : Except Failure Reading :=
  match if c = '/' then readComment? rest else none with
  | some comment => comment
  | none =>
    if c = '"' then readString rest
    else if c = '#' then readColor rest
    else if c.isDigit || (c = '.' && (rest.head?.map Char.isDigit).getD false) then
      let tail := readNumberTail c rest
      .ok ⟨.number, c :: tail, tail.length⟩
    else if startsName c then .ok (readName c rest)
    else if isOperatorStart c then .ok (readOperator c rest)
    else if c = '&' || c = '|' then readDoubled c rest
    else
      match punctuation? c with
      | some kind => .ok ⟨kind, [c], 0⟩
      | none => .error ⟨.unexpectedCharacter c, 0⟩

/-- The tokens of the characters from a place on, the end of the text being the last one. -/
def scan (p : Position) : List Char → Except LexError (List Token)
  | [] => .ok [⟨.endOfFile, "", p.span 1⟩]
  | c :: rest =>
    if isSkipped c then scan (p.next c) rest
    else
      match read c rest with
      | .error failure => .error ⟨failure.cause, p.span (failure.covered + 1)⟩
      | .ok reading =>
        let token := ⟨reading.kind, String.ofList reading.text, p.span (reading.covered + 1)⟩
        let stop := (p.next c).after (rest.take reading.covered)
        (scan stop (rest.drop reading.covered)).map (token :: ·)
termination_by cs => cs.length
decreasing_by
  · simp
  · simp only [List.length_cons, List.length_drop]; omega

/-- The tokens of a source text. -/
def ofSource (source : String) : Except LexError (List Token) :=
  scan Position.start source.toList

end ScriptBlocks.Token
