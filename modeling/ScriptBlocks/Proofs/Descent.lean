import ScriptBlocks.Program.Parser

/-!
# Reading by descent

The grammar read from the top down: every part of a program has a reader, which calls the readers of
its own parts and moves an index along the token list. What must not happen to the index is made a
fault that stops the reading: leaving the list, reading a part without moving on, falling back behind
a conditional that is complete, and loops or nestings that take more turns than tokens are left.
-/
namespace ScriptBlocks

inductive Fault where
  /-- There is no token at an index. -/
  | outOfRange
  /-- A part has been read, and the index is where it was. -/
  | standstill
  /-- The index is back behind the end of a conditional. -/
  | setBack
  /-- A loop takes more turns than there were tokens left. -/
  | endlessLoop
  /-- More parts are open than there were tokens left. -/
  | tooDeep
  deriving DecidableEq, Repr

/-- How reading a part ends: with a value and the index after it, at a token that cannot stand
there, or with a fault. -/
inductive Outcome (α : Type) where
  | read (value : α) (index : Nat)
  | refused (error : ParseError)
  | failed (fault : Fault)

/-- What has been read, or where the tokens are refused. A fault is no answer. -/
def Outcome.answer? {α : Type} : Outcome α → Option (Except ParseError α)
  | .read value _ => some (.ok value)
  | .refused error => some (.error error)
  | .failed _ => none

/-- A reader of tokens from an index on. -/
def Descent (α : Type) : Type :=
  List Token → Nat → Outcome α

namespace Descent

variable {α β : Type}

instance : Monad Descent where
  pure a := fun _ i => .read a i
  bind m f := fun tokens i =>
    match m tokens i with
    | .read a j => f a tokens j
    | .refused error => .refused error
    | .failed fault => .failed fault

theorem bind_apply (m : Descent α) (f : α → Descent β) (tokens : List Token) (i : Nat) :
    (m >>= f) tokens i =
      match m tokens i with
      | .read a j => f a tokens j
      | .refused error => .refused error
      | .failed fault => .failed fault := rfl

def index : Descent Nat :=
  fun _ i => .read i i

def goTo (i : Nat) : Descent Unit :=
  fun tokens _ => if i < tokens.length then .read () i else .failed .outOfRange

def fail (fault : Fault) : Descent α :=
  fun _ _ => .failed fault

def refuse (cause : ParseCause) (t : Token) : Descent α :=
  fun _ _ => .refused ⟨cause, t.span⟩

def tokenAt (i : Nat) : Descent Token :=
  fun tokens j =>
    match tokens[i]? with
    | some t => .read t j
    | none => .failed .outOfRange

def current : Descent Token := do
  tokenAt (← index)

def peek : Descent Token := do
  tokenAt ((← index) + 1)

def previous : Descent Token := do
  tokenAt ((← index) - 1)

/-- Moves on by one token, and never past the last one. -/
def moveOn : Descent Unit :=
  fun tokens i => .read () (min (i + 1) (tokens.length - 1))

/-- Takes the current token. -/
def advance : Descent Token := do
  let t ← current
  moveOn
  pure t

def consume (kind : TokenKind) (cause : ParseCause) : Descent Token := do
  let t ← current
  if t.kind = kind then advance else refuse cause t

/-- Checks that the index has moved on. -/
def advancing (m : Descent α) : Descent α := do
  let start ← index
  let a ← m
  if (← index) ≤ start then fail .standstill else pure a

/-- At most the given number of turns, up to the one that gives a result. -/
def turns (turn : α → Descent (α ⊕ β)) : Nat → α → Descent β
  | 0, _ => fail .endlessLoop
  | n + 1, a => do
    match ← turn a with
    | .inl a => turns turn n a
    | .inr b => pure b

/-- Turns up to the one that gives a result, at most as many as tokens are left. -/
def loop (turn : α → Descent (α ⊕ β)) (a : α) : Descent β :=
  fun tokens i => turns turn (tokens.length - i) a tokens i

def skipTurn (skipped : Token → Bool) (_ : Unit) : Descent (Unit ⊕ Unit) := do
  if skipped (← current) then
    let _ ← advance
    pure (.inl ())
  else pure (.inr ())

def skipNewlines : Descent Unit :=
  loop (skipTurn (·.kind = .newline)) ()

def skipSeparators : Descent Unit :=
  loop (skipTurn Token.isSeparator) ()

def itemTurn (item : Descent α) (before : List α) : Descent (List α ⊕ List α) := do
  skipNewlines
  let x ← item
  skipNewlines
  if (← current).kind = .comma then
    let _ ← advance
    pure (.inl (x :: before))
  else pure (.inr (x :: before).reverse)

/-- Items with commas between them. -/
def items (item : Descent α) : Descent (List α) := do
  if (← current).kind = .rightParen then pure [] else loop (itemTurn item) []

/-- Items up to the bracket that closes their list, and its place. -/
def listed (item : Descent α) (unclosed : ParseCause) : Descent (List α × Span) := do
  skipNewlines
  let xs ← items item
  let close ← consume .rightParen unclosed
  pure (xs, close.span)

/-- The end of a statement. -/
def terminator : Descent Unit := do
  let t ← current
  match t.kind with
  | .newline | .semicolon =>
    let _ ← advance
    pure ()
  | .rightBrace | .comment | .endOfFile => pure ()
  | _ => refuse (.unexpectedAfterStatement t.text) t

structure Conditional where
  condition : Expr
  body : List Statement
  otherwise : Alternative
  span : Span

/-- The readers of parts that stand inside other parts. -/
structure Parts where
  statement : Descent Statement
  conditional : Descent Conditional
  expression : Nat → Descent Expr
  unary : Descent Expr

section

variable (p : Parts)

def arguments : Descent (List Expr × Span) :=
  advancing do
    let _ ← consume .leftParen .missingArguments
    listed (p.expression 1) .unclosedArguments

def named (cause : ParseCause) : Descent Named := do
  let t ← consume .identifier cause
  pure ⟨t.text, t.span⟩

def primary : Descent Expr := do
  let t ← current
  let literal (value : Literal) : Descent Expr := do
    let _ ← advance
    pure (.literal value t.span)
  match t.kind with
  | .number =>
    let _ ← advance
    match readNumber? t.text with
    | some value => pure (.literal (.number value) t.span)
    | none => refuse (.invalidNumber t.text) t
  | .string => literal (.text t.text)
  | .color => literal (.color t.text)
  | .keyword =>
    if t.text = "true" then literal (.boolean true)
    else if t.text = "false" then literal (.boolean false)
    else refuse (.missingExpression t.text) t
  | .identifier =>
    let _ ← advance
    if (← current).kind = .leftParen then
      let (es, stop) ← arguments p
      pure (.call t.text es (t.span.through stop))
    else pure (.name t.text t.span)
  | .leftParen =>
    let _ ← advance
    skipNewlines
    let inner ← p.expression 1
    skipNewlines
    let close ← consume .rightParen .unclosedParenthesis
    pure (.paren inner (t.span.through close.span))
  | .endOfFile => refuse .endBeforeExpression t
  | _ => refuse (.missingExpression t.text) t

def unary : Descent Expr := do
  let t ← current
  match if t.kind = .operator then UnaryOp.ofSymbol? t.text else none with
  | some op =>
    let _ ← advance
    let operand ← p.unary
    pure (.unary op t.span operand (t.span.through operand.span))
  | none => primary p

def binaryTurn (least : Nat) (left : Expr) : Descent (Expr ⊕ Expr) := do
  let t ← current
  match if t.kind = .operator then BinaryOp.ofSymbol? t.text else none with
  | some op =>
    if op.precedence < least then pure (.inr left)
    else
      let _ ← advance
      let right ← p.expression (op.precedence + 1)
      pure (.inl (.binary op t.span left right (left.span.through right.span)))
  | none => pure (.inr left)

/-- An expression whose operators outside brackets bind at least this tightly. -/
def expression (least : Nat) : Descent Expr :=
  advancing do
    let left ← unary p
    loop (binaryTurn p least) left

def blockTurn (before : List Statement) : Descent (List Statement ⊕ List Statement) := do
  skipSeparators
  let t ← current
  if t.kind = .rightBrace then
    let _ ← advance
    pure (.inr before.reverse)
  else if t.kind = .endOfFile then refuse .unclosedBlock t
  else
    let s ← p.statement
    terminator
    pure (.inl (s :: before))

def block : Descent (List Statement) :=
  advancing do
    let _ ← consume .leftBrace .missingBlock
    loop (blockTurn p) []

/-- What follows the first branch of a conditional. Newlines before an `else` are passed over, and
without one they are given back. -/
def alternative : Descent Alternative := do
  let checkpoint ← index
  skipNewlines
  if (← current).isKeyword "else" then
    let _ ← advance
    if (← current).isKeyword "if" then
      let c ← p.conditional
      pure (.branch c.condition c.body c.otherwise c.span)
    else
      let body ← block p
      pure (.block body)
  else
    goTo checkpoint
    pure .none

def conditional : Descent Conditional := do
  let start ← advance
  let condition ← expression p 1
  let body ← block p
  let complete ← index
  let otherwise ← alternative p
  if (← index) < complete then fail .setBack
  else
    let stop ← previous
    pure ⟨condition, body, otherwise, start.span.through stop.span⟩

def declaration : Descent Statement := do
  let start ← advance
  let target ← named .missingVariableName
  let sign ← consume .operator .missingEquals
  if sign.text = "=" then
    let value ← expression p 1
    pure (.declare target value (start.span.through value.span))
  else refuse (.wrongEquals sign.text) sign

def assignment : Descent Statement := do
  let name ← advance
  let sign ← current
  match if sign.kind = .operator then assignment? sign.text else none with
  | some op =>
    let _ ← advance
    let value ← expression p 1
    pure (.assign ⟨name.text, name.span⟩ op sign.span value (name.span.through value.span))
  | none => refuse (.missingAssignment name.text) sign

def function : Descent Statement := do
  let start ← advance
  let name ← named .missingFunctionName
  let _ ← consume .leftParen .missingParameters
  let (parameters, _) ← listed (named .missingParameterName) .unclosedParameters
  let body ← block p
  let stop ← previous
  pure (.function name parameters body (start.span.through stop.span))

def statement : Descent Statement :=
  advancing do
    let t ← current
    match t.kind with
    | .comment =>
      let _ ← advance
      pure (.comment t.text t.span)
    | .at =>
      let _ ← advance
      let name ← named .missingDirectiveName
      pure (.directive name (t.span.through name.span))
    | .keyword =>
      if t.text = "let" then declaration p
      else if t.text = "function" then function p
      else if t.text = "return" then
        let _ ← advance
        let value ← expression p 1
        pure (.yield value (t.span.through value.span))
      else if t.text = "if" then
        let c ← conditional p
        pure (.branch c.condition c.body c.otherwise c.span)
      else refuse (.unexpectedKeyword t.text) t
    | .identifier =>
      if (← peek).kind = .leftParen then
        let _ ← advance
        let (es, stop) ← arguments p
        pure (.call t.text es (t.span.through stop))
      else assignment p
    | _ => refuse (.unexpectedToken t.text) t

def programTurn (before : List Statement) : Descent (List Statement ⊕ List Statement) := do
  skipSeparators
  if (← current).kind = .endOfFile then pure (.inr before.reverse)
  else
    let s ← p.statement
    terminator
    pure (.inl (s :: before))

end

/-- The readers of parts that are nested at most this deeply. -/
def parts : Nat → Parts
  | 0 => ⟨fail .tooDeep, fail .tooDeep, fun _ => fail .tooDeep, fail .tooDeep⟩
  | depth + 1 =>
    let p := parts depth
    ⟨statement p, conditional p, expression p, unary p⟩

def program (depth : Nat) : Descent Program := do
  let first ← current
  let statements ← loop (programTurn (parts depth)) []
  let stop ← current
  pure ⟨statements, first.span.through stop.span⟩

end Descent

/-- The list as it is read: one that does not end with an end of file gets one at its last place. -/
def withEnd (tokens : List Token) : List Token :=
  if tokens.getLast?.map Token.kind = some .endOfFile then tokens
  else tokens ++ [⟨.endOfFile, "", (tokens.getLast?.map Token.span).getD .empty⟩]

end ScriptBlocks
