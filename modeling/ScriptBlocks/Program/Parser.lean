import ScriptBlocks.Program
import ScriptBlocks.Token

/-!
# Reading programs

A program is read one token at a time. What has been opened and not yet closed is kept in the
state: the blocks around the current place, the brackets and operators around the current operand,
and the conditionals that may still get an `else`. A token that no state accepts is therefore the
first one that cannot continue any program, and the error is placed there.
-/
namespace ScriptBlocks

/-- What a token list lacks, or has too much of, at some token. -/
inductive ParseCause where
  | unexpectedToken (text : String)
  | unexpectedKeyword (word : String)
  | unexpectedAfterStatement (text : String)
  | missingDirectiveName
  | missingVariableName
  | missingEquals
  | wrongEquals (found : String)
  | missingAssignment (name : String)
  | missingFunctionName
  | missingParameters
  | missingParameterName
  | unclosedParameters
  | missingBlock
  | unclosedBlock
  | invalidNumber (text : String)
  | missingExpression (found : String)
  | endBeforeExpression
  | unclosedParenthesis
  | missingArguments
  | unclosedArguments
  deriving DecidableEq, Repr

structure ParseError where
  cause : ParseCause
  span : Span
  deriving DecidableEq, Repr

namespace Parser

/-- A conditional whose first branch has been read. -/
structure OpenBranch where
  start : Span
  condition : Expr
  body : List Statement

/-- What an open block belongs to. The conditionals of a chain have the current one as their
alternative, the nearest one first. -/
inductive Owner where
  | function (start : Span) (name : Named) (parameters : List Named)
  | firstBranch (start : Span) (condition : Expr) (chain : List OpenBranch)
  | lastBranch (branch : OpenBranch) (chain : List OpenBranch)

/-- The statements read so far, latest first: those of the innermost block, and for each open
block its owner and the statements before it. -/
structure Body where
  statements : List Statement
  outer : List (Owner × List Statement)

/-- What becomes of the expression being read. -/
inductive Goal where
  | declare (start : Span) (target : Named)
  | assign (target : Named) (op : Option ArithmeticOp) (opSpan : Span)
  | yield (start : Span)
  | condition (start : Span) (chain : List OpenBranch)
  | argument (function : Named) (before : List Expr)

/-- An operator that waits for its right operand. -/
structure OpenBinary where
  left : Expr
  op : BinaryOp
  opSpan : Span

/-- Signs that wait for their operand, the nearest first. -/
abbrev Signs := List (UnaryOp × Span)

inductive BracketKind where
  | paren (start : Span)
  | argument (function : Named) (before : List Expr)

/-- An open bracket, with the operators that wait for what it encloses. -/
structure Bracket where
  kind : BracketKind
  signs : Signs
  binaries : List OpenBinary

/-- What surrounds the operand being read: the open brackets, the nearest first, and the goal of
the whole expression. -/
structure Context where
  brackets : List Bracket
  goal : Goal

/-- What the next token is taken for. -/
inductive Mode where
  | statement
  | ended
  | directiveName (start : Span)
  | declaredName (start : Span)
  | declaredEquals (start : Span) (target : Named)
  | functionName (start : Span)
  | parameters (start : Span) (name : Named)
  | firstParameter (start : Span) (name : Named)
  | nextParameter (start : Span) (name : Named) (before : List Named)
  | afterParameter (start : Span) (name : Named) (before : List Named)
  | block (owner : Owner)
  | afterName (name : Named)
  | afterBranch (branch : OpenBranch) (chain : List OpenBranch) (stop : Span) (newline : Bool)
  | alternative (branch : OpenBranch) (chain : List OpenBranch)
  | firstArgument (context : Context)
  | operand (signs : Signs) (binaries : List OpenBinary) (context : Context) (newlines : Bool)
  | operandName (signs : Signs) (binaries : List OpenBinary) (context : Context) (name : Named)
  | operated (binaries : List OpenBinary) (context : Context) (value : Expr)
  | closing (context : Context) (value : Expr)

structure State where
  body : Body
  mode : Mode

def State.start : State :=
  ⟨⟨[], []⟩, .statement⟩

def Body.push (body : Body) (statement : Statement) : Body :=
  { body with statements := statement :: body.statements }

/-- Opens a block inside the current one. -/
def Body.enter (body : Body) (owner : Owner) : Body :=
  ⟨[], (owner, body.statements) :: body.outer⟩

/-- The conditional of a chain of `else if`, given what its last one has as alternative. -/
def closeBranches (branch : OpenBranch) (chain : List OpenBranch) (otherwise : Alternative)
    (stop : Span) : Statement :=
  match chain with
  | [] => .branch branch.condition branch.body otherwise (branch.start.through stop)
  | outer :: chain =>
    closeBranches outer chain
      (.branch branch.condition branch.body otherwise (branch.start.through stop)) stop

/-- Closes the innermost block at a brace. -/
def closeBlock (owner : Owner) (body : List Statement) (around : Body) (stop : Span) : State :=
  match owner with
  | .function start name parameters =>
    ⟨around.push (.function name parameters body (start.through stop)), .ended⟩
  | .firstBranch start condition chain =>
    ⟨around, .afterBranch ⟨start, condition, body⟩ chain stop false⟩
  | .lastBranch branch chain =>
    ⟨around.push (closeBranches branch chain (.block body) stop), .ended⟩

def keywordStatement (body : Body) (t : Token) : Except ParseCause State :=
  if t.text = "let" then .ok ⟨body, .declaredName t.span⟩
  else if t.text = "function" then .ok ⟨body, .functionName t.span⟩
  else if t.text = "return" then .ok ⟨body, .operand [] [] ⟨[], .yield t.span⟩ false⟩
  else if t.text = "if" then .ok ⟨body, .operand [] [] ⟨[], .condition t.span []⟩ false⟩
  else .error (.unexpectedKeyword t.text)

/-- A token where a statement may start. -/
def statementStep (body : Body) (t : Token) : Except ParseCause State :=
  match t.kind with
  | .newline => .ok ⟨body, .statement⟩
  | .semicolon => .ok ⟨body, .statement⟩
  | .comment => .ok ⟨body.push (.comment t.text t.span), .ended⟩
  | .at => .ok ⟨body, .directiveName t.span⟩
  | .keyword => keywordStatement body t
  | .identifier => .ok ⟨body, .afterName ⟨t.text, t.span⟩⟩
  | .rightBrace =>
    match body.outer with
    | [] => .error (.unexpectedToken t.text)
    | (owner, before) :: outer =>
      .ok (closeBlock owner body.statements.reverse ⟨before, outer⟩ t.span)
  | .endOfFile => if body.outer.isEmpty then .ok ⟨body, .statement⟩ else .error .unclosedBlock
  | _ => .error (.unexpectedToken t.text)

/-- A token after a complete statement. -/
def endedStep (body : Body) (t : Token) : Except ParseCause State :=
  match t.kind with
  | .newline => .ok ⟨body, .statement⟩
  | .semicolon => .ok ⟨body, .statement⟩
  | .rightBrace => statementStep body t
  | .comment => statementStep body t
  | .endOfFile => statementStep body t
  | _ => .error (.unexpectedAfterStatement t.text)

def openBlock (body : Body) (owner : Owner) (t : Token) : Except ParseCause State :=
  if t.kind = .leftBrace then .ok ⟨body.enter owner, .statement⟩ else .error .missingBlock

/-- An operand together with the signs before it. -/
def applySigns (signs : Signs) (operand : Expr) : Expr :=
  signs.foldl (fun e sign => .unary sign.1 sign.2 e (sign.2.through e.span)) operand

def OpenBinary.apply (waiting : OpenBinary) (right : Expr) : Expr :=
  .binary waiting.op waiting.opSpan waiting.left right (waiting.left.span.through right.span)

/-- Applies the waiting operators that bind at least as tightly as `precedence` to the value on
their right, and keeps the others. -/
def applyBinaries (precedence : Nat) : List OpenBinary → Expr → List OpenBinary × Expr
  | [], value => ([], value)
  | b :: binaries, value =>
    if precedence ≤ b.op.precedence then applyBinaries precedence binaries (b.apply value)
    else (b :: binaries, value)

def applyAll (binaries : List OpenBinary) (value : Expr) : Expr :=
  binaries.foldl (fun e b => b.apply e) value

/-- The state after a complete operand. -/
def complete (body : Body) (signs : Signs) (binaries : List OpenBinary) (context : Context)
    (operand : Expr) : State :=
  ⟨body, .operated binaries context (applySigns signs operand)⟩

/-- Inside brackets a newline may stand before the closing one. -/
def Context.skipsNewline (context : Context) : Bool :=
  match context.brackets, context.goal with
  | _ :: _, _ => true
  | [], .argument _ _ => true
  | [], _ => false

/-- A token after a complete expression that is not inside brackets of its own. -/
def goalStep (body : Body) (goal : Goal) (value : Expr) (t : Token) : Except ParseCause State :=
  match goal with
  | .declare start target =>
    endedStep (body.push (.declare target value (start.through value.span))) t
  | .assign target op opSpan =>
    endedStep (body.push (.assign target op opSpan value (target.span.through value.span))) t
  | .yield start => endedStep (body.push (.yield value (start.through value.span))) t
  | .condition start chain => openBlock body (.firstBranch start value chain) t
  | .argument function before =>
    match t.kind with
    | .comma => .ok ⟨body, .operand [] [] ⟨[], .argument function (value :: before)⟩ true⟩
    | .rightParen =>
      let arguments := (value :: before).reverse
      .ok ⟨body.push (.call function.name arguments (function.span.through t.span)), .ended⟩
    | _ => .error .unclosedArguments

/-- A token after a complete expression. -/
def closeStep (body : Body) (context : Context) (value : Expr) (t : Token) :
    Except ParseCause State :=
  match context.brackets with
  | [] => goalStep body context.goal value t
  | ⟨.paren start, signs, binaries⟩ :: brackets =>
    if t.kind = .rightParen then
      .ok (complete body signs binaries ⟨brackets, context.goal⟩
        (.paren value (start.through t.span)))
    else .error .unclosedParenthesis
  | ⟨.argument function before, signs, binaries⟩ :: brackets =>
    match t.kind with
    | .comma =>
      let bracket := ⟨.argument function (value :: before), signs, binaries⟩
      .ok ⟨body, .operand [] [] ⟨bracket :: brackets, context.goal⟩ true⟩
    | .rightParen =>
      let arguments := (value :: before).reverse
      .ok (complete body signs binaries ⟨brackets, context.goal⟩
        (.call function.name arguments (function.span.through t.span)))
    | _ => .error .unclosedArguments

/-- A token after a complete operand: a binary operator, or the end of the expression. -/
def operatedStep (body : Body) (binaries : List OpenBinary) (context : Context) (value : Expr)
    (t : Token) : Except ParseCause State :=
  match if t.kind = .operator then BinaryOp.ofSymbol? t.text else none with
  | some op =>
    let (kept, left) := applyBinaries op.precedence binaries value
    .ok ⟨body, .operand [] (⟨left, op, t.span⟩ :: kept) context false⟩
  | none =>
    let whole := applyAll binaries value
    if t.kind = .newline && context.skipsNewline then .ok ⟨body, .closing context whole⟩
    else closeStep body context whole t

/-- A token where an operand must start. -/
def operandStep (body : Body) (signs : Signs) (binaries : List OpenBinary) (context : Context)
    (newlines : Bool) (t : Token) : Except ParseCause State :=
  let literal (value : Literal) : Except ParseCause State :=
    .ok (complete body signs binaries context (.literal value t.span))
  match t.kind with
  | .number =>
    match readNumber? t.text with
    | some value => literal (.number value)
    | none => .error (.invalidNumber t.text)
  | .string => literal (.text t.text)
  | .color => literal (.color t.text)
  | .keyword =>
    if t.text = "true" then literal (.boolean true)
    else if t.text = "false" then literal (.boolean false)
    else .error (.missingExpression t.text)
  | .identifier => .ok ⟨body, .operandName signs binaries context ⟨t.text, t.span⟩⟩
  | .leftParen =>
    let bracket := ⟨.paren t.span, signs, binaries⟩
    .ok ⟨body, .operand [] [] ⟨bracket :: context.brackets, context.goal⟩ true⟩
  | .operator =>
    match UnaryOp.ofSymbol? t.text with
    | some op => .ok ⟨body, .operand ((op, t.span) :: signs) binaries context false⟩
    | none => .error (.missingExpression t.text)
  | .newline =>
    if newlines then .ok ⟨body, .operand signs binaries context true⟩
    else .error (.missingExpression t.text)
  | .endOfFile => .error .endBeforeExpression
  | _ => .error (.missingExpression t.text)

/-- A token just after the opening bracket of a call. -/
def firstArgumentStep (body : Body) (context : Context) (t : Token) : Except ParseCause State :=
  if t.kind = .newline then .ok ⟨body, .firstArgument context⟩
  else if t.kind = .rightParen then
    match context.brackets, context.goal with
    | ⟨.argument function _, signs, binaries⟩ :: brackets, goal =>
      .ok (complete body signs binaries ⟨brackets, goal⟩
        (.call function.name [] (function.span.through t.span)))
    | [], .argument function _ =>
      .ok ⟨body.push (.call function.name [] (function.span.through t.span)), .ended⟩
    | _, _ => .error (.missingExpression t.text)
  else operandStep body [] [] context true t

/-- A token after a name at the head of a statement. -/
def afterNameStep (body : Body) (name : Named) (t : Token) : Except ParseCause State :=
  if t.kind = .leftParen then .ok ⟨body, .firstArgument ⟨[], .argument name []⟩⟩
  else
    match if t.kind = .operator then assignment? t.text else none with
    | some op => .ok ⟨body, .operand [] [] ⟨[], .assign name op t.span⟩ false⟩
    | none => .error (.missingAssignment name.name)

/-- The next state, or why the token cannot stand here. -/
def step (s : State) (t : Token) : Except ParseCause State :=
  let body := s.body
  match s.mode with
  | .statement => statementStep body t
  | .ended => endedStep body t
  | .directiveName start =>
    if t.kind = .identifier then
      .ok ⟨body.push (.directive ⟨t.text, t.span⟩ (start.through t.span)), .ended⟩
    else .error .missingDirectiveName
  | .declaredName start =>
    if t.kind = .identifier then .ok ⟨body, .declaredEquals start ⟨t.text, t.span⟩⟩
    else .error .missingVariableName
  | .declaredEquals start target =>
    if t.kind = .operator then
      if t.text = "=" then .ok ⟨body, .operand [] [] ⟨[], .declare start target⟩ false⟩
      else .error (.wrongEquals t.text)
    else .error .missingEquals
  | .functionName start =>
    if t.kind = .identifier then .ok ⟨body, .parameters start ⟨t.text, t.span⟩⟩
    else .error .missingFunctionName
  | .parameters start name =>
    if t.kind = .leftParen then .ok ⟨body, .firstParameter start name⟩
    else .error .missingParameters
  | .firstParameter start name =>
    match t.kind with
    | .newline => .ok ⟨body, .firstParameter start name⟩
    | .rightParen => .ok ⟨body, .block (.function start name [])⟩
    | .identifier => .ok ⟨body, .afterParameter start name [⟨t.text, t.span⟩]⟩
    | _ => .error .missingParameterName
  | .nextParameter start name before =>
    match t.kind with
    | .newline => .ok ⟨body, .nextParameter start name before⟩
    | .identifier => .ok ⟨body, .afterParameter start name (⟨t.text, t.span⟩ :: before)⟩
    | _ => .error .missingParameterName
  | .afterParameter start name before =>
    match t.kind with
    | .newline => .ok ⟨body, .afterParameter start name before⟩
    | .comma => .ok ⟨body, .nextParameter start name before⟩
    | .rightParen => .ok ⟨body, .block (.function start name before.reverse)⟩
    | _ => .error .unclosedParameters
  | .block owner => openBlock body owner t
  | .afterName name => afterNameStep body name t
  | .afterBranch branch chain stop newline =>
    if t.kind = .newline then .ok ⟨body, .afterBranch branch chain stop true⟩
    else if t.isKeyword "else" then .ok ⟨body, .alternative branch chain⟩
    else
      let body := body.push (closeBranches branch chain .none stop)
      if newline then statementStep body t else endedStep body t
  | .alternative branch chain =>
    if t.isKeyword "if" then
      .ok ⟨body, .operand [] [] ⟨[], .condition t.span (branch :: chain)⟩ false⟩
    else openBlock body (.lastBranch branch chain) t
  | .firstArgument context => firstArgumentStep body context t
  | .operand signs binaries context newlines =>
    operandStep body signs binaries context newlines t
  | .operandName signs binaries context name =>
    if t.kind = .leftParen then
      let bracket := ⟨.argument name [], signs, binaries⟩
      .ok ⟨body, .firstArgument ⟨bracket :: context.brackets, context.goal⟩⟩
    else
      operatedStep body binaries context (applySigns signs (.name name.name name.span)) t
  | .operated binaries context value => operatedStep body binaries context value t
  | .closing context value =>
    if t.kind = .newline then .ok ⟨body, .closing context value⟩
    else closeStep body context value t

/-- The state after a list of tokens. -/
def run (s : State) : List Token → Except ParseError State
  | [] => .ok s
  | t :: tokens =>
    match step s t with
    | .ok next => run next tokens
    | .error cause => .error ⟨cause, t.span⟩

end Parser

/-- The first end-of-file token, or one placed at the last token when there is none. -/
def endToken (tokens : List Token) : Token :=
  match tokens.find? (fun t => t.kind = .endOfFile) with
  | some t => t
  | none => ⟨.endOfFile, "", (tokens.getLast?.map Token.span).getD Span.empty⟩

/-- The program of a token list. What follows the first end of file is not looked at. -/
def Program.ofTokens (tokens : List Token) : Except ParseError Program :=
  let before := tokens.takeWhile (fun t => t.kind ≠ .endOfFile)
  let stop := endToken tokens
  let first := ((before.head?).getD stop).span
  match Parser.run .start (before ++ [stop]) with
  | .ok s => .ok ⟨s.body.statements.reverse, first.through stop.span⟩
  | .error e => .error e

end ScriptBlocks
