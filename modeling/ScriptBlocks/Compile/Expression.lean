import ScriptBlocks.Compile.Emit

/-!
# Compiling expressions

An operator becomes a block whose slots take its operands, from left to right. A function call
runs just before the statement it stands in, and its value is read from the return variable of the
function. Comparisons that allow equality are the disjunction of a strict one and an equality over
copies of the same operands.
-/
namespace ScriptBlocks.Emit

/-- A part of an expression: its place in the source and its compilation. -/
structure Part where
  span : Span
  emit : Emit Operand

def Part.operand (part : Part) : Emit Operand :=
  Emit.operand part.span part.emit

/-- A name is a declared variable or an argument of the current function. -/
def name (name : String) (span : Span) : Emit Operand := do
  let c ← get
  let reporter? := c.function.bind (·.reporter? name (c.target.freshId "block"))
  match c.target.builtVariable? name, reporter? with
  | some v, _ => pure (.variable v.ref)
  | none, some reporter =>
    let id ← place fun _ => reporter
    modify fun c => { c with function := c.function.map (·.track name id) }
    pure (.block id)
  | none, none => fail (.unknownName name) span

theorem name_eq_place (x : String) (span : Span) :
    name x span = (do
      let c ← get
      match c.target.builtVariable? x, c.function.bind (·.argumentType? x) with
      | some v, _ => pure (.variable v.ref)
      | none, some type =>
        let id ← place fun id => .reporter id x type false
        modify fun c => { c with function := c.function.map (·.track x id) }
        pure (.block id)
      | none, none => fail (.unknownName x) span) := by
  funext c
  simp only [name, bind_apply, get]
  cases c.target.builtVariable? x with
  | some v => rfl
  | none =>
    cases c.function with
    | none => rfl
    | some s =>
      simp only [Option.bind_some, Signature.reporter?]
      cases s.argumentType? x <;> rfl

def warnDivisionByZero (op : ArithmeticOp) (divisor : Operand) (span : Span) : Emit Unit :=
  match op, divisor with
  | .divide, .literal value =>
    if value.isZero then report .divisionByZero span else pure ()
  | _, _ => pure ()

/-- Two operands in the free slots of a block, the left one first. -/
def operands (anchor : String) (left right : Part) : Emit (Operand × Operand) :=
  within (.inputs anchor 0) do
    let l ← left.operand
    let r ← right.operand
    pure (l, r)

def negation (opSpan : Span) (part : Part) : Emit Operand := do
  let id ← place fun id => .negation id .empty
  let value ← within (.inputs id 0) part.operand
  expectType .boolean [value] opSpan
  pure (.block id)

/-- A sign is joined to the text of its operand. -/
def sign (symbol : String) (part : Part) : Emit Operand := do
  let id ← place fun id => .join id (.payload (.text symbol)) .empty
  let value ← within (.inputs id 1) part.operand
  expectType .number [value] part.span
  modifyTarget (·.modifyBlock id ({ · with inferred := .number }))
  pure (.block id)

def unary (op : UnaryOp) (opSpan : Span) (part : Part) : Emit Operand :=
  match op with
  | .not => negation opSpan part
  | .plus => sign "+" part
  | .minus => sign "-" part

def arithmetic (op : ArithmeticOp) (opSpan : Span) (left right : Part) : Emit Operand := do
  let id ← place fun id => .arithmetic id op .empty .empty
  let (l, r) ← operands id left right
  warnDivisionByZero op r right.span
  expectType .number [l, r] opSpan
  pure (.block id)

def logic (op : LogicOp) (opSpan : Span) (left right : Part) : Emit Operand := do
  let id ← place fun id => .logic id op .empty .empty
  let (l, r) ← operands id left right
  expectType .boolean [l, r] opSpan
  pure (.block id)

/-- Each side of an equality hints at the type of the other. -/
def hintEqual (l r : Operand) : Emit Unit := do
  let leftType ← expectedType l
  let rightType ← expectedType r
  hintType rightType [l]
  hintType leftType [r]

def equality (left right : Part) : Emit Operand := do
  let id ← place fun id => .equals id .empty .empty
  let (l, r) ← operands id left right
  hintEqual l r
  pure (.block id)

def inequality (left right : Part) : Emit Operand := do
  let equals ← register fun id => .equals id .empty .empty
  let id ← place fun id => .negation id (.block equals)
  let (l, r) ← operands equals left right
  hintEqual l r
  pure (.block id)

/-- A comparison of two numbers, by the block that makes it. -/
def strict (make : String → SlotValue → SlotValue → Block) (left right : Part) : Emit Operand := do
  let id ← place fun id => make id .empty .empty
  let (l, r) ← operands id left right
  hintType .number [l, r]
  pure (.block id)

/-- Remembers the copies of argument reporters. -/
def trackCopies (copies : List String) : Emit Unit :=
  modify fun c =>
    let track (function : Option Signature) (id : String) : Option Signature :=
      match (c.target.block? id).bind Block.argument with
      | some argument => function.map (·.track argument id)
      | none => function
    { c with function := copies.foldl track c.function }

/-- Gives a slot of `twin` the contents of a slot of another block, blocks being copied. -/
def copySlot (twin slot : String) (input : Input) : Emit Unit :=
  match input.block? with
  | none => modifyTarget (·.fillSlot twin slot input.value)
  | some child => do
    let copies ← onTarget (·.duplicate child twin)
    trackCopies copies
    match copies with
    | root :: _ => modifyTarget (·.fillSlot twin slot (.block root))
    | [] => pure ()

def copySlots (twin : String) : List (String × Input) → Emit Unit
  | [] => pure ()
  | (slot, input) :: slots => do
    copySlot twin slot input
    copySlots twin slots

/-- A comparison that also holds for equal numbers: `make` or equality, over the same operands. -/
def inclusive (make : String → SlotValue → SlotValue → Block) (left right : Part) :
    Emit Operand := do
  let primary ← register fun id => make id .empty .empty
  let equals ← register fun id => .equals id .empty .empty
  let id ← place fun id => .logic id .or (.block primary) (.block equals)
  let (l, r) ← operands primary left right
  hintType .number [l, r]
  let t ← target
  copySlots equals (((t.block? primary).map (·.inputs.entries)).getD [])
  pure (.block id)

def binary (op : BinaryOp) (opSpan : Span) (left right : Part) : Emit Operand :=
  match op with
  | .arithmetic op => arithmetic op opSpan left right
  | .logic op => logic op opSpan left right
  | .comparison .equal => equality left right
  | .comparison .notEqual => inequality left right
  | .comparison .less => strict .less left right
  | .comparison .greater => strict .greater left right
  | .comparison .lessOrEqual => inclusive .less left right
  | .comparison .greaterOrEqual => inclusive .greater left right

/-- The arguments of a call have the types of the function's arguments. -/
def expectArguments : List Operand → List Argument → List Span → Emit Unit
  | value :: values, argument :: arguments, span :: spans => do
    expectType argument.type [value] span
    expectArguments values arguments spans
  | _, _, _ => pure ()

/-- The function that a call names, which must take as many arguments as are given. -/
def callee (name : String) (given : Nat) (span : Span) : Emit Procedure := do
  let t ← target
  match t.functionNamed? name with
  | none => fail (.undefinedFunction name) span
  | some p =>
    if p.arguments.size = given then pure p
    else fail (.wrongArgumentCount name p.arguments.size given) span

/-- Compiles the arguments of a call into the slots of its block. -/
def callArguments (p : Procedure) (id : String) (arguments : Emit (List Operand))
    (spans : List Span) : Emit Unit := do
  let values ← within (.inputs id 0) arguments
  expectArguments values p.arguments.values spans

/-- A call as a statement of its own. -/
def callStatement (name : String) (span : Span) (arguments : Emit (List Operand))
    (spans : List Span) : Emit Unit := do
  let p ← callee name spans.length span
  log (.calling name)
  let id ← place p.callBlock
  callArguments p id arguments spans

/-- Runs a call before the statement being compiled, or as a script of its own. -/
def runBefore (t : Target) (call : String) : Target :=
  match t.currentStatement with
  | some statement => t.insertBefore statement call
  | none =>
    let (position, t) := t.takePosition
    t.modifyBlock call ({ · with topLevel := true, position := some position })

/-- A call inside an expression. -/
def call (name : String) (span : Span) (arguments : Emit (List Operand)) (spans : List Span) :
    Emit Operand := do
  let p ← callee name spans.length span
  if p.returnType = .void then fail (.typeMismatch "value" "void") span
  else
    log (.calling name)
    let id ← register p.callBlock
    callArguments p id arguments spans
    modifyTarget (runBefore · id)
    pure (.call name p.returnVariable)

mutual

/-- Compiles an expression. -/
def expression : Expr → Emit Operand
  | .literal value _ => pure (.literal value)
  | .name n span => name n span
  | .paren inner _ => expression inner
  | .unary op opSpan e _ => unary op opSpan ⟨e.span, expression e⟩
  | .binary op opSpan left right _ =>
    binary op opSpan ⟨left.span, expression left⟩ ⟨right.span, expression right⟩
  | .call n arguments span => call n span (expressions arguments) (arguments.map Expr.span)

/-- Compiles expressions into the slots of the innermost input scope. -/
def expressions : List Expr → Emit (List Operand)
  | [] => pure []
  | e :: es => do
    let value ← operand e.span (expression e)
    let values ← expressions es
    pure (value :: values)

end

/-- The compilation of an expression as a part of a larger one. -/
def part (e : Expr) : Part :=
  ⟨e.span, expression e⟩

end ScriptBlocks.Emit
