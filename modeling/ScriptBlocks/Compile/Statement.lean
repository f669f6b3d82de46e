import ScriptBlocks.Compile.Expression
import ScriptBlocks.SourceError

/-!
# Compiling statements

A statement becomes blocks that follow the ones before it. When a statement fails, compilation
goes on with the next one.
-/
namespace ScriptBlocks.Emit

/-- The type of a declared variable, given the type of its value. -/
def declaredType (variableName : String) (span : Span) (type : ValueType) : Emit ValueType :=
  match type with
  | .unresolved => do
    report (.untypedVariable variableName) span
    pure .string
  | .void => pure .string
  | type => pure type

/-- Gives a variable the type of its value. -/
def settleVariable (variableName : String) (operand : Operand) (span : Span) : Emit Unit := do
  let type ← declaredType variableName span (← expectedType operand)
  expectType type [operand] span
  modifyTarget (·.modifyVariable variableName ({ · with type, built := true }))
  log (.declared variableName type)

def isFunctionName (c : Compilation) (name : String) : Bool :=
  (c.target.functionNamed? name).isSome || c.function.any (·.name = name)

def declare (named : Named) (value : Part) : Emit Unit := do
  log (.declaring named.name)
  let c ← get
  if (c.target.builtVariable? named.name).isSome || c.isArgument named.name then
    fail (.variableRedeclared named.name) named.span
  else if isFunctionName c named.name then
    fail (.variableNamedLikeFunction named.name) named.span
  else
    let ref ← onTarget (·.createVariable named.name .unresolved)
    let id ← place fun id => .setVariable id ref .empty
    let operand ← within (.inputs id 0) value.operand
    settleVariable named.name operand value.span

/-- A plain assignment to the variable of a block that sets it. -/
def assignPlain (v : Variable) (id : String) (value : Part) : Emit Unit := do
  let operand ← within (.inputs id 0) value.operand
  match ← assertType v.type [operand] with
  | none => pure ()
  | some mismatch => fail (.wrongAssignment mismatch.found.name v.type.name) value.span

/-- An assignment that combines the old value of the variable with another. -/
def assignCombined (v : Variable) (id : String) (op : ArithmeticOp) (opSpan : Span)
    (value : Part) : Emit Unit := do
  if v.type ≠ .number then fail (.wrongAssignment "number" v.type.name) opSpan
  else
    let inner ← onTarget (·.drawBlock)
    let operand ← within (.inputs id 0) do
      modifyTarget (·.addBlock (.arithmetic inner op (.payload (.variable v.ref)) .empty))
      within (.inputs inner 0) value.operand
    warnDivisionByZero op operand value.span
    expectType .number [operand] value.span

def assign (named : Named) (op : Option ArithmeticOp) (opSpan : Span) (value : Part) :
    Emit Unit := do
  log (.assigning named.name op)
  let t ← target
  match t.builtVariable? named.name with
  | none => fail (.undefinedVariable named.name) named.span
  | some v =>
    let id ← place fun id => .setVariable id v.ref .empty
    match op with
    | none => assignPlain v id value
    | some op => assignCombined v id op opSpan value

/-- The return variable of the current function, made at its first `return`. -/
def returnVariable (signature : Signature) : Emit VariableRef :=
  match signature.returnVariable with
  | some ref => pure ref
  | none => do
    let t ← target
    let name := Procedure.returnVariableName signature.name t.name
    let ref ← onTarget (·.createVariable name .unresolved)
    modify fun c =>
      { c with function := c.function.map ({ · with returnVariable := some ref }) }
    pure ref

/-- The type of a function's result, given the type of the value of its first `return`. -/
def resultType (function : String) (span : Span) (type : ValueType) : Emit ValueType :=
  match type with
  | .unresolved => do
    report (.untypedResult function) span
    pure .string
  | .void => do
    report (.untypedResult function) span
    pure .string
  | type => pure type

/-- Settles the type of the current function's result, or checks it. -/
def settleResult (function : String) (operand : Operand) (span : Span) : Emit ValueType := do
  let c ← get
  let declared := (c.function.map Signature.returnType).getD .unresolved
  if declared ≠ .unresolved then
    expectType declared [operand] span
    pure declared
  else
    let type ← resultType function span (← expectedType operand)
    expectType type [operand] span
    modify fun c => { c with function := c.function.map ({ · with returnType := type }) }
    pure type

/-- Settles the type of the variable for the result, and stops the script. -/
def storeResult (function : String) (ref : VariableRef) (operand : Operand) (span : Span) :
    Emit Unit := do
  let type ← settleResult function operand span
  modifyTarget (·.modifyVariable ref.name ({ · with type }))
  let _ ← place fun id => .stop id "this script"

def yield (span : Span) (value : Part) : Emit Unit := do
  let c ← get
  match c.function with
  | none => fail .strayReturn span
  | some signature =>
    log (.returning signature.name)
    let ref ← returnVariable signature
    let id ← place fun id => .setVariable id ref .empty
    let operand ← within (.inputs id 0) value.operand
    storeResult signature.name ref operand value.span

/-- Runs the steps of a block in a sequence of its own. The result is that sequence at its end. -/
def block (body : Compilation → Compilation) : Emit Scope :=
  fun c =>
    let scope := Scope.after none
    let c := body (c.setTarget (c.target.enter scope))
    let (left, t) := c.target.exit
    (some (left.getD scope), c.setTarget t)

/-- Adds the parameters of a function to its signature. -/
def parameters (signature : Signature) : List Named → Emit Signature
  | [] => pure signature
  | parameter :: rest => do
    let t ← target
    if parameter.name = signature.name then fail .argumentNamedLikeFunction parameter.span
    else if (t.variableNamed? parameter.name).isSome then
      fail .argumentNamedLikeVariable parameter.span
    else
      match signature.addArgument? parameter.name t with
      | none => fail (.argumentRepeated parameter.name) parameter.span
      | some (signature, t) =>
        modifyTarget fun _ => t
        parameters signature rest

/-- Arguments that no use has given a type are strings. -/
def settleArguments (signature : Signature) (span : Span) : List String → Emit Signature
  | [] => pure signature
  | argument :: rest => do
    report (.untypedArgument argument signature.name) span
    let t ← target
    match signature.settle argument .string t with
    | .ok (settled, t) =>
      modifyTarget fun _ => t
      log (.settled argument signature.name .string)
      settleArguments settled span rest
    | .error _ => settleArguments signature span rest

def function (name : Named) (params : List Named) (body : Compilation → Compilation) :
    Emit Unit := do
  log (.defining name.name)
  let c ← get
  if c.function.isSome || 0 < c.branchDepth then fail .nestedFunction name.span
  else if (c.target.variableNamed? name.name).isSome then
    fail (.functionNamedLikeVariable name.name) name.span
  else if (c.target.functionNamed? name.name).isSome then
    fail (.functionRedefined name.name) name.span
  else
    let signature ← parameters (← onTarget (Signature.start name.name)) params
    modify ({ · with function := some signature })
    let scope ← block body
    let c ← get
    match c.function with
    | none => giveUp
    | some signature =>
      modify ({ · with function := none })
      let signature ← settleArguments signature name.span signature.unresolvedArguments
      let procedure ← onTarget (signature.build scope.head?)
      log (.defined name.name procedure.returnType)
      modifyTarget (·.addFunction procedure)

/-- Makes the blocks of a sequence the body in a slot. -/
def attachBranch (id slot : String) (scope : Scope) : Emit Unit :=
  modifyTarget fun t =>
    let t :=
      match scope.head? with
      | some head => t.setSubstack id slot head
      | none => t
    match scope.anchor? with
    | some last => t.setNext last none
    | none => t

def branch (condition : Part) (body : Compilation → Compilation)
    (otherwise : Option (Compilation → Compilation)) : Emit Unit := do
  log .branching
  let id ← place fun id =>
    if otherwise.isSome then .branchElse id .empty else .branch id .empty
  let operand ← within (.inputs id 0) condition.operand
  expectType .boolean [operand] condition.span
  modify fun c => { c with branchDepth := c.branchDepth + 1 }
  attachBranch id "SUBSTACK" (← block body)
  match otherwise with
  | some otherwise => attachBranch id "SUBSTACK2" (← block otherwise)
  | none => pure ()
  modify fun c => { c with branchDepth := c.branchDepth - 1 }
  modifyTarget (·.setNext id none)

/-- Directives stand before all code. -/
def directive (name : Named) : Emit Unit := do
  let c ← get
  let late := c.target.hasContent || c.target.entry.isSome
  if late || c.function.isSome || 0 < c.branchDepth then fail .lateDirective name.span
  else if name.name = "stage" then
    modify fun c => { c with project := (c.project.switchTo? "Stage").getD c.project }
    log (.directed name.name)
  else if name.name = "ignore_errors" then
    modify fun c => { c with project := { c.project with ignoreErrors := true } }
    report .errorsIgnored name.span
    log (.directed name.name)
  else fail (.unknownDirective name.name) name.span

def comment (text : String) : Emit Unit := do
  let _ ← onTarget (·.addComment text)

mutual

/-- Compiles a statement. -/
def statement : Statement → Emit Unit
  | .declare named value _ => declare named (part value)
  | .assign named op opSpan value _ => assign named op opSpan (part value)
  | .yield value span => yield span (part value)
  | .function name params body _ => function name params (statements body)
  | .call name arguments span =>
    callStatement name span (expressions arguments) (arguments.map Expr.span)
  | .branch condition body otherwise _ =>
    branch (part condition) (statements body) (alternative otherwise)
  | .directive name _ => directive name
  | .comment text _ => comment text

/-- Compiles statements one after the other, whether or not they succeed. -/
def statements : List Statement → Compilation → Compilation
  | [], c => c
  | s :: rest, c => statements rest (inContext s.span (statement s) c).2

/-- Compiles what follows the first branch of a conditional. -/
def alternative : Alternative → Option (Compilation → Compilation)
  | .none => none
  | .block body => some (statements body)
  | .branch condition body otherwise span =>
    some fun c =>
      (inContext span (branch (part condition) (statements body) (alternative otherwise)) c).2

end

/-- Statements that need the main script to exist. -/
def needsEntry : Statement → Bool
  | .directive _ _ => false
  | .comment _ _ => false
  | .function _ _ _ _ => false
  | _ => true

/-- Compiles the statements of a program. -/
def program : List Statement → Compilation → Compilation
  | [], c => c
  | s :: rest, c =>
    let c := if needsEntry s then c.setTarget c.target.ensureEntry else c
    program rest (inContext s.span (statement s) c).2

end ScriptBlocks.Emit

namespace ScriptBlocks

/-- Compiles a source text into a project. A text that is no program is reported. -/
def Project.compile (p : Project) (source : String) : Project :=
  match Program.ofSource source with
  | .ok program => (Emit.program program.statements { project := p }).project
  | .error error => p.report (.ofProblem (.malformedSource error.message) (some error.span))

/-- The project of a source text whose scripts belong to a sprite of this name. -/
def compile (source sprite : String) : Project :=
  (Project.new sprite).compile source

end ScriptBlocks
