import ScriptBlocks.Inference
import ScriptBlocks.Project

/-!
# Emitting blocks

Compilation walks over a program and changes the current target. A step may give up on the
statement it belongs to after reporting why; what it has changed until then stays. Scopes are
opened only together with the steps that run inside them, so they are closed in either case.
-/
namespace ScriptBlocks

/-- The state of a compilation. -/
structure Compilation where
  project : Project
  /-- The function whose body is being compiled. -/
  function : Option Signature := none
  /-- How many branches of conditionals are open. -/
  branchDepth : Nat := 0
  /-- The statements being compiled, innermost first. -/
  contexts : List Span := []

namespace Compilation

def target (c : Compilation) : Target :=
  c.project.current

def setTarget (c : Compilation) (t : Target) : Compilation :=
  { c with project := c.project.setCurrent t }

def inference (c : Compilation) : Inference :=
  ⟨c.target, c.function⟩

def isArgument (c : Compilation) (name : String) : Bool :=
  match c.function with
  | some signature => signature.hasArgument name
  | none => false

def log (c : Compilation) (event : Event) : Compilation :=
  { c with project := c.project.log event }

/-- Reports a problem. Without a place of its own it is placed at the innermost statement. -/
def report (c : Compilation) (problem : Problem) (span : Option Span) : Compilation :=
  { c with project := c.project.report (.ofProblem problem (span.or c.contexts.head?)) }

/-- Takes over the result of inference, and notes the arguments whose types it has settled. -/
def setInference (c : Compilation) (i : Inference) : Compilation :=
  let before := (c.function.map Signature.settled).getD []
  let events :=
    match i.function with
    | some signature =>
      (signature.settled.drop before.length).map fun (name, type) =>
        Event.settled name signature.name type
    | none => []
  events.foldl log { c.setTarget i.target with function := i.function }

end Compilation

/-- A step of compilation, which gives a value or gives up. -/
def Emit (α : Type) : Type :=
  Compilation → Option α × Compilation

namespace Emit

instance : Monad Emit where
  pure a := fun c => (some a, c)
  bind m f := fun c =>
    match m c with
    | (some a, c) => f a c
    | (none, c) => (none, c)

theorem pure_apply (a : α) (c : Compilation) : (pure a : Emit α) c = (some a, c) := rfl

theorem bind_apply (m : Emit α) (f : α → Emit β) (c : Compilation) :
    (m >>= f) c =
      match m c with
      | (some a, c) => f a c
      | (none, c) => (none, c) := rfl

def get : Emit Compilation :=
  fun c => (some c, c)

def modify (f : Compilation → Compilation) : Emit Unit :=
  fun c => (some (), f c)

def giveUp : Emit α :=
  fun c => (none, c)

def target : Emit Target :=
  fun c => (some c.target, c)

def modifyTarget (f : Target → Target) : Emit Unit :=
  modify fun c => c.setTarget (f c.target)

/-- Runs an operation of the current target. -/
def onTarget (f : Target → α × Target) : Emit α :=
  fun c =>
    let (a, t) := f c.target
    (some a, c.setTarget t)

def log (event : Event) : Emit Unit :=
  modify (·.log event)

def report (problem : Problem) (span : Span) : Emit Unit :=
  modify (·.report problem (some span))

/-- Reports a problem and gives up. -/
def fail (problem : Problem) (span : Span) : Emit α := do
  report problem span
  giveUp

/-- Draws an id, and places the block that is made with it. -/
def place (make : String → Block) : Emit String :=
  onTarget fun t =>
    let (id, t) := t.drawBlock
    (id, t.addBlock (make id))

/-- Draws an id, and writes the block that is made with it without placing it. -/
def register (make : String → Block) : Emit String :=
  onTarget fun t =>
    let (id, t) := t.drawBlock
    (id, t.register (make id))

/-- Runs a step inside a scope of the current target. -/
def within (scope : Scope) (m : Emit α) : Emit α :=
  fun c =>
    let (a, c) := m (c.setTarget (c.target.enter scope))
    (a, c.setTarget c.target.exit.2)

/-- Runs a step while a statement is the innermost one. -/
def inContext (span : Span) (m : Emit α) : Emit α :=
  fun c =>
    let (a, c) := m { c with contexts := span :: c.contexts }
    (a, { c with contexts := c.contexts.tail })

def expectedType (operand : Operand) : Emit ValueType :=
  fun c => (some (c.inference.expected operand), c)

/-- Checks operands against a type, which those of unresolved type adopt. -/
def assertType (type : ValueType) (operands : List Operand) : Emit (Option TypeMismatch) :=
  fun c =>
    let (mismatch, i) := c.inference.assert type operands
    (some mismatch, c.setInference i)

/-- Requires operands to have a type. -/
def expectType (type : ValueType) (operands : List Operand) (span : Span) : Emit Unit := do
  match ← assertType type operands with
  | none => pure ()
  | some mismatch => fail (.typeMismatch mismatch.expected.name mismatch.found.name) span

/-- Lets operands of unresolved type adopt a type. -/
def hintType (type : ValueType) (operands : List Operand) : Emit Unit :=
  modify fun c => c.setInference (c.inference.hint type operands)

/-- Compiles an expression into the innermost input scope: a value that is no block is written
into the next slot. -/
def operand (span : Span) (m : Emit Operand) : Emit Operand :=
  fun c =>
    match m c with
    | (some value, c) => (some value, c.setTarget (c.target.assign value))
    | (none, after) =>
      if after.project.diagnostics.length = c.project.diagnostics.length then
        (none, after.report .missingOperand (some span))
      else (none, after)

end Emit
end ScriptBlocks
