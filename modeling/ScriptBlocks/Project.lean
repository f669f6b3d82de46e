import ScriptBlocks.Diagnostic
import ScriptBlocks.Target

/-!
# Projects

A project under compilation: the stage and one sprite, one of which receives the scripts, and what
has been reported so far.
-/
namespace ScriptBlocks

/-- A step of compilation worth noting for a reader of the log. -/
inductive Event where
  | declaring (name : String)
  | declared (name : String) (type : ValueType)
  | assigning (name : String) (op : Option ArithmeticOp)
  | returning (function : String)
  | defining (function : String)
  | defined (function : String) (returnType : ValueType)
  | branching
  | directed (directive : String)
  | calling (function : String)
  | settled (argument function : String) (type : ValueType)
  | switched (target : String)
  | reported (diagnostic : Diagnostic)
  deriving DecidableEq, Repr

/-- The word for what an assignment does. -/
def assignmentWord : Option ArithmeticOp → String
  | none => "Assign"
  | some .add => "Add"
  | some .subtract => "Subtract"
  | some .multiply => "Multiply"
  | some .divide => "Divide"
  | some .modulo => "Modulo"

def Event.message : Event → String
  | .declaring name => s!"declaring variable '{name}'"
  | .declared name type => s!"variable '{name}' is {type.name}"
  | .assigning name op => s!"assigning '{name}' with '{assignmentWord op}'"
  | .returning function => s!"return in '{function}'"
  | .defining function => s!"defining function '{function}'"
  | .defined function type => s!"function '{function}' registered, returns {type.name}"
  | .branching => "visiting conditional"
  | .directed directive => s!"attribute '{directive}' applied"
  | .calling function => s!"calling '{function}'"
  | .settled argument function type =>
    s!"argument '{argument}' of '{function}' resolved to {type.name}"
  | .switched target => s!"switched current target to '{target}'"
  | .reported diagnostic => diagnostic.display

structure Project where
  stage : Target
  sprite : Target
  /-- Whether the stage receives the scripts. -/
  onStage : Bool := false
  /-- Whether no error has been reported. -/
  success : Bool := true
  ignoreErrors : Bool := false
  diagnostics : List Diagnostic := []
  journal : List Event := []

namespace Project

def new (sprite : String) : Project :=
  { stage := { name := "Stage", isStage := true, layer := 0 }
    sprite := { name := sprite, isStage := false, layer := 1 } }

def targets (p : Project) : List Target :=
  [p.stage, p.sprite]

/-- The target that receives the scripts. -/
def current (p : Project) : Target :=
  if p.onStage then p.stage else p.sprite

def setCurrent (p : Project) (t : Target) : Project :=
  if p.onStage then { p with stage := t } else { p with sprite := t }

def log (p : Project) (event : Event) : Project :=
  { p with journal := p.journal ++ [event] }

def report (p : Project) (d : Diagnostic) : Project :=
  { p.log (.reported d) with
    success := p.success && !d.isError
    diagnostics := p.diagnostics ++ [d] }

/-- Makes the first target of this name the current one, if there is one. -/
def switchTo? (p : Project) (name : String) : Option Project :=
  if p.stage.name = name then some ({ p with onStage := true }.log (.switched name))
  else if p.sprite.name = name then some ({ p with onStage := false }.log (.switched name))
  else none

/-- A project is packaged when it has no errors, or when they are to be ignored. -/
def canPackage (p : Project) : Bool :=
  p.success || p.ignoreErrors

@[simp] theorem current_setCurrent (p : Project) (t : Target) : (p.setCurrent t).current = t := by
  unfold setCurrent current
  split <;> simp_all

end Project
end ScriptBlocks
