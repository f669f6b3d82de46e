import ScriptBlocks.Program
import ScriptBlocks.Table

/-!
# Blocks

A script is a graph of blocks. A block has a parent and a next block, input slots that hold other
blocks or plain values, and fields with fixed contents; blocks refer to each other by id.
-/
namespace ScriptBlocks

/-- A variable as blocks refer to it. -/
structure VariableRef where
  name : String
  id : String
  deriving DecidableEq, Repr

/-- A plain value in a slot. -/
inductive Payload where
  | number (text : String)
  | color (text : String)
  | text (text : String)
  | variable (ref : VariableRef)
  deriving DecidableEq, Repr

inductive SlotKind where
  | number
  | text
  | boolean
  | substack
  | argument
  deriving DecidableEq, Repr

/-- What an empty slot of this kind shows, if anything. -/
def SlotKind.default : SlotKind → Option Payload
  | .number => some (.number "")
  | .text => some (.text "")
  | .boolean => none
  | .substack => none
  | .argument => none

inductive SlotValue where
  | empty
  | block (id : String)
  | payload (value : Payload)
  deriving DecidableEq, Repr

structure Input where
  kind : SlotKind
  value : SlotValue
  deriving DecidableEq, Repr

namespace Input

def isFilled (input : Input) : Bool :=
  input.value ≠ .empty

/-- The block that a slot holds. -/
def block? (input : Input) : Option String :=
  match input.value with
  | .block id => some id
  | .empty => none
  | .payload _ => none

def set (input : Input) (value : SlotValue) : Input :=
  { input with value }

end Input

structure Field where
  value : String
  id : Option String
  deriving DecidableEq, Repr

/-- Further data of a block, such as the signature of a procedure. -/
structure Mutation where
  proccode : Option String := none
  argumentIds : Option String := none
  argumentNames : Option String := none
  argumentDefaults : Option String := none
  warp : Option Bool := none
  hasNext : Option Bool := none
  deriving DecidableEq, Repr

/-- What a block does. -/
inductive Opcode where
  | arithmetic (op : ArithmeticOp)
  | less
  | greater
  | equals
  | logic (op : LogicOp)
  | not
  | join
  | branch
  | branchElse
  | stop
  | setVariable
  | flagClicked
  | reporter (boolean : Bool)
  | definition
  | prototype
  | call
  | named (name : String)
  deriving DecidableEq, Repr

def Opcode.name : Opcode → String
  | .arithmetic .add => "operator_add"
  | .arithmetic .subtract => "operator_subtract"
  | .arithmetic .multiply => "operator_multiply"
  | .arithmetic .divide => "operator_divide"
  | .arithmetic .modulo => "operator_mod"
  | .less => "operator_lt"
  | .greater => "operator_gt"
  | .equals => "operator_equals"
  | .logic .and => "operator_and"
  | .logic .or => "operator_or"
  | .not => "operator_not"
  | .join => "operator_join"
  | .branch => "control_if"
  | .branchElse => "control_if_else"
  | .stop => "control_stop"
  | .setVariable => "data_setvariableto"
  | .flagClicked => "event_whenflagclicked"
  | .reporter true => "argument_reporter_boolean"
  | .reporter false => "argument_reporter_string_number"
  | .definition => "procedures_definition"
  | .prototype => "procedures_prototype"
  | .call => "procedures_call"
  | .named name => name

/-- A place on the canvas. -/
structure Point where
  x : Int
  y : Int
  deriving DecidableEq, Repr

structure Block where
  id : String
  opcode : Opcode
  next : Option String := none
  parent : Option String := none
  inputs : Table Input := .empty
  fields : Table Field := .empty
  mutation : Option Mutation := none
  shadow : Bool := false
  topLevel : Bool := false
  position : Option Point := none
  /-- The type of the value that the block gives. -/
  inferred : ValueType := .unresolved
  /-- The function argument that the block stands for. -/
  argument : Option String := none

namespace Block

/-- Index and name of the first unfilled slot at or after an index. -/
def firstUnfilled? (b : Block) (start : Nat) : Option (Nat × String) :=
  ((b.inputs.entries.zipIdx.drop start).find? (fun e => !e.1.2.isFilled)).map
    (fun e => (e.2, e.1.1))

/-- The blocks that the slots hold, in order. -/
def children (b : Block) : List String :=
  b.inputs.values.filterMap Input.block?

/-- The block that a slot holds. -/
def childAt? (b : Block) (slot : String) : Option String :=
  (b.inputs.get? slot).bind Input.block?

/-- The first slot that holds a block. -/
def slotOf? (b : Block) (child : String) : Option String :=
  (b.inputs.entries.find? (fun e => e.2.block? = some child)).map (·.1)

def fill (b : Block) (slot : String) (value : SlotValue) : Block :=
  { b with inputs := b.inputs.modify slot (·.set value) }

end Block

/-- A note beside the scripts. -/
structure Comment where
  x : Int
  y : Int
  width : Nat
  height : Nat
  minimized : Bool
  text : String
  deriving DecidableEq, Repr

end ScriptBlocks
