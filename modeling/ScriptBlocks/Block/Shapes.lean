import ScriptBlocks.Block

/-!
# The blocks of compiled scripts

The shape of every block that a script is made of: its slots and fields, and the type of its
value. A slot that is left empty here is filled when its operand has been compiled.
-/
namespace ScriptBlocks.Block

/-- A block with these slots, in order. -/
def withSlots (id : String) (opcode : Opcode) (inferred : ValueType)
    (slots : List (String × Input)) : Block :=
  { id, opcode, inferred, inputs := .ofEntries slots }

/-- A block with two slots of one kind. -/
def pair (id : String) (opcode : Opcode) (inferred : ValueType) (kind : SlotKind)
    (first second : String) (a b : SlotValue) : Block :=
  withSlots id opcode inferred [(first, ⟨kind, a⟩), (second, ⟨kind, b⟩)]

def arithmetic (id : String) (op : ArithmeticOp) (a b : SlotValue) : Block :=
  pair id (.arithmetic op) .number .number "NUM1" "NUM2" a b

def less (id : String) (a b : SlotValue) : Block :=
  pair id .less .boolean .text "OPERAND1" "OPERAND2" a b

def greater (id : String) (a b : SlotValue) : Block :=
  pair id .greater .boolean .text "OPERAND1" "OPERAND2" a b

def equals (id : String) (a b : SlotValue) : Block :=
  pair id .equals .boolean .text "OPERAND1" "OPERAND2" a b

def logic (id : String) (op : LogicOp) (a b : SlotValue) : Block :=
  pair id (.logic op) .boolean .boolean "OPERAND1" "OPERAND2" a b

def join (id : String) (a b : SlotValue) : Block :=
  pair id .join .string .text "STRING1" "STRING2" a b

def negation (id : String) (a : SlotValue) : Block :=
  withSlots id .not .boolean [("OPERAND", ⟨.boolean, a⟩)]

def branch (id : String) (condition : SlotValue) : Block :=
  withSlots id .branch .void
    [("CONDITION", ⟨.boolean, condition⟩), ("SUBSTACK", ⟨.substack, .empty⟩)]

def branchElse (id : String) (condition : SlotValue) : Block :=
  withSlots id .branchElse .void
    [("CONDITION", ⟨.boolean, condition⟩), ("SUBSTACK", ⟨.substack, .empty⟩),
     ("SUBSTACK2", ⟨.substack, .empty⟩)]

/-- Ends what the option names; nothing can follow it. -/
def stop (id : String) (option : String) : Block :=
  { id, opcode := .stop, inferred := .void
    fields := .ofEntries [("STOP_OPTION", ⟨option, none⟩)]
    mutation := some { hasNext := some false } }

def setVariable (id : String) (target : VariableRef) (value : SlotValue) : Block :=
  { withSlots id .setVariable .void [("VALUE", ⟨.text, value⟩)] with
    fields := .ofEntries [("VARIABLE", ⟨target.name, some target.id⟩)] }

def flagClicked (id : String) : Block :=
  { id, opcode := .flagClicked, topLevel := true, inferred := .void }

/-- The opcode of the reporter of an argument of this type. -/
def reporterOpcode (type : ValueType) : Opcode :=
  .reporter (type = .boolean)

/-- The reporter of a function argument. -/
def reporter (id : String) (argument : String) (type : ValueType) (shadow : Bool) : Block :=
  { id, opcode := reporterOpcode type, shadow, inferred := type, argument := some argument
    fields := .ofEntries [("VALUE", ⟨argument, none⟩)] }

end ScriptBlocks.Block
