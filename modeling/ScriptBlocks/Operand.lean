import ScriptBlocks.Block

/-!
# Operands

What an expression amounts to once its blocks exist: a value to be written into a slot, or a block
that already stands in one.
-/
namespace ScriptBlocks

def Literal.payload : Literal → Payload
  | .number value => .number value.toText
  | .text value => .text value
  | .boolean value => .text (if value then "true" else "false")
  | .color value => .color value

inductive Operand where
  | literal (value : Literal)
  | variable (ref : VariableRef)
  | block (id : String)
  /-- The result of a function call, read from the function's return variable. -/
  | call (function : String) (result : Option VariableRef)
  deriving DecidableEq, Repr

/-- How an operand fills a slot. -/
def Operand.slotValue : Operand → SlotValue
  | .literal value => .payload value.payload
  | .variable ref => .payload (.variable ref)
  | .block id => .block id
  | .call _ (some ref) => .payload (.variable ref)
  | .call _ none => .empty

end ScriptBlocks
