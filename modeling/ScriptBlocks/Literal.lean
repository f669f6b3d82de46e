import ScriptBlocks.Number.Numeral
import ScriptBlocks.Number.Shortest

/-!
# Literal values and their types
-/
namespace ScriptBlocks

/-- The type of a value. A value whose type is not known yet is unresolved, and a block that gives
no value is void. -/
inductive ValueType where
  | boolean
  | number
  | string
  | color
  | unresolved
  | void
  deriving DecidableEq, Repr

def ValueType.name : ValueType → String
  | .boolean => "boolean"
  | .number => "number"
  | .string => "string"
  | .color => "color"
  | .unresolved => "unresolved"
  | .void => "void"

/-- A value written in the source. -/
inductive Literal where
  | number (value : Binary64)
  | text (value : String)
  | boolean (value : Bool)
  | color (value : String)
  deriving DecidableEq, Repr

namespace Literal

/-- A text that is a decimal counts as a number. -/
def type : Literal → ValueType
  | .number _ => .number
  | .text value => if isDecimal value then .number else .string
  | .boolean _ => .boolean
  | .color _ => .color

/-- Whether a literal denotes zero, as a number or as a text that reads as one. -/
def isZero : Literal → Bool
  | .number value => value.isZero
  | .text value => ((readNumber? (Text.trimmed value)).map Binary64.isZero).getD false
  | .boolean _ => false
  | .color _ => false

end Literal
end ScriptBlocks
