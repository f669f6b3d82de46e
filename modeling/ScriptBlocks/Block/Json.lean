import ScriptBlocks.Block
import ScriptBlocks.Json

/-!
# Blocks in a project document

A slot is written as an array of its mode, its contents and what lies under them: `[1, [4, "1"]]`
holds a plain value, `[2, id]` a boolean block or a body, `[3, id, [4, ""]]` a block that covers
the default contents of its slot, and `[3, [12, name, id], [10, ""]]` a variable.
-/
namespace ScriptBlocks

def Payload.toJson : Payload → Json
  | .number value => .array [.integer 4, .string value]
  | .color value => .array [.integer 9, .string value]
  | .text value => .array [.integer 10, .string value]
  | .variable ref => .array [.integer 12, .string ref.name, .string ref.id]

namespace Input

/-- How a slot is filled: `1` with its own contents, `2` with a block over nothing, `3` with a
value over contents that it covers. -/
def mode (input : Input) : Nat :=
  match input.value, input.kind with
  | .empty, _ => 1
  | .payload (.variable _), .boolean => 2
  | .payload (.variable _), _ => 3
  | .payload _, _ => 1
  | .block _, .boolean => 2
  | .block _, .substack => 2
  | .block _, .argument => 1
  | .block _, _ => 3

/-- The contents that a slot's value covers. -/
def covered (input : Input) : Option Payload :=
  match input.value, input.kind with
  | .payload (.variable _), .boolean => none
  | .payload (.variable _), kind => some (kind.default.getD (.text ""))
  | .block _, kind => kind.default
  | _, _ => none

/-- A slot without contents is left out of the document. -/
def isOmitted (input : Input) : Bool :=
  !input.isFilled && input.kind.default.isNone

def contents (input : Input) : Json :=
  match input.value with
  | .empty => .ofOption Payload.toJson input.kind.default
  | .payload value => value.toJson
  | .block id => .string id

def toJson (input : Input) : Json :=
  .array (.integer input.mode :: input.contents :: (input.covered.map Payload.toJson).toList)

end Input

def Field.toJson (field : Field) : Json :=
  .array [.string field.value, .ofOption .string field.id]

/-- Flags are written as words. -/
def flagJson (flag : Bool) : Json :=
  .string (if flag then "true" else "false")

/-- A field that is left out when it has no value. -/
def optionalField (key : String) (toJson : α → Json) (value : Option α) : List (String × Json) :=
  (value.map fun v => (key, toJson v)).toList

def Mutation.toJson (m : Mutation) : Json :=
  .record ([("tagName", .string "mutation"), ("children", .array [])]
    ++ optionalField "proccode" .string m.proccode
    ++ optionalField "argumentids" .string m.argumentIds
    ++ optionalField "argumentnames" .string m.argumentNames
    ++ optionalField "argumentdefaults" .string m.argumentDefaults
    ++ optionalField "warp" flagJson m.warp
    ++ optionalField "hasnext" flagJson m.hasNext)

def Table.toJson (toJson : α → Json) (t : Table α) : Json :=
  .record (t.entries.map fun e => (e.1, toJson e.2))

def Block.toJson (b : Block) : Json :=
  let inputs := b.inputs.entries.filter fun e => !e.2.isOmitted
  .record ([("opcode", .string b.opcode.name), ("next", .ofOption .string b.next),
      ("parent", .ofOption .string b.parent),
      ("inputs", .record (inputs.map fun e => (e.1, e.2.toJson))),
      ("fields", b.fields.toJson Field.toJson), ("shadow", .bool b.shadow),
      ("topLevel", .bool b.topLevel)]
    ++ optionalField "mutation" Mutation.toJson b.mutation
    ++ optionalField "x" (fun p => .integer p.x) b.position
    ++ optionalField "y" (fun p => .integer p.y) b.position)

def Comment.toJson (c : Comment) : Json :=
  .record [("blockId", .null), ("x", .integer c.x), ("y", .integer c.y),
    ("width", .integer c.width), ("height", .integer c.height), ("minimized", .bool c.minimized),
    ("text", .string c.text)]

end ScriptBlocks
