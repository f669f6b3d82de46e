import ScriptBlocks.Signature

/-!
# Type inference

Sources carry no type annotations: the first typed use of a value whose type is unresolved decides
its type, and every later use must agree.
-/
namespace ScriptBlocks

/-- What inference looks at and may change. -/
structure Inference where
  target : Target
  function : Option Signature

namespace Inference

def variableType (i : Inference) (name : String) : ValueType :=
  ((i.target.variableNamed? name).map Variable.type).getD .unresolved

/-- The type of an operand as far as it is known. -/
def expected (i : Inference) : Operand → ValueType
  | .literal value => value.type
  | .variable ref => i.variableType ref.name
  | .call function _ =>
    ((i.target.functionNamed? function).map Procedure.returnType).getD .unresolved
  | .block id =>
    match i.target.block? id with
    | none => .unresolved
    | some b =>
      match b.argument, i.function with
      | some argument, some signature => (signature.argumentType? argument).getD b.inferred
      | _, _ => b.inferred

/-- The argument of the current function that a block reports. -/
def argumentOf? (i : Inference) (id : String) : Option (String × Signature) :=
  match (i.target.block? id).bind Block.argument, i.function with
  | some argument, some signature =>
    if signature.hasArgument argument then some (argument, signature) else none
  | _, _ => none

/-- Settles the type of a block that reports no argument. -/
def assertBlock (i : Inference) (type : ValueType) (id : String) :
    Except TypeMismatch Inference :=
  match i.target.block? id with
  | none => .ok i
  | some b =>
    if b.inferred = .unresolved then
      .ok { i with target := i.target.modifyBlock id ({ · with inferred := type }) }
    else if b.inferred = type then .ok i
    else .error ⟨type, b.inferred⟩

/-- Checks one operand against a type; an operand of unresolved type adopts it. -/
def assertOperand (i : Inference) (type : ValueType) : Operand → Except TypeMismatch Inference
  | .literal value => if value.type = type then .ok i else .error ⟨type, value.type⟩
  | .variable ref =>
    let found := i.variableType ref.name
    if found = type then .ok i else .error ⟨type, found⟩
  | .call function _ =>
    match i.target.functionNamed? function with
    | none => .ok i
    | some callee =>
      if callee.returnType = .unresolved then
        let target := i.target.modifyFunction function ({ · with returnType := type })
        .ok { i with target }
      else if callee.returnType = type then .ok i
      else .error ⟨type, callee.returnType⟩
  | .block id =>
    match i.argumentOf? id with
    | some (argument, signature) =>
      match signature.settle argument type i.target with
      | .ok (signature, target) => .ok ⟨target, some signature⟩
      | .error mismatch => .error mismatch
    | none => i.assertBlock type id

def note (i : Inference) (type : ValueType) : Inference :=
  { i with target := i.target.note type }

/-- Checks operands from left to right up to the first that disagrees, and notes the type. What the
earlier ones have adopted stays. -/
def assert (i : Inference) (type : ValueType) : List Operand → Option TypeMismatch × Inference
  | [] => (none, i.note type)
  | operand :: operands =>
    match i.assertOperand type operand with
    | .ok i => i.assert type operands
    | .error mismatch => (some mismatch, i.note type)

/-- Lets the operands of unresolved type adopt a type. -/
def hint (i : Inference) (type : ValueType) (operands : List Operand) : Inference :=
  if type = .unresolved then i
  else
    operands.foldl
      (fun i operand =>
        if i.expected operand = .unresolved then (i.assert type [operand]).2 else i)
      i

end Inference
end ScriptBlocks
