import ScriptBlocks.Block

/-!
# Procedures

A compiled function: its definition and prototype blocks, its arguments and what it returns.
-/
namespace ScriptBlocks

/-- An argument of a compiled function. -/
structure Argument where
  id : String
  type : ValueType
  deriving DecidableEq, Repr

structure Procedure where
  name : String
  mutation : Mutation
  /-- The arguments by name, in the order of their declaration. -/
  arguments : Table Argument
  prototype : String
  definition : String
  reporters : List String
  returnType : ValueType
  returnVariable : Option VariableRef

namespace Procedure

/-- The variable in which a function of a target leaves its result. -/
def returnVariableName (function target : String) : String :=
  function ++ "_" ++ target ++ "_ReturnValue"

/-- A call of the procedure, with one empty slot per argument. -/
def callBlock (p : Procedure) (id : String) : Block :=
  let slot (a : Argument) : String × Input :=
    (a.id, ⟨if a.type = .boolean then .boolean else .text, .empty⟩)
  { id, opcode := .call, inferred := p.returnType
    inputs := .ofEntries (p.arguments.values.map slot)
    mutation := some
      { proccode := p.mutation.proccode
        argumentIds := p.mutation.argumentIds
        warp := p.mutation.warp } }

end Procedure
end ScriptBlocks
