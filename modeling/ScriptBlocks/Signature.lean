import ScriptBlocks.Json
import ScriptBlocks.Target

/-!
# Signatures

The function being compiled. The types of its arguments start unresolved and are settled by their
first typed use; every reporter of an argument is remembered, so that it can follow that decision.
When the body is complete the signature is built into a procedure.
-/
namespace ScriptBlocks

/-- A value had another type than the place for it. -/
structure TypeMismatch where
  expected : ValueType
  found : ValueType
  deriving DecidableEq, Repr

structure Parameter where
  id : String
  type : ValueType
  /-- The blocks that report the argument. -/
  reporters : List String
  deriving DecidableEq, Repr

structure Signature where
  name : String
  definition : String
  prototype : String
  arguments : Table Parameter := .empty
  returnType : ValueType := .unresolved
  returnVariable : Option VariableRef := none
  /-- The arguments in the order in which their types were settled. -/
  settled : List (String × ValueType) := []

namespace Signature

/-- Starts a function: the ids of its definition and prototype are drawn first. -/
def start (name : String) (t : Target) : Signature × Target :=
  let (definition, t) := t.drawBlock
  let (prototype, t) := t.drawBlock
  ({ name, definition, prototype }, t)

def hasArgument (s : Signature) (name : String) : Bool :=
  s.arguments.contains name

def argumentType? (s : Signature) (name : String) : Option ValueType :=
  (s.arguments.get? name).map Parameter.type

/-- Adds an argument, unless its name is taken. -/
def addArgument? (s : Signature) (name : String) (t : Target) : Option (Signature × Target) :=
  if s.hasArgument name then none
  else
    let parameter : Parameter := ⟨t.freshId "argument", .unresolved, []⟩
    some ({ s with arguments := s.arguments.insert name parameter }, t.draw)

def unresolvedArguments (s : Signature) : List String :=
  (s.arguments.entries.filter fun e => e.2.type = .unresolved).map (·.1)

/-- A reporter of an argument, shaped after its present type. -/
def reporter? (s : Signature) (name id : String) : Option Block :=
  (s.argumentType? name).map fun type => .reporter id name type false

/-- Remembers a reporter of an argument. -/
def track (s : Signature) (name block : String) : Signature :=
  { s with
    arguments := s.arguments.modify name fun p => { p with reporters := p.reporters ++ [block] } }

/-- Gives a reporter the shape of its argument's type. -/
def reshape (type : ValueType) (b : Block) : Block :=
  { b with opcode := Block.reporterOpcode type, inferred := type }

/-- Settles the type of an argument, and reshapes its reporters. A settled type stays. -/
def settle (s : Signature) (name : String) (type : ValueType) (t : Target) :
    Except TypeMismatch (Signature × Target) :=
  let t := t.note type
  match s.arguments.get? name with
  | none => .ok (s, t)
  | some parameter =>
    if parameter.type = type then .ok (s, t)
    else if parameter.type ≠ .unresolved then .error ⟨type, parameter.type⟩
    else
      let s :=
        { s with
          arguments := s.arguments.modify name fun p => { p with type }
          settled := s.settled ++ [(name, type)] }
      .ok (s, parameter.reporters.foldl (fun t id => t.modifyBlock id (reshape type)) t)

/-- The name of the procedure with a place for each argument. -/
def proccode (s : Signature) : String :=
  s.arguments.values.foldl
    (fun code p => code ++ if p.type = .boolean then " %b" else " %s") s.name

def mutation (s : Signature) : Mutation :=
  let parameters := s.arguments.values
  let default (p : Parameter) : String := if p.type = .boolean then "false" else ""
  { proccode := some s.proccode
    argumentIds := some (Json.strings (parameters.map Parameter.id)).compact
    argumentNames := some (Json.strings s.arguments.keys).compact
    argumentDefaults := some (Json.strings (parameters.map default)).compact
    warp := some false }

/-- Writes the shadow reporters of the arguments. The result has a slot of the prototype for each
of them, in order. -/
def buildReporters (prototype : String) :
    List (String × Parameter) → Target → List (String × Input) × Target
  | [], t => ([], t)
  | (name, p) :: arguments, t =>
    let (id, t) := t.drawBlock
    let t := t.register { Block.reporter id name p.type true with parent := some prototype }
    let (slots, t) := buildReporters prototype arguments t
    ((p.id, ⟨.argument, .block id⟩) :: slots, t)

/-- Completes a function: writes its definition, its prototype and the reporters there, and makes
`body` the script below the definition. -/
def build (s : Signature) (body : Option String) (t : Target) : Procedure × Target :=
  let (slots, t) := buildReporters s.prototype s.arguments.entries t
  let t := t.register
    { id := s.prototype, opcode := .prototype, parent := some s.definition, shadow := true
      mutation := some s.mutation, inputs := .ofEntries slots }
  let (position, t) := t.takePosition
  let t := t.register
    { id := s.definition, opcode := .definition, topLevel := true, position := some position
      inputs := .ofEntries [("custom_block", ⟨.argument, .block s.prototype⟩)]
      inferred := .void, next := body }
  let t :=
    match body with
    | some head => t.adopt s.definition head
    | none => t
  let argument (e : String × Parameter) : String × Argument := (e.1, ⟨e.2.id, e.2.type⟩)
  let procedure : Procedure :=
    { name := s.name
      mutation := s.mutation
      arguments := .ofEntries (s.arguments.entries.map argument)
      prototype := s.prototype
      definition := s.definition
      reporters := slots.filterMap (·.2.block?)
      returnType := if s.returnType = .unresolved then .void else s.returnType
      returnVariable := s.returnVariable }
  (procedure, t)

end Signature
end ScriptBlocks
