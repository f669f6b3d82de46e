import ScriptBlocks.Block.Shapes
import ScriptBlocks.Operand
import ScriptBlocks.Procedure
import ScriptBlocks.Proofs.Tree

/-!
# The direct translation

What a program means as scripts, without a graph: an expression is the content of a slot and the
calls that have to run before it, a statement is the blocks it adds to its script. The names in a
script are given a meaning by an environment.
-/
namespace ScriptBlocks

/-- What the names in a script stand for. -/
structure Env where
  variableRef : String → Option VariableRef
  procedure : String → Option Procedure
  /-- The types of the arguments of the function whose body the script is. -/
  argumentType : String → Option ValueType
  /-- The variable for the result of that function. -/
  result : Option VariableRef

namespace Tree

/-- A block without fields. -/
def plain (opcode : Opcode) (slots : List (String × Content)) : Tree :=
  .node opcode [] none slots

def reporter (argument : String) (type : ValueType) : Tree :=
  .node (Block.reporterOpcode type) [("VALUE", ⟨argument, none⟩)] none []

def arithmetic (op : ArithmeticOp) (left right : Content) : Tree :=
  plain (.arithmetic op) [("NUM1", left), ("NUM2", right)]

/-- A comparison or a connective. -/
def relation (opcode : Opcode) (left right : Content) : Tree :=
  plain opcode [("OPERAND1", left), ("OPERAND2", right)]

def negation (operand : Content) : Tree :=
  plain .not [("OPERAND", operand)]

def sign (symbol : String) (operand : Content) : Tree :=
  plain .join [("STRING1", .payload (.text symbol)), ("STRING2", operand)]

def setVariable (ref : VariableRef) (value : Content) : Tree :=
  .node .setVariable [("VARIABLE", ⟨ref.name, some ref.id⟩)] none [("VALUE", value)]

def stop : Tree :=
  .node .stop [("STOP_OPTION", ⟨"this script", none⟩)] (some { hasNext := some false }) []

/-- The contents of slots with these names. One that has no slot gets an empty name. -/
def slotsNamed : List String → List Content → List (String × Content)
  | _, [] => []
  | names, content :: contents => (names.headD "", content) :: slotsNamed names.tail contents

/-- A call of a procedure, with a slot for each of its arguments. -/
def call (p : Procedure) (arguments : List Content) : Tree :=
  .node .call []
    (some { proccode := p.mutation.proccode
            argumentIds := p.mutation.argumentIds
            warp := p.mutation.warp })
    (slotsNamed (p.arguments.values.map Argument.id) arguments)

end Tree

/-- The content of a slot for a body. -/
def Content.body : List Tree → Content
  | [] => .empty
  | blocks => .script blocks

def Tree.branch (condition : Content) (body : List Tree) (otherwise : Option (List Tree)) : Tree :=
  match otherwise with
  | none => .plain .branch [("CONDITION", condition), ("SUBSTACK", .body body)]
  | some otherwise =>
    .plain .branchElse
      [("CONDITION", condition), ("SUBSTACK", .body body), ("SUBSTACK2", .body otherwise)]

namespace Env

/-- The variable of a name. One that is not known has no id. -/
def ref (env : Env) (name : String) : VariableRef :=
  (env.variableRef name).getD ⟨name, ""⟩

/-- The function of a name. One that is not known has no arguments. -/
def callee (env : Env) (name : String) : Procedure :=
  (env.procedure name).getD
    { name, mutation := {}, arguments := .empty, prototype := "", definition := ""
      reporters := [], returnType := .void, returnVariable := none }

/-- A name as the content of a slot. -/
def name (env : Env) (name : String) : Content :=
  match env.argumentType name with
  | some type => .script [.reporter name type]
  | none => .payload (.variable (env.ref name))

/-- The result of a call, once it has run. -/
def resultOf (env : Env) (function : String) : Content :=
  .payload (.variable ((env.callee function).returnVariable.getD ⟨function, ""⟩))

def unary (op : UnaryOp) (operand : Content) : Tree :=
  match op with
  | .not => .negation operand
  | .plus => .sign "+" operand
  | .minus => .sign "-" operand

def binary (op : BinaryOp) (left right : Content) : Tree :=
  match op with
  | .arithmetic op => .arithmetic op left right
  | .logic op => .relation (.logic op) left right
  | .comparison .equal => .relation .equals left right
  | .comparison .notEqual => .negation (.script [.relation .equals left right])
  | .comparison .less => .relation .less left right
  | .comparison .greater => .relation .greater left right
  | .comparison .lessOrEqual =>
    .relation (.logic .or) (.script [.relation .less left right])
      (.script [.relation .equals left right])
  | .comparison .greaterOrEqual =>
    .relation (.logic .or) (.script [.relation .greater left right])
      (.script [.relation .equals left right])

/-- An expression as the content of a slot. -/
def content (env : Env) : Expr → Content
  | .literal value _ => .payload value.payload
  | .name n _ => env.name n
  | .paren inner _ => env.content inner
  | .unary op _ e _ => .script [unary op (env.content e)]
  | .binary op _ left right _ => .script [binary op (env.content left) (env.content right)]
  | .call f _ _ => env.resultOf f

/-- A call of a function by its name. -/
def call (env : Env) (function : String) (arguments : List Expr) : Tree :=
  .call (env.callee function) (arguments.map env.content)

mutual

/-- The calls in an expression, in the order in which they run. -/
def calls (env : Env) : Expr → List Tree
  | .literal _ _ => []
  | .name _ _ => []
  | .paren inner _ => env.calls inner
  | .unary _ _ e _ => env.calls e
  | .binary _ _ left right _ => env.calls left ++ env.calls right
  | .call f arguments _ => env.callsOf arguments ++ [env.call f arguments]

def callsOf (env : Env) : List Expr → List Tree
  | [] => []
  | e :: es => env.calls e ++ env.callsOf es

end

/-- The block that gives a variable a value. -/
def set (env : Env) (variableName : String) (value : Content) : Tree :=
  .setVariable (env.ref variableName) value

/-- The block that leaves a result in the return variable. -/
def setResult (env : Env) (value : Content) : Tree :=
  .setVariable (env.result.getD ⟨"", ""⟩) value

mutual

/-- The blocks of a statement. -/
def statement (env : Env) : Statement → List Tree
  | .declare target value _ => env.calls value ++ [env.set target.name (env.content value)]
  | .assign target none _ value _ => env.calls value ++ [env.set target.name (env.content value)]
  | .assign target (some op) _ value _ =>
    env.calls value ++
      [env.set target.name (.script [.arithmetic op (env.name target.name) (env.content value)])]
  | .yield value _ => env.calls value ++ [env.setResult (env.content value), .stop]
  | .call f arguments _ => env.callsOf arguments ++ [env.call f arguments]
  | .branch condition body otherwise _ =>
    env.calls condition ++
      [.branch (env.content condition) (env.script body) (env.alternative otherwise)]
  | .function _ _ _ _ => []
  | .directive _ _ => []
  | .comment _ _ => []

/-- The blocks of statements that follow each other. -/
def script (env : Env) : List Statement → List Tree
  | [] => []
  | s :: rest => env.statement s ++ env.script rest

def alternative (env : Env) : Alternative → Option (List Tree)
  | .none => none
  | .block body => some (env.script body)
  | .branch condition body otherwise _ =>
    some (env.calls condition ++
      [.branch (env.content condition) (env.script body) (env.alternative otherwise)])

end

end Env
end ScriptBlocks
