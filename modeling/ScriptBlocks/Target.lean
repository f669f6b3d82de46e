import ScriptBlocks.Block.Shapes
import ScriptBlocks.Operand
import ScriptBlocks.Procedure
import ScriptBlocks.Scope

/-!
# Targets

A target is the stage or a sprite: its block graph, its variables, functions and comments, and the
scopes that say where the next block goes. Ids are drawn from one counter per target.
-/
namespace ScriptBlocks

structure Variable where
  name : String
  id : String
  type : ValueType
  /-- Whether the declaring statement has settled the type. -/
  built : Bool
  deriving DecidableEq, Repr

def Variable.ref (v : Variable) : VariableRef :=
  ⟨v.name, v.id⟩

structure Target where
  name : String
  isStage : Bool
  layer : Nat
  blocks : Table Block := .empty
  comments : Table Comment := .empty
  vars : Table Variable := .empty
  functions : Table Procedure := .empty
  scopes : Scopes := []
  /-- How many ids have been drawn. -/
  drawn : Nat := 0
  /-- The block that starts the main script. -/
  entry : Option String := none
  /-- How many scripts have a place on the canvas. -/
  scripts : Nat := 0
  /-- Whether all types that were checked against or settled so far were resolved. -/
  intact : Bool := true

namespace Target

/-- The id with this label and number. -/
def idText (label : String) (number : Nat) : String :=
  label ++ "_" ++ toString number

/-- The id that the next draw gives. -/
def freshId (t : Target) (label : String) : String :=
  idText label (t.drawn + 1)

def draw (t : Target) : Target :=
  { t with drawn := t.drawn + 1 }

/-- Draws the id of a block. -/
def drawBlock (t : Target) : String × Target :=
  (t.freshId "block", t.draw)

def block? (t : Target) (id : String) : Option Block :=
  t.blocks.get? id

def variableNamed? (t : Target) (name : String) : Option Variable :=
  t.vars.get? name

/-- A variable whose declaration is complete. -/
def builtVariable? (t : Target) (name : String) : Option Variable :=
  (t.variableNamed? name).filter (·.built)

def functionNamed? (t : Target) (name : String) : Option Procedure :=
  t.functions.get? name

def modifyBlock (t : Target) (id : String) (f : Block → Block) : Target :=
  { t with blocks := t.blocks.modify id f }

def modifyVariable (t : Target) (name : String) (f : Variable → Variable) : Target :=
  { t with vars := t.vars.modify name f }

def modifyFunction (t : Target) (name : String) (f : Procedure → Procedure) : Target :=
  { t with functions := t.functions.modify name f }

def addFunction (t : Target) (p : Procedure) : Target :=
  { t with functions := t.functions.insert p.name p }

/-- Whether anything besides the start of the main script exists. -/
def hasContent (t : Target) : Bool :=
  !t.vars.isEmpty || t.blocks.keys.any (fun id => some id ≠ t.entry)

/-- Creates a variable unless one of that name exists. -/
def createVariable (t : Target) (name : String) (type : ValueType) : VariableRef × Target :=
  match t.variableNamed? name with
  | some existing => (existing.ref, t)
  | none =>
    let v : Variable := ⟨name, t.name ++ "_" ++ t.freshId "var", type, false⟩
    (v.ref, { t.draw with vars := t.vars.insert name v })

/-- Adds a comment below the earlier ones, left of the scripts. -/
def addComment (t : Target) (text : String) : String × Target :=
  let id := t.freshId "comment"
  let y := Int32.ofNat t.comments.size * 140
  let comment : Comment := ⟨-240, y.toInt, 200, 120, false, text⟩
  (id, { t.draw with comments := t.comments.insert id comment })

/-- Notes a type that operands are checked against or that an argument is given. It should not be the
unresolved one, which could not be adopted. -/
def note (t : Target) (type : ValueType) : Target :=
  { t with intact := t.intact && type ≠ .unresolved }

/-- The places of scripts on the canvas, from the top downwards. They are computed in 32 bits. -/
def place (n : Nat) : Point :=
  ⟨0, (30 + Int32.ofNat n * 320).toInt⟩

def scriptPosition (t : Target) : Point :=
  place t.scripts

def takePosition (t : Target) : Point × Target :=
  (t.scriptPosition, { t with scripts := t.scripts + 1 })

def enter (t : Target) (scope : Scope) : Target :=
  { t with scopes := scope :: t.scopes }

/-- Closes the innermost scope. -/
def exit (t : Target) : Option Scope × Target :=
  (t.scopes.head?, { t with scopes := t.scopes.tail })

def currentStatement (t : Target) : Option String :=
  Scopes.currentStatement t.scopes

def fillSlot (t : Target) (id slot : String) (value : SlotValue) : Target :=
  t.modifyBlock id (·.fill slot value)

def setNext (t : Target) (id : String) (next : Option String) : Target :=
  t.modifyBlock id ({ · with next })

/-- Makes a block the child of another, which it then does not lead any more. -/
def adopt (t : Target) (parent child : String) : Target :=
  t.modifyBlock child ({ · with parent := some parent, topLevel := false })

/-- Writes a block without placing it. The blocks in its slots become its children. -/
def register (t : Target) (b : Block) : Target :=
  let b := if b.parent.isSome then { b with topLevel := false } else b
  let t := b.children.foldl (fun t child => t.adopt b.id child) t
  { t with blocks := t.blocks.insert b.id b }

/-- Places a block where the innermost scope says, and writes it. -/
def addBlock (t : Target) (b : Block) : Target :=
  let (placement, scopes) := Scopes.place t.scopes t.blocks b.id
  let t := { t with scopes }
  match placement with
  | .topLevel =>
    let (position, t) := t.takePosition
    t.register { b with parent := none, topLevel := true, position := some position }
  | .head => t.register { b with parent := none, topLevel := false }
  | .next previous =>
    (t.setNext previous (some b.id)).register { b with parent := some previous }
  | .input parent slot =>
    (t.fillSlot parent slot (.block b.id)).register { b with parent := some parent }
  | .detached => t.register b

/-- Adds the start of the main script the first time a statement needs it, and continues there. -/
def ensureEntry (t : Target) : Target :=
  match t.entry with
  | some _ => t
  | none =>
    let (id, t) := t.drawBlock
    let t := (t.addBlock (.flagClicked id)).enter (.after (some id))
    { t with entry := some id }

/-- Writes a value that is no block into the next slot of the innermost input scope. The slot
counts as taken also when the value is empty. -/
def assign (t : Target) (operand : Operand) : Target :=
  match operand with
  | .block _ => t
  | operand =>
    let (place, scopes) := Scopes.placeValue t.scopes t.blocks
    let t := { t with scopes }
    match place with
    | none => t
    | some (id, slot) =>
      if operand.slotValue = .empty then t else t.fillSlot id slot operand.slotValue

/-- Makes a chain of blocks the body in a slot. -/
def setSubstack (t : Target) (id slot head : String) : Target :=
  match t.block? id with
  | none => t
  | some b =>
    let kind := ((b.inputs.get? slot).map Input.kind).getD .substack
    let t := t.modifyBlock id fun b =>
      { b with inputs := b.inputs.insert slot ⟨kind, .block head⟩ }
    t.adopt id head

/-- Leads whatever led to a statement to a block instead. -/
def redirect (t : Target) (parent : Option String) (statement id : String) : Target :=
  match parent.bind fun p => (t.block? p).map fun b => (p, b) with
  | some (p, b) =>
    if b.next = some statement then t.setNext p (some id)
    else
      match b.slotOf? statement with
      | some slot => t.fillSlot p slot (.block id)
      | none => t
  | none => { t with scopes := t.scopes.map (Scope.rehead statement id) }

/-- Splices a block into its chain directly in front of a statement. -/
def insertBefore (t : Target) (statement id : String) : Target :=
  match t.block? statement with
  | none => t
  | some s =>
    let t := t.redirect s.parent statement id
    let t := t.modifyBlock id
      ({ · with
          parent := s.parent, next := some statement, topLevel := s.topLevel,
          position := s.position })
    t.modifyBlock statement ({ · with parent := some id, topLevel := false, position := none })

/-- Copies a block and the blocks in its slots under fresh ids, to at most the given depth. The
result has the id of the copy and all new ids, the outer ones first. -/
def copyTree (t : Target) (source parent : String) :
    (depth : Nat) → Option (String × List String) × Target
  | 0 => (none, t)
  | depth + 1 =>
    match t.block? source with
    | none => (none, t)
    | some b =>
      let (id, t) := t.drawBlock
      let copy := { b with id, parent := some parent, topLevel := false, next := none }
      let copySlot (state : Block × List String × Target) (slot : String × Input) :
          Block × List String × Target :=
        let (copy, created, t) := state
        match slot.2.block? with
        | none => (copy, created, t)
        | some child =>
          match copyTree t child id depth with
          | (some (childCopy, ids), t) =>
            (copy.fill slot.1 (.block childCopy), created ++ ids, t)
          | (none, t) => (copy, created, t)
      let (copy, created, t) := b.inputs.entries.foldl copySlot (copy, [id], t)
      (some (id, created), { t with blocks := t.blocks.insert id copy })

/-- Copies the tree of blocks below a root. The result lists the new ids, the root's first. -/
def duplicate (t : Target) (root parent : String) : List String × Target :=
  match t.copyTree root parent (t.blocks.size + 1) with
  | (some (_, ids), t) => (ids, t)
  | (none, t) => ([], t)

end Target
end ScriptBlocks
