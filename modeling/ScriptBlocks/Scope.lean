import ScriptBlocks.Block

/-!
# Attachment scopes

Where the next block goes is decided by the innermost open scope. A sequence chains statements one
after the other; an input scope hands out the unfilled slots of a block in order. With no scope
open a block starts a script of its own.
-/
namespace ScriptBlocks

inductive Scope where
  /-- The block to continue from, and the first block that was chained here. -/
  | sequence (anchor : Option String) (head : Option String)
  /-- The block whose slots are filled, and the first slot to look at. -/
  | inputs (anchor : String) (start : Nat)
  deriving DecidableEq, Repr

namespace Scope

def after (anchor : Option String) : Scope :=
  .sequence anchor none

def head? : Scope → Option String
  | .sequence _ head => head
  | .inputs _ _ => none

def anchor? : Scope → Option String
  | .sequence anchor _ => anchor
  | .inputs anchor _ => some anchor

/-- Makes `replacement` the head of a sequence that started with `head`. -/
def rehead (head replacement : String) : Scope → Scope
  | .sequence anchor (some h) => .sequence anchor (some (if h = head then replacement else h))
  | scope => scope

end Scope

/-- Where a block goes. -/
inductive Placement where
  | topLevel
  | head
  | next (previous : String)
  | input (parent : String) (slot : String)
  | detached
  deriving DecidableEq, Repr

/-- The open scopes, innermost first. -/
abbrev Scopes := List Scope

namespace Scopes

/-- The statement being generated: the last one of the innermost sequence. -/
def currentStatement : Scopes → Option String
  | [] => none
  | .sequence anchor _ :: _ => anchor
  | .inputs _ _ :: scopes => currentStatement scopes

/-- The next unfilled slot of a block, with the index after it. -/
def nextSlot? (blocks : Table Block) (anchor : String) (start : Nat) : Option (String × Nat) :=
  (blocks.get? anchor).bind fun block =>
    (block.firstUnfilled? start).map fun slot => (slot.2, slot.1 + 1)

/-- The place of a block, which the innermost scope then counts as taken. -/
def place (scopes : Scopes) (blocks : Table Block) (id : String) : Placement × Scopes :=
  match scopes with
  | [] => (.topLevel, [])
  | .sequence none head :: outer =>
    (.head, .sequence (some id) (some (head.getD id)) :: outer)
  | .sequence (some previous) head :: outer =>
    (.next previous, .sequence (some id) (some (head.getD id)) :: outer)
  | .inputs anchor start :: outer =>
    match nextSlot? blocks anchor start with
    | some (slot, after) => (.input anchor slot, .inputs anchor after :: outer)
    | none => (.detached, .inputs anchor start :: outer)

/-- The slot for a plain value, if the innermost scope has one left. -/
def placeValue (scopes : Scopes) (blocks : Table Block) : Option (String × String) × Scopes :=
  match scopes with
  | .inputs anchor start :: outer =>
    match nextSlot? blocks anchor start with
    | some (slot, after) => (some (anchor, slot), .inputs anchor after :: outer)
    | none => (none, .inputs anchor start :: outer)
  | scopes => (none, scopes)

end Scopes
end ScriptBlocks
