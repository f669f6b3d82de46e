import ScriptBlocks.Block

/-!
# Scripts as trees

A script read back from a block graph: a chain of blocks is followed through `next`, and the
blocks in the slots of a block are its subtrees. Ids, positions and types are left out.
-/
namespace ScriptBlocks

mutual

/-- A block with what its slots hold. -/
inductive Tree where
  | node (opcode : Opcode) (fields : List (String × Field)) (mutation : Option Mutation)
      (slots : List (String × Content))

/-- What a slot holds: nothing, a plain value, or a chain of blocks. -/
inductive Content where
  | empty
  | payload (value : Payload)
  | script (blocks : List Tree)

end

/-- What is read of a block. -/
structure View where
  opcode : Opcode
  fields : List (String × Field)
  mutation : Option Mutation
  slots : List (String × SlotValue)
  next : Option String

mutual

/-- The block `x` and those below it read as a tree. `S` holds of the blocks below. -/
def Tree.At (look : String → Option View) (S : String → Prop) (x : String) : Tree → Prop
  | .node opcode fields mutation slots =>
    ∃ v, look x = some v ∧ v.opcode = opcode ∧ v.fields = fields ∧ v.mutation = mutation ∧
      SlotsAt look S v.slots slots

def SlotsAt (look : String → Option View) (S : String → Prop) :
    List (String × SlotValue) → List (String × Content) → Prop
  | [], [] => True
  | (name, value) :: values, (name', content) :: slots =>
    name = name' ∧ content.At look S value ∧ SlotsAt look S values slots
  | _, _ => False

def Content.At (look : String → Option View) (S : String → Prop) : SlotValue → Content → Prop
  | .empty, .empty => True
  | .payload value, .payload value' => value = value'
  | .block x, .script blocks => ScriptAt look S (some x) blocks
  | _, _ => False

/-- The chain of blocks that starts here reads as a script. -/
def ScriptAt (look : String → Option View) (S : String → Prop) : Option String → List Tree → Prop
  | none, [] => True
  | some x, tree :: rest =>
    S x ∧ tree.At look S x ∧ ∃ v, look x = some v ∧ ScriptAt look S v.next rest
  | _, _ => False

end

/-- Two views of a block that differ at most in what follows it. -/
def View.SameBlock (v v' : View) : Prop :=
  v'.opcode = v.opcode ∧ v'.fields = v.fields ∧ v'.mutation = v.mutation ∧ v'.slots = v.slots

theorem View.SameBlock.rfl {v : View} : v.SameBlock v :=
  ⟨Eq.refl _, Eq.refl _, Eq.refl _, Eq.refl _⟩

section

variable {look look' : String → Option View} {S S' : String → Prop}

mutual

/-- A tree reads the same where its blocks look the same. -/
theorem Tree.At.mono (hS : ∀ y v, S y → look y = some v → S' y ∧ look' y = some v) {x : String}
    (hx : ∀ v, look x = some v → ∃ v', look' x = some v' ∧ v.SameBlock v') :
    (tree : Tree) → tree.At look S x → tree.At look' S' x
  | .node opcode fields mutation slots, h => by
    obtain ⟨v, hv, ho, hf, hm, hs⟩ := h
    obtain ⟨v', hv', ho', hf', hm', hs'⟩ := hx v hv
    exact ⟨v', hv', ho'.trans ho, hf'.trans hf, hm'.trans hm, hs' ▸ slotsAt_mono hS _ slots hs⟩

theorem slotsAt_mono (hS : ∀ y v, S y → look y = some v → S' y ∧ look' y = some v) :
    (values : List (String × SlotValue)) → (slots : List (String × Content)) →
      SlotsAt look S values slots → SlotsAt look' S' values slots
  | [], [], _ => trivial
  | _ :: _, [], h => h
  | [], _ :: _, h => h
  | (_, value) :: values, (_, content) :: slots, ⟨hn, hc, hs⟩ =>
    ⟨hn, Content.At.mono hS value content hc, slotsAt_mono hS values slots hs⟩

theorem Content.At.mono (hS : ∀ y v, S y → look y = some v → S' y ∧ look' y = some v) :
    (value : SlotValue) → (content : Content) → content.At look S value → content.At look' S' value
  | .empty, .empty, _ => trivial
  | .payload _, .payload _, h => h
  | .block x, .script blocks, h => scriptAt_mono hS (some x) blocks h
  | .empty, .payload _, h => h
  | .empty, .script _, h => h
  | .payload _, .empty, h => h
  | .payload _, .script _, h => h
  | .block _, .empty, h => h
  | .block _, .payload _, h => h

theorem scriptAt_mono (hS : ∀ y v, S y → look y = some v → S' y ∧ look' y = some v) :
    (start : Option String) → (blocks : List Tree) → ScriptAt look S start blocks →
      ScriptAt look' S' start blocks
  | none, [], _ => trivial
  | none, _ :: _, h => h
  | some _, [], h => h
  | some x, tree :: rest, ⟨hx, ht, v, hv, hr⟩ =>
    ⟨(hS x v hx hv).1, Tree.At.mono hS (fun v' hv' => by
        rw [hv] at hv'
        cases hv'
        exact ⟨v, (hS x v hx hv).2, .rfl⟩) tree ht,
      v, (hS x v hx hv).2, scriptAt_mono hS v.next rest hr⟩

end

theorem slotsAt_nil {values : List (String × SlotValue)} (h : SlotsAt look S values []) :
    values = [] := by
  cases values with
  | nil => rfl
  | cons => exact h.elim

theorem slotsAt_cons {values : List (String × SlotValue)} {name : String} {content : Content}
    {slots : List (String × Content)} (h : SlotsAt look S values ((name, content) :: slots)) :
    ∃ value rest, values = (name, value) :: rest ∧ content.At look S value ∧
      SlotsAt look S rest slots := by
  cases values with
  | nil => exact h.elim
  | cons first rest =>
    obtain ⟨rfl, hvalue, hrest⟩ := h
    exact ⟨first.2, rest, rfl, hvalue, hrest⟩

end

end ScriptBlocks
