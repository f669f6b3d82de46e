import ScriptBlocks.Proofs.Inferred

/-!
# Tops of scripts

A block that has a parent is not at the top of a script. The operations of a target write the two
marks of a block in many places. Each of them keeps the rule whatever its arguments are, so it holds
after any operations in any order, also when ids do not exist, blocks refer to themselves or are
written over.
-/
namespace ScriptBlocks

/-- A block is not both below another one and at the top of a script. -/
def Block.Coherent (b : Block) : Prop :=
  ¬ (b.parent.isSome = true ∧ b.topLevel = true)

namespace Target

/-- An operation that can be performed on a target, with its arguments. -/
inductive Operation where
  /-- An id is drawn, for a block that is made or for a function that is started. -/
  | draw
  | addBlock (b : Block)
  | register (b : Block)
  | assign (operand : Operand)
  | fillSlot (id slot : String) (value : SlotValue)
  | setNext (id : String) (next : Option String)
  | setSubstack (id slot head : String)
  | insertBefore (statement id : String)
  | duplicate (root parent : String)
  /-- The blocks below a root are copied to some depth. -/
  | copyTree (root parent : String) (depth : Nat)
  | enter (scope : Scope)
  | exit
  | ensureEntry
  | createVariable (name : String) (type : ValueType)
  /-- A function decides the type of an argument, and its reporters follow. -/
  | settle (s : Signature) (argument : String) (type : ValueType)
  /-- A function is completed. -/
  | build (s : Signature) (body : Option String)

/-- The target after an operation. -/
def perform (t : Target) : Operation → Target
  | .draw => t.draw
  | .addBlock b => t.addBlock b
  | .register b => t.register b
  | .assign operand => t.assign operand
  | .fillSlot id slot value => t.fillSlot id slot value
  | .setNext id next => t.setNext id next
  | .setSubstack id slot head => t.setSubstack id slot head
  | .insertBefore statement id => t.insertBefore statement id
  | .duplicate root parent => (t.duplicate root parent).2
  | .copyTree root parent depth => (t.copyTree root parent depth).2
  | .enter scope => t.enter scope
  | .exit => t.exit.2
  | .ensureEntry => t.ensureEntry
  | .createVariable name type => (t.createVariable name type).2
  | .settle s argument type =>
    match s.settle argument type t with
    | .ok (_, t) => t
    | .error _ => t
  | .build s body => (s.build body t).2

/-- Every block is coherent. -/
def Coherent (t : Target) : Prop :=
  ∀ ⦃x b⦄, t.block? x = some b → b.Coherent

namespace Coherent

variable {t t' : Target}

theorem of_blocks (h : t.Coherent) (hb : t'.blocks = t.blocks) : t'.Coherent := by
  intro x b hx
  rw [block?, hb] at hx
  exact h hx

theorem modifyBlock (h : t.Coherent) (id : String) {f : Block → Block}
    (hf : ∀ b, b.Coherent → (f b).Coherent) : (t.modifyBlock id f).Coherent := by
  intro x b hx
  rw [block?_modifyBlock] at hx
  split at hx
  next =>
    obtain ⟨b₀, hb₀, rfl⟩ := Option.map_eq_some_iff.1 hx
    exact hf b₀ (h hb₀)
  next => exact h hx

theorem insert (h : t.Coherent) (id : String) {b : Block} (hb : b.Coherent) :
    Coherent { t with blocks := t.blocks.insert id b } := by
  intro x b' hx
  replace hx : (t.blocks.insert id b).get? x = some b' := hx
  rw [Table.get?_insert] at hx
  split at hx
  next =>
    cases hx
    exact hb
  next => exact h hx

theorem fillSlot (h : t.Coherent) (id slot : String) (value : SlotValue) :
    (t.fillSlot id slot value).Coherent :=
  h.modifyBlock id fun _ hb => hb

theorem setNext (h : t.Coherent) (id : String) (next : Option String) :
    (t.setNext id next).Coherent :=
  h.modifyBlock id fun _ hb => hb

/-- A child is not at the top. -/
theorem adopt (h : t.Coherent) (parent child : String) : (t.adopt parent child).Coherent :=
  h.modifyBlock child fun _ _ hb => by simp at hb

/-- A block that is written loses its place at the top if it has a parent. -/
theorem register (h : t.Coherent) (b : Block) : (t.register b).Coherent := by
  intro x b' hx
  rw [block?_register] at hx
  split at hx
  next =>
    cases hx
    rintro ⟨hparent, htop⟩
    split at hparent
    next => simp_all
    next hnone => exact hnone hparent
  next =>
    split at hx
    next =>
      obtain ⟨b₀, -, rfl⟩ := Option.map_eq_some_iff.1 hx
      simp [under, Block.Coherent]
    next => exact h hx

theorem addBlock (h : t.Coherent) (b : Block) : (t.addBlock b).Coherent := by
  simp only [Target.addBlock]
  have hscopes : Coherent { t with scopes := (Scopes.place t.scopes t.blocks b.id).2 } :=
    h.of_blocks rfl
  split
  next =>
    apply register
    exact hscopes.of_blocks rfl
  next => exact hscopes.register _
  next => exact (hscopes.setNext _ _).register _
  next => exact (hscopes.fillSlot _ _ _).register _
  next => exact hscopes.register _

theorem ensureEntry (h : t.Coherent) : t.ensureEntry.Coherent := by
  simp only [Target.ensureEntry]
  split
  · exact h
  · have hdraw : t.draw.Coherent := h.of_blocks rfl
    exact (hdraw.addBlock (.flagClicked (t.freshId "block"))).of_blocks rfl

theorem assign (h : t.Coherent) (operand : Operand) : (t.assign operand).Coherent := by
  simp only [Target.assign]
  split
  · exact h
  · split
    · exact h.of_blocks rfl
    · split
      · exact h.of_blocks rfl
      · exact fillSlot (h.of_blocks rfl) _ _ _

theorem setSubstack (h : t.Coherent) (id slot head : String) :
    (t.setSubstack id slot head).Coherent := by
  simp only [Target.setSubstack]
  split
  · exact h
  · apply adopt
    exact h.modifyBlock id fun _ hb => hb

theorem redirect (h : t.Coherent) (parent : Option String) (statement id : String) :
    (t.redirect parent statement id).Coherent := by
  simp only [Target.redirect]
  split
  · split
    · exact h.setNext _ _
    · split
      · exact h.fillSlot _ _ _
      · exact h
  · exact h.of_blocks rfl

/-- The new block takes over both marks of the statement, which gets a parent itself. -/
theorem insertBefore (h : t.Coherent) (statement id : String) :
    (t.insertBefore statement id).Coherent := by
  simp only [Target.insertBefore]
  split
  · exact h
  · next s hs =>
    have hbefore : ¬ (s.parent.isSome = true ∧ s.topLevel = true) := h hs
    apply modifyBlock
    · exact (h.redirect s.parent statement id).modifyBlock id fun _ _ => hbefore
    · simp [Block.Coherent]

/-- Copies are not at the top. -/
theorem copyTree (h : t.Coherent) (source parent : String) (depth : Nat) :
    (t.copyTree source parent depth).2.Coherent :=
  copyTree_preserves (fun _ h => h.of_blocks rfl)
    (fun _ _ _ h htop => h.insert _ fun hb => by simp [htop] at hb) h source parent depth

theorem duplicate (h : t.Coherent) (root parent : String) :
    (t.duplicate root parent).2.Coherent := by
  rw [duplicate_eq_copyTree]
  exact h.copyTree root parent _

theorem createVariable (h : t.Coherent) (name : String) (type : ValueType) :
    (t.createVariable name type).2.Coherent := by
  simp only [Target.createVariable]
  split
  · exact h
  · exact h.of_blocks rfl

theorem settle (h : t.Coherent) {s s' : Signature} {argument : String} {type : ValueType}
    (hs : s.settle argument type t = .ok (s', t')) : t'.Coherent := by
  obtain ⟨-, rfl, -⟩ | ⟨p, -, -, -, rfl⟩ := Signature.settle_cases hs
  · exact h.of_blocks rfl
  · -- only the shapes of the reporters change
    have hnote : (t.note type).Coherent := h.of_blocks rfl
    clear hs
    generalize p.reporters = reporters, t.note type = t at *
    induction reporters generalizing t with
    | nil => exact hnote
    | cons id reporters ih => exact ih _ (hnote.modifyBlock id fun _ hb => hb)

theorem buildReporters (h : t.Coherent) (prototype : String)
    (arguments : List (String × Parameter)) :
    (Signature.buildReporters prototype arguments t).2.Coherent := by
  induction arguments generalizing t with
  | nil => exact h
  | cons argument arguments ih => exact ih (register (h.of_blocks rfl) _)

/-- The definition is at the top, and all other blocks of a function are below it. -/
theorem build (h : t.Coherent) (s : Signature) (body : Option String) :
    (s.build body t).2.Coherent := by
  have hreporters := h.buildReporters s.prototype s.arguments.entries
  have hheads (prototype definition : Block) :
      (((Signature.buildReporters s.prototype s.arguments.entries t).2.register
        prototype).takePosition.2.register definition).Coherent := by
    apply register
    exact (hreporters.register prototype).of_blocks rfl
  cases body with
  | none => exact hheads _ _
  | some head => exact (hheads _ _).adopt s.definition head

/-- Every operation keeps all blocks coherent. -/
theorem perform (h : t.Coherent) (operation : Operation) : (t.perform operation).Coherent := by
  cases operation with
  | draw => exact h.of_blocks rfl
  | addBlock b => exact h.addBlock b
  | register b => exact h.register b
  | assign operand => exact h.assign operand
  | fillSlot id slot value => exact h.fillSlot id slot value
  | setNext id next => exact h.setNext id next
  | setSubstack id slot head => exact h.setSubstack id slot head
  | insertBefore statement id => exact h.insertBefore statement id
  | duplicate root parent => exact h.duplicate root parent
  | copyTree root parent depth => exact h.copyTree root parent depth
  | enter scope => exact h.of_blocks rfl
  | exit => exact h.of_blocks rfl
  | ensureEntry => exact h.ensureEntry
  | createVariable name type => exact h.createVariable name type
  | settle s argument type =>
    simp only [Target.perform]
    split
    next hs => exact h.settle hs
    next => exact h
  | build s body => exact h.build s body

theorem run (h : t.Coherent) (operations : List Operation) :
    (operations.foldl Target.perform t).Coherent := by
  induction operations generalizing t with
  | nil => exact h
  | cons operation operations ih => exact ih (h.perform operation)

end Coherent

/-- Whatever is done with a new target, a block of it that has a parent is not at the top of a
script. -/
theorem parent_not_topLevel (name : String) (isStage : Bool) (layer : Nat)
    (operations : List Operation) {x : String} {b : Block}
    (hb : (operations.foldl perform { name, isStage, layer }).block? x = some b) :
    ¬ (b.parent.isSome = true ∧ b.topLevel = true) := by
  have hnew : Coherent { name, isStage, layer } := fun y b' hy => by cases hy
  exact hnew.run operations hb

/-- A block that is made as the top of a script follows the start of the main script, and is then put
in front of itself. -/
theorem parent_not_topLevel_self :
    ∃ b, ([.ensureEntry, .addBlock (.flagClicked "a"), .insertBefore "a" "a"].foldl perform
        { name := "Sprite1", isStage := false, layer := 1 }).block? "a" = some b ∧
      b.parent = some "a" ∧ ¬ (b.parent.isSome = true ∧ b.topLevel = true) := by
  let operations : List Operation :=
    [.ensureEntry, .addBlock (.flagClicked "a"), .insertBefore "a" "a"]
  let t : Target := operations.foldl perform { name := "Sprite1", isStage := false, layer := 1 }
  have hparent : (t.block? "a").map Block.parent = some (some "a") := by decide +kernel
  obtain ⟨b, hb, hp⟩ := Option.map_eq_some_iff.1 hparent
  exact ⟨b, hb, hp, parent_not_topLevel "Sprite1" false 1 operations hb⟩

end Target
end ScriptBlocks
