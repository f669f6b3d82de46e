import ScriptBlocks.Proofs.Slots

/-!
# Changes of a block graph

What the operations of a target do to the blocks that it holds, block by block, and the relation
between two states of a target when scripts are only wired up: blocks keep what they do, and the
ids of new ones have just been drawn.
-/
namespace ScriptBlocks

namespace Target

theorem idText_injective {label : String} {m n : Nat} (h : idText label m = idText label n) :
    m = n := by
  have hl := congrArg String.toList h
  simp only [idText, String.toList_append, List.append_cancel_left_eq] at hl
  have hd : Nat.toDigits 10 m = Nat.toDigits 10 n := by
    rw [← Nat.toList_repr, ← Nat.toList_repr]
    exact hl
  have := congrArg (Nat.ofDigitChars 10 · 0) hd
  simpa [Nat.ofDigitChars_ten_toDigits] using this

theorem block?_modifyBlock (t : Target) (id x : String) (f : Block → Block) :
    (t.modifyBlock id f).block? x = if id = x then (t.block? x).map f else t.block? x :=
  Table.get?_modify t.blocks id x f

theorem block?_modifyBlock_self (t : Target) {id : String} {b : Block} (f : Block → Block)
    (h : t.block? id = some b) : (t.modifyBlock id f).block? id = some (f b) := by
  simp [block?_modifyBlock, h]

theorem block?_modifyBlock_of_ne (t : Target) {id x : String} (f : Block → Block) (h : id ≠ x) :
    (t.modifyBlock id f).block? x = t.block? x := by
  simp [block?_modifyBlock, h]

/-- The parts of a target besides its blocks and the state of placing them. -/
def tables (t : Target) : Target :=
  { t with blocks := .empty, scopes := [], drawn := 0, scripts := 0 }

/-- A target with other blocks. -/
def withBlocks (t : Target) (blocks : Table Block) : Target :=
  { t with blocks }

theorem foldl_modifyBlock_eq (t : Target) (f : Block → Block) (ids : List String) :
    ids.foldl (fun t c => t.modifyBlock c f) t =
      t.withBlocks (ids.foldl (fun t c => t.modifyBlock c f) t).blocks := by
  induction ids generalizing t with
  | nil => rfl
  | cons c ids ih =>
    rw [List.foldl_cons, ih]
    rfl

/-- A change that has its full effect at once may be made several times. -/
theorem block?_foldl_modifyBlock {f : Block → Block} (hf : ∀ b, f (f b) = f b) (t : Target)
    (ids : List String) (x : String) :
    (ids.foldl (fun t c => t.modifyBlock c f) t).block? x =
      if x ∈ ids then (t.block? x).map f else t.block? x := by
  induction ids generalizing t with
  | nil => simp
  | cons c ids ih =>
    rw [List.foldl_cons, ih, block?_modifyBlock]
    by_cases hc : c = x
    · by_cases hx : x ∈ ids <;> cases t.block? x <;> simp [hc, hx, hf]
    · simp [hc, Ne.symm hc]

/-- A block that has become the child of another. -/
def under (p : String) (b : Block) : Block :=
  { b with parent := some p, topLevel := false }

theorem register_eq (t : Target) (b : Block) :
    t.register b = t.withBlocks (t.register b).blocks := by
  have h (b' : Block) : b'.children.foldl (fun t c => t.adopt b'.id c) t = t.withBlocks _ :=
    foldl_modifyBlock_eq t (under b'.id) b'.children
  rw [register, h]
  rfl

@[simp] theorem scopes_register (t : Target) (b : Block) :
    (t.register b).scopes = t.scopes := by
  rw [register_eq]
  rfl

@[simp] theorem drawn_register (t : Target) (b : Block) : (t.register b).drawn = t.drawn := by
  rw [register_eq]
  rfl

@[simp] theorem tables_register (t : Target) (b : Block) :
    (t.register b).tables = t.tables := by
  rw [register_eq]
  rfl

@[simp] theorem scopes_modifyBlock (t : Target) (id : String) (f : Block → Block) :
    (t.modifyBlock id f).scopes = t.scopes := rfl

@[simp] theorem drawn_modifyBlock (t : Target) (id : String) (f : Block → Block) :
    (t.modifyBlock id f).drawn = t.drawn := rfl

@[simp] theorem tables_modifyBlock (t : Target) (id : String) (f : Block → Block) :
    (t.modifyBlock id f).tables = t.tables := rfl

/-- A written block, and the blocks in its slots. -/
theorem block?_register (t : Target) (b : Block) (x : String) :
    (t.register b).block? x =
      if b.id = x then some (if b.parent.isSome then { b with topLevel := false } else b)
      else if x ∈ b.children then (t.block? x).map (under b.id)
      else t.block? x := by
  have hid : (if b.parent.isSome then { b with topLevel := false } else b).id = b.id := by
    split <;> rfl
  have hchildren : (if b.parent.isSome then { b with topLevel := false } else b).children =
      b.children := by
    split <;> rfl
  have hadopt : (b.children.foldl (fun t c => t.adopt b.id c) t).block? x =
      if x ∈ b.children then (t.block? x).map (under b.id) else t.block? x :=
    block?_foldl_modifyBlock (f := under b.id) (fun _ => rfl) t b.children x
  rw [← hadopt]
  simp only [register, block?]
  rw [Table.get?_insert, hid, hchildren]

end Target

namespace Block

/-- What a block does, apart from its slots and its place among the others. -/
def core (b : Block) : Block :=
  { b with next := none, parent := none, inputs := .empty, topLevel := false, position := none }

theorem links_children (b : Block) : b.links.children = b.children := by
  simp only [links, Links.children, children, Table.values, List.filterMap_map]
  rfl

end Block

/-- Only the wiring has changed, and blocks have been added: the slots of blocks outside `O` and
the neighbours of blocks outside `C` are as they were. -/
structure Rewired (O C : String → Prop) (t t' : Target) : Prop where
  old : ∀ {x b}, t.block? x = some b → ∃ b', t'.block? x = some b' ∧ b'.core = b.core ∧
    (¬ O x → b'.inputs = b.inputs) ∧ (¬ C x → b'.next = b.next ∧ b'.parent = b.parent)
  new : ∀ {x b}, t'.block? x = some b → t.block? x = none →
    ∃ n, x = Target.idText "block" n ∧ t.drawn < n ∧ n ≤ t'.drawn
  drawn_le : t.drawn ≤ t'.drawn
  tables : t'.tables = t.tables

namespace Rewired

variable {O C O' C' : String → Prop} {t t' t'' : Target}

theorem of_blocks (hb : t'.blocks = t.blocks) (hd : t'.drawn = t.drawn)
    (ht : t'.tables = t.tables) : Rewired O C t t' := by
  have hlookup : ∀ x, t'.block? x = t.block? x := by
    intro x
    rw [Target.block?, hb]
    rfl
  refine ⟨fun {x b} hx => ⟨b, (hlookup x).trans hx, rfl, fun _ => rfl, fun _ => ⟨rfl, rfl⟩⟩,
    fun {x b} hx hn => ?_, by omega, ht⟩
  rw [hlookup, hn] at hx
  cases hx

theorem mono (h : Rewired O C t t') (hO : ∀ x b, t.block? x = some b → O x → O' x)
    (hC : ∀ x b, t.block? x = some b → C x → C' x) : Rewired O' C' t t' where
  old := by
    intro x b hx
    obtain ⟨b', hb', hcore, hin, hl⟩ := h.old hx
    exact ⟨b', hb', hcore, fun ho => hin fun hO' => ho (hO x b hx hO'),
      fun hc => hl fun hC' => hc (hC x b hx hC')⟩
  new := h.new
  drawn_le := h.drawn_le
  tables := h.tables

theorem trans (h : Rewired O C t t') (h' : Rewired O C t' t'') : Rewired O C t t'' where
  old := by
    intro x b hx
    obtain ⟨b₁, hb₁, hcore₁, hin₁, hl₁⟩ := h.old hx
    obtain ⟨b₂, hb₂, hcore₂, hin₂, hl₂⟩ := h'.old hb₁
    exact ⟨b₂, hb₂, hcore₂.trans hcore₁, fun ho => (hin₂ ho).trans (hin₁ ho),
      fun hc => ⟨(hl₂ hc).1.trans (hl₁ hc).1, (hl₂ hc).2.trans (hl₁ hc).2⟩⟩
  new := by
    intro x b hb hx
    cases hx₁ : t'.block? x with
    | none =>
      obtain ⟨n, hn, hlt, hle⟩ := h'.new hb hx₁
      exact ⟨n, hn, Nat.lt_of_le_of_lt h.drawn_le hlt, hle⟩
    | some b₁ =>
      obtain ⟨n, hn, hlt, hle⟩ := h.new hx₁ hx
      exact ⟨n, hn, hlt, Nat.le_trans hle h'.drawn_le⟩
  drawn_le := Nat.le_trans h.drawn_le h'.drawn_le
  tables := h'.tables.trans h.tables

theorem fillSlot (t : Target) (id slot : String) (value : SlotValue) :
    Rewired (· = id) C t (t.fillSlot id slot value) := by
  have hlookup (x : String) := Target.block?_modifyBlock t id x (·.fill slot value)
  refine ⟨fun {x b} hx => ?_, fun {x b} hx hn => ?_, Nat.le_refl _, rfl⟩
  · by_cases hxq : id = x
    · refine ⟨b.fill slot value, ?_, rfl, fun ho => absurd hxq.symm ho, fun _ => ⟨rfl, rfl⟩⟩
      rw [Target.fillSlot, hlookup, if_pos hxq, hx, Option.map_some]
    · refine ⟨b, ?_, rfl, fun _ => rfl, fun _ => ⟨rfl, rfl⟩⟩
      rw [Target.fillSlot, hlookup, if_neg hxq, hx]
  · rw [Target.fillSlot, hlookup, hn] at hx
    simp at hx

end Rewired

namespace Target

@[simp] theorem tables_addBlock (t : Target) (b : Block) : (t.addBlock b).tables = t.tables := by
  simp only [addBlock]
  split <;> simp only [tables_register] <;> rfl

@[simp] theorem tables_assign (t : Target) (operand : Operand) :
    (t.assign operand).tables = t.tables := by
  simp only [assign]
  split
  next => rfl
  next =>
    split
    next => rfl
    next => split <;> rfl

@[simp] theorem tables_redirect (t : Target) (parent : Option String) (statement id : String) :
    (t.redirect parent statement id).tables = t.tables := by
  simp only [redirect]
  split
  next =>
    split
    next => rfl
    next => split <;> rfl
  next => rfl

@[simp] theorem tables_insertBefore (t : Target) (statement id : String) :
    (t.insertBefore statement id).tables = t.tables := by
  simp only [insertBefore]
  split
  next => rfl
  next => rw [tables_modifyBlock, tables_modifyBlock, tables_redirect]

/-- One slot of a block that is being copied. -/
def copyChild (depth : Nat) (n : String) (state : Block × List String × Target)
    (slot : String × Input) : Block × List String × Target :=
  match slot.2.block? with
  | none => state
  | some child =>
    match state.2.2.copyTree child n depth with
    | (some (childCopy, ids), t) =>
      (state.1.fill slot.1 (.block childCopy), state.2.1 ++ ids, t)
    | (none, t) => (state.1, state.2.1, t)

theorem copyTree_succ {t : Target} {source : String} {b : Block} (h : t.block? source = some b)
    (parent : String) (depth : Nat) :
    t.copyTree source parent (depth + 1) =
      let n := t.freshId "block"
      let state := b.inputs.entries.foldl (copyChild depth n)
        ({ b with id := n, parent := some parent, topLevel := false, next := none }, [n], t.draw)
      (some (n, state.2.1), { state.2.2 with blocks := state.2.2.blocks.insert n state.1 }) := by
  simp only [copyTree, h, drawBlock]
  rfl

/-- Copying only draws ids and writes blocks that are not at the top. -/
theorem copyTree_preserves {P : Target → Prop} (hdraw : ∀ t, P t → P t.draw)
    (hinsert : ∀ t n b, P t → b.topLevel = false → P { t with blocks := t.blocks.insert n b })
    {t : Target} (h : P t) (source parent : String) (depth : Nat) :
    P (t.copyTree source parent depth).2 := by
  induction depth generalizing t source parent with
  | zero => exact h
  | succ depth ih =>
    have hslots (n : String) (slots : List (String × Input)) (state : Block × List String × Target)
        (htop : state.1.topLevel = false) (hstate : P state.2.2) :
        (slots.foldl (copyChild depth n) state).1.topLevel = false ∧
          P (slots.foldl (copyChild depth n) state).2.2 := by
      induction slots generalizing state with
      | nil => exact ⟨htop, hstate⟩
      | cons slot slots ihs =>
        rw [List.foldl_cons]
        refine ihs _ ?_ ?_ <;> simp only [copyChild] <;> split
        · exact htop
        · split <;> exact htop
        · exact hstate
        · next child _ =>
          have hchild := ih hstate child n
          split <;> next hcopy => rwa [hcopy] at hchild
    cases hb : t.block? source with
    | none =>
      simp only [copyTree, hb]
      exact h
    | some b =>
      rw [copyTree_succ hb]
      obtain ⟨htop, hstate⟩ := hslots (t.freshId "block") b.inputs.entries
        ({ b with id := t.freshId "block", parent := some parent, topLevel := false, next := none },
          [t.freshId "block"], t.draw) rfl (hdraw t h)
      exact hinsert _ _ _ hstate htop

theorem duplicate_eq_copyTree (t : Target) (root parent : String) :
    (t.duplicate root parent).2 = (t.copyTree root parent (t.blocks.size + 1)).2 := by
  simp only [duplicate]
  split <;> next hcopy => rw [hcopy]

@[simp] theorem tables_duplicate (t : Target) (root parent : String) :
    (t.duplicate root parent).2.tables = t.tables := by
  rw [duplicate_eq_copyTree]
  exact copyTree_preserves (P := fun t' => t'.tables = t.tables) (fun _ h => h)
    (fun _ _ _ h _ => h) rfl root parent _

end Target
end ScriptBlocks
