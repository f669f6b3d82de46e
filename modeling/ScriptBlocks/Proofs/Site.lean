import ScriptBlocks.Proofs.Chain
import ScriptBlocks.Proofs.Graph

/-!
# Where a script grows

While a script is compiled its statements form a chain, and the innermost scopes are those of the
operators whose operands are missing. The lemmas below say how each way to place a block keeps
this picture and what it changes in the graph.
-/
namespace ScriptBlocks

/-- The graph is linked, and ids that have not been drawn are free. -/
structure Sound (t : Target) : Prop where
  linked : Linked t.links
  fresh : ∀ {n}, t.drawn < n → t.block? (Target.idText "block" n) = none

/-- The surroundings of a growing script. -/
structure Script where
  /-- The block that starts the script, unless it is a body that nothing holds yet. -/
  base : Option String
  /-- The scopes around the script. -/
  outer : Scopes

/-- The scopes that fill the slots of these blocks, each from an index on. -/
def inputScopes (inputs : List (String × Nat)) : Scopes :=
  inputs.map fun a => .inputs a.1 a.2

/-- A script consists of the blocks `ids` so far, and `inputs` are its open input scopes. -/
structure Sited (t : Target) (σ : Script) (inputs : List (String × Nat)) (ids : List String) :
    Prop where
  sound : Sound t
  chain : Chain t.links none (σ.base.toList ++ ids) none
  nodup : (σ.base.toList ++ ids).Nodup
  scopes : ∃ head, t.scopes = inputScopes inputs ++
      .sequence (σ.base.toList ++ ids).getLast? head :: σ.outer ∧
    (∀ h, head = some h → h ∈ ids) ∧ (σ.base = none → head = ids.head?)
  apart : ∀ {anchor h}, .sequence anchor (some h) ∈ σ.outer →
    (∃ b, t.block? h = some b) ∧ h ∉ ids

theorem Target.links_eq_some {t : Target} {x : String} {b : Block} (h : t.block? x = some b) :
    t.links x = some b.links := by
  simp [Target.links, h]

theorem Target.exists_of_links {t : Target} {x : String} {l : Links} (h : t.links x = some l) :
    ∃ b, t.block? x = some b ∧ b.links = l := by
  simpa [Target.links] using h

/-- The ids that a target can draw next are free also after blocks have been added. -/
theorem Rewired.fresh {O C : String → Prop} {t t' : Target} (h : Rewired O C t t')
    (hs : Sound t) {n : Nat} (hn : t'.drawn < n) : t'.block? (Target.idText "block" n) = none := by
  cases hb : t'.block? (Target.idText "block" n) with
  | none => rfl
  | some b =>
    have hle := h.drawn_le
    obtain ⟨m, hm, -, hle'⟩ := h.new hb (hs.fresh (by omega))
    have := Target.idText_injective hm
    omega

namespace Sited

variable {t t' : Target} {σ : Script} {inputs : List (String × Nat)} {ids : List String}
variable {O C : String → Prop}

theorem exists_block (h : Sited t σ inputs ids) {x : String} (hx : x ∈ σ.base.toList ++ ids) :
    ∃ b, t.block? x = some b := by
  obtain ⟨l, hl⟩ := h.chain.exists_links hx
  obtain ⟨b, hb, -⟩ := Target.exists_of_links hl
  exact ⟨b, hb⟩

theorem base_isSome (h : Sited t σ inputs ids) : ∀ x ∈ σ.base, (t.block? x).isSome := by
  intro x hx
  obtain ⟨b, hb⟩ := h.exists_block (x := x) (by simp [show σ.base = some x from hx])
  simp [hb]

theorem fresh_block (h : Sited t σ inputs ids) : t.block? (t.freshId "block") = none :=
  h.sound.fresh (Nat.lt_succ_self _)

theorem fresh_not_mem (h : Sited t σ inputs ids) : t.freshId "block" ∉ σ.base.toList ++ ids := by
  intro hm
  obtain ⟨b, hb⟩ := h.exists_block hm
  simp [h.fresh_block] at hb

/-- A change elsewhere in the graph leaves the script as it is. -/
theorem resite (h : Sited t σ inputs ids) (hs : Sound t')
    (hold : ∀ x b, t.block? x = some b → ∃ b', t'.block? x = some b' ∧
      (x ∈ σ.base.toList ++ ids → b'.next = b.next ∧ b'.parent = b.parent))
    {inputs' : List (String × Nat)}
    (hscopes : ∀ scopes, t.scopes = inputScopes inputs ++ scopes →
      t'.scopes = inputScopes inputs' ++ scopes) :
    Sited t' σ inputs' ids where
  sound := hs
  chain := by
    refine h.chain.congr fun x hx l hl => ?_
    obtain ⟨b, hb, rfl⟩ := Target.exists_of_links hl
    obtain ⟨b', hb', hlinks⟩ := hold x b hb
    exact ⟨b'.links, Target.links_eq_some hb', (hlinks hx).2, (hlinks hx).1⟩
  nodup := h.nodup
  scopes := by
    obtain ⟨head, hs, hmem, hhead⟩ := h.scopes
    exact ⟨head, hscopes _ hs, hmem, hhead⟩
  apart := by
    intro anchor x hx
    obtain ⟨⟨b, hb⟩, hnot⟩ := h.apart hx
    obtain ⟨b', hb', -⟩ := hold _ b hb
    exact ⟨⟨b', hb'⟩, hnot⟩

theorem transfer (h : Sited t σ inputs ids) (hr : Rewired O C t t')
    (hC : ∀ x ∈ σ.base.toList ++ ids, ¬ C x) (hl : Linked t'.links)
    {inputs' : List (String × Nat)}
    (hscopes : ∀ scopes, t.scopes = inputScopes inputs ++ scopes →
      t'.scopes = inputScopes inputs' ++ scopes) :
    Sited t' σ inputs' ids := by
  refine h.resite ⟨hl, hr.fresh h.sound⟩ (fun x b hb => ?_) hscopes
  obtain ⟨b', hb', -, -, hlinks⟩ := hr.old hb
  exact ⟨b', hb', fun hx => hlinks (hC x hx)⟩

theorem enter_inputs (h : Sited t σ inputs ids) (A : String) (k : Nat) :
    Sited (t.enter (.inputs A k)) σ ((A, k) :: inputs) ids := by
  obtain ⟨head, hs, hmem, hhead⟩ := h.scopes
  refine ⟨⟨h.sound.linked, h.sound.fresh⟩, h.chain, h.nodup, ⟨head, ?_, hmem, hhead⟩, h.apart⟩
  simp only [Target.enter, hs]
  rfl

theorem exit_inputs {a : String × Nat} (h : Sited t σ (a :: inputs) ids) :
    Sited t.exit.2 σ inputs ids := by
  obtain ⟨head, hs, hmem, hhead⟩ := h.scopes
  refine ⟨⟨h.sound.linked, h.sound.fresh⟩, h.chain, h.nodup, ⟨head, ?_, hmem, hhead⟩, h.apart⟩
  simp only [Target.exit, hs]
  rfl

end Sited

/-- The next free slot of a block is the one that is handed out. -/
theorem Scopes.nextSlot?_of_free {blocks : Table Block} {anchor : String} {a : Block}
    {start : Nat} {slot : String} {rest : List String} (ha : blocks.get? anchor = some a)
    (hfree : a.free start = slot :: rest) :
    ∃ i input, nextSlot? blocks anchor start = some (slot, i + 1) ∧
      a.inputs.entries[i]? = some (slot, input) ∧ input.value = .empty ∧ a.free (i + 1) = rest := by
  obtain ⟨i, input, hf, hi, he, hr⟩ := Block.firstUnfilled?_of_free hfree
  exact ⟨i, input, by simp [nextSlot?, ha, hf], hi, he, hr⟩

theorem Block.refs_links_eq_nil {b : Block} (hnext : b.next = none) (hchildren : b.children = []) :
    b.links.refs = [] := by
  rw [Links.refs, Block.links_children, hchildren]
  simp [Block.links, hnext]

theorem Block.free_eq_of_inputs {b b' : Block} (h : b'.inputs = b.inputs) (k : Nat) :
    b'.free k = b.free k := by
  rw [Block.free, Block.free, h]

namespace Sited

variable {t : Target} {σ : Script} {F : List (String × Nat)} {ids : List String}
variable {A slot : String} {k : Nat} {a b : Block} {rest : List String}

/-- A block that may be written under a fresh id. -/
structure Fits (t : Target) (σ : Script) (ids : List String) (A : String) (b : Block) : Prop where
  id_eq : b.id = t.freshId "block"
  next : b.next = none
  nodup : b.children.Nodup
  child : ∀ y ∈ b.children, ∃ m, t.block? y = some m ∧ m.parent = none ∧ m.links.refs = [] ∧
    y ≠ A ∧ y ∉ σ.base.toList ++ ids

end Sited

/-- A block has been written into a slot of the block `A`, and it has its own children below it. -/
structure Target.Slotted (t t' : Target) (A slot : String) (b : Block) : Prop where
  drawn : t'.drawn = t.drawn + 1
  tables : t'.tables = t.tables
  block? : ∀ x, t'.block? x = if b.id = x then some (under A b)
    else if x ∈ b.children then (t.block? x).map (under b.id)
    else if A = x then (t.block? x).map (·.fill slot (.block b.id))
    else t.block? x

/-- The block is placed in the slot that is handed out. -/
theorem Target.slotted {t : Target} {A slot : String} {k i : Nat} {b : Block} {outer : Scopes}
    (hs : t.scopes = .inputs A k :: outer)
    (hslot : Scopes.nextSlot? t.blocks A k = some (slot, i + 1)) (hA : A ∉ b.children) :
    t.Slotted (t.draw.addBlock b) A slot b ∧
      (t.draw.addBlock b).scopes = .inputs A (i + 1) :: outer := by
  have heq : t.draw.addBlock b =
      ({ t.draw with scopes := .inputs A (i + 1) :: outer }.fillSlot A slot (.block b.id)).register
        { b with parent := some A } := by
    have hs : t.draw.scopes = .inputs A k :: outer := hs
    have hslot : Scopes.nextSlot? t.draw.blocks A k = some (slot, i + 1) := hslot
    simp only [addBlock, Scopes.place, hs, hslot]
  refine ⟨⟨?_, ?_, fun x => ?_⟩, ?_⟩
  · rw [heq, drawn_register]
    rfl
  · rw [heq, tables_register]
    rfl
  · rw [heq, block?_register, fillSlot, block?_modifyBlock]
    by_cases hx : x ∈ b.children
    · have hAx : A ≠ x := fun e => hA (e ▸ hx)
      have hx' : x ∈ ({ b with parent := some A } : Block).children := hx
      simp only [hx, hx', hAx, if_true, if_false]
      rfl
    · have hx' : x ∉ ({ b with parent := some A } : Block).children := hx
      simp only [hx, hx', if_false]
      rfl
  · rw [heq, scopes_register]
    rfl

namespace Target.Slotted

variable {t t' : Target} {A slot x : String} {a b bx : Block} (h : t.Slotted t' A slot b)

include h

theorem eq_of_new (hx : t'.block? x = some bx) (hn : t.block? x = none) : x = b.id := by
  rw [h.block?] at hx
  by_cases hxn : b.id = x
  · exact hxn.symm
  · simp [hxn, hn] at hx

theorem rewired (hid : b.id = t.freshId "block") (hnew : t.block? b.id = none) :
    Rewired (· = A) (· ∈ b.children) t t' := by
  have hdrawn := h.drawn
  refine ⟨fun {x bx} hx => ?_, fun {x bx} hx hn => ?_, by omega, h.tables⟩
  · have hxn : b.id ≠ x := ne_of_found hnew hx
    rw [h.block?, if_neg hxn, hx]
    split
    next hxc => exact ⟨_, rfl, rfl, fun _ => rfl, fun hc => absurd hxc hc⟩
    next =>
      split
      next hxA => exact ⟨_, rfl, rfl, fun ho => absurd hxA.symm ho, fun _ => ⟨rfl, rfl⟩⟩
      next => exact ⟨bx, rfl, rfl, fun _ => rfl, fun _ => ⟨rfl, rfl⟩⟩
  · exact ⟨t.drawn + 1, h.eq_of_new hx hn ▸ hid, Nat.lt_succ_self _, by omega⟩

theorem linked {input : Input} (hl : Linked t.links) (hnew : t.block? b.id = none)
    (hA : t.block? A = some a) (hA' : t'.block? A = some (a.fill slot (.block b.id)))
    (hmem : (slot, input) ∈ a.inputs.entries) (hempty : input.value = .empty)
    (hnext : b.next = none) (hnodup : b.children.Nodup)
    (hchild : ∀ y ∈ b.children, ∃ m, t.block? y = some m ∧ m.parent = none ∧ m.links.refs = [] ∧
      y ≠ A) : Linked t'.links := by
  obtain ⟨hperm, hslots⟩ := Block.links_fill_block (n := b.id) hmem hempty
  have hself : t'.block? b.id = some (under A b) := by simp [h.block?]
  refine hl.place (n := b.id) (a := A) (l := b.links) (by simp [links, hnew]) (links_eq_some hA) rfl
    hnext (by rw [Block.links_children]; exact hnodup) (links_eq_some hself) (fun y hy => ?_)
    (links_eq_some hA') rfl rfl hperm (fun name y hm => (hslots name y hm).imp id (·.2)) (.inl rfl)
    fun x hxn hxA hxc => ?_
  · rw [Block.links_children] at hy
    obtain ⟨m, hm, hp, hr, hne⟩ := hchild y hy
    have hyn : b.id ≠ y := ne_of_found hnew hm
    exact ⟨m.links, links_eq_some hm, hp, hr, hne,
      links_eq_some (b := under b.id m) (by simp [h.block?, hyn, hy, hm])⟩
  · rw [Block.links_children] at hxc
    simp [links, h.block?, Ne.symm hxn, Ne.symm hxA, hxc]

end Target.Slotted

namespace Sited

variable {t : Target} {σ : Script} {F : List (String × Nat)} {ids : List String}
variable {A slot : String} {k : Nat} {a b : Block} {rest : List String}

/-- A block goes into the next free slot of an operator. -/
theorem place_input (h : Sited t σ ((A, k) :: F) ids) (hA : t.block? A = some a)
    (hfree : a.free k = slot :: rest) (hb : Fits t σ ids A b) :
    ∃ k', Sited (t.draw.addBlock b) σ ((A, k') :: F) ids ∧
      Rewired (· = A) (· ∈ b.children) t (t.draw.addBlock b) ∧
      (∀ x bx, (t.draw.addBlock b).block? x = some bx → t.block? x = none → x = b.id) ∧
      (t.draw.addBlock b).block? b.id = some (Target.under A b) ∧
      ∃ a', (t.draw.addBlock b).block? A = some a' ∧
        a'.inputs = (a.fill slot (.block b.id)).inputs ∧ a'.free k' = rest := by
  obtain ⟨i, input, hslot, hi, hempty, hrest⟩ := Scopes.nextSlot?_of_free hA hfree
  have hnew : t.block? b.id = none := hb.id_eq ▸ h.fresh_block
  have hAb : b.id ≠ A := ne_of_found hnew hA
  have hAc : A ∉ b.children := by
    intro hm
    obtain ⟨m, -, -, -, hne, -⟩ := hb.child A hm
    exact hne rfl
  obtain ⟨head, hscopes, -⟩ := h.scopes
  obtain ⟨hslotted, hscopes'⟩ := Target.slotted hscopes hslot hAc
  have hA' : (t.draw.addBlock b).block? A = some (a.fill slot (.block b.id)) := by
    simp [hslotted.block?, hAb, hAc, hA]
  have hrew := hslotted.rewired hb.id_eq hnew
  have hlinked := hslotted.linked h.sound.linked hnew hA hA' (List.mem_of_getElem? hi) hempty
    hb.next hb.nodup fun y hy => by
      obtain ⟨m, hm, hp, hr, hne, -⟩ := hb.child y hy
      exact ⟨m, hm, hp, hr, hne⟩
  refine ⟨i + 1, h.transfer hrew (fun x hx hxc => ?_) hlinked fun scopes hs => ?_, hrew,
    fun x bx => hslotted.eq_of_new, by simp [hslotted.block?], _, hA', rfl, ?_⟩
  · obtain ⟨m, -, -, -, -, hnot⟩ := hb.child x hxc
    exact hnot hx
  · rw [hscopes', ← List.append_cancel_left (hscopes.symm.trans hs)]
    rfl
  · rw [Block.free_fill _ hi, hrest]

/-- A block is written without being placed. -/
theorem register (h : Sited t σ F ids) (hid : b.id = t.freshId "block") (hnext : b.next = none)
    (hparent : b.parent = none) (hchildren : b.children = []) :
    Sited (t.draw.register b) σ F ids ∧
      Rewired (fun _ => False) (fun _ => False) t (t.draw.register b) ∧
      (∀ x bx, (t.draw.register b).block? x = some bx → t.block? x = none → x = b.id) ∧
      (t.draw.register b).block? b.id = some b := by
  have hnew : t.block? b.id = none := hid ▸ h.fresh_block
  have hlookup : ∀ x, (t.draw.register b).block? x =
      if b.id = x then some b else t.block? x := by
    intro x
    simp only [Target.block?_register, hparent, hchildren, Option.isSome_none, Bool.false_eq_true,
      if_false, List.not_mem_nil]
    rfl
  have honly : ∀ x bx, (t.draw.register b).block? x = some bx → t.block? x = none → x = b.id := by
    intro x bx hx hn
    rw [hlookup] at hx
    by_cases hxn : b.id = x
    · exact hxn.symm
    · simp [hxn, hn] at hx
  have hrew : Rewired (fun _ => False) (fun _ => False) t (t.draw.register b) := by
    refine ⟨fun {x bx} hx => ?_, fun {x bx} hx hn => ?_, ?_, ?_⟩
    · have hxn : b.id ≠ x := ne_of_found hnew hx
      exact ⟨bx, by simp [hlookup, hxn, hx], rfl, fun _ => rfl, fun _ => ⟨rfl, rfl⟩⟩
    · refine ⟨t.drawn + 1, honly x bx hx hn ▸ hid, Nat.lt_succ_self _, ?_⟩
      rw [Target.drawn_register]
      exact Nat.le_refl _
    · rw [Target.drawn_register]
      exact Nat.le_succ _
    · rw [Target.tables_register]
      rfl
  have hbn : (t.draw.register b).block? b.id = some b := by simp [hlookup]
  have hrefs : b.links.refs = [] := Block.refs_links_eq_nil hnext hchildren
  have hlinked : Linked (t.draw.register b).links := by
    refine h.sound.linked.add (n := b.id) (l := b.links) (by simp [Target.links, hnew])
      (Target.links_eq_some hbn) rfl hparent (by simp [hrefs]) (by simp [hrefs]) ?_ ?_
    · intro slot y hs
      exact absurd (Links.mem_refs.2 (.inr ⟨slot, hs⟩)) (by simp [hrefs])
    · intro x hxn _
      simp [Target.links, hlookup, Ne.symm hxn]
  refine ⟨h.transfer hrew (fun _ _ => id) hlinked fun scopes hs => ?_, hrew, honly, hbn⟩
  rw [Target.scopes_register]
  exact hs

end Sited

/-- A block has been written at the end of a script, after the block `last` if there is one. -/
structure Target.Continued (t t' : Target) (last : Option String) (b b' : Block) : Prop where
  core : b'.core = b.core
  inputs : b'.inputs = b.inputs
  next : b'.next = none
  parent : b'.parent = last
  drawn : t'.drawn = t.drawn + 1
  tables : t'.tables = t.tables
  block? : ∀ x, t'.block? x = if b.id = x then some b' else
    if last = some x then (t.block? x).map ({ · with next := some b.id }) else t.block? x
  linked : Linked t'.links

namespace Target.Continued

variable {t t' : Target} {last : Option String} {b b' bx : Block} {x : String}
variable (h : t.Continued t' last b b')

include h

theorem block?_self : t'.block? b.id = some b' := by
  simp [h.block?]

theorem eq_of_new (hx : t'.block? x = some bx) (hn : t.block? x = none) : x = b.id := by
  rw [h.block?] at hx
  by_cases hxn : b.id = x
  · exact hxn.symm
  · simp [hxn, hn] at hx

theorem block?_last (hnew : t.block? b.id = none) (hx : t.block? x = some bx)
    (hl : last = some x) : t'.block? x = some { bx with next := some b.id } := by
  have hxn : b.id ≠ x := ne_of_found hnew hx
  rw [h.block?, if_neg hxn, if_pos hl, hx]
  rfl

theorem block?_other (hnew : t.block? b.id = none) (hx : t.block? x = some bx)
    (hl : last ≠ some x) : t'.block? x = some bx := by
  have hxn : b.id ≠ x := ne_of_found hnew hx
  rw [h.block?, if_neg hxn, if_neg hl, hx]

theorem rewired {C : String → Prop} (hid : b.id = t.freshId "block") (hnew : t.block? b.id = none)
    (hC : ∀ x, last = some x → C x) : Rewired (fun _ => False) C t t' := by
  have hdrawn := h.drawn
  refine ⟨fun {x bx} hx => ?_, fun {x bx} hx hn => ?_, by omega, h.tables⟩
  · by_cases hl : last = some x
    · exact ⟨_, h.block?_last hnew hx hl, rfl, fun _ => rfl, fun hc => absurd (hC x hl) hc⟩
    · exact ⟨bx, h.block?_other hnew hx hl, rfl, fun _ => rfl, fun _ => ⟨rfl, rfl⟩⟩
  · exact ⟨t.drawn + 1, h.eq_of_new hx hn ▸ hid, Nat.lt_succ_self _, by omega⟩

end Target.Continued

namespace Target

variable {t : Target} {b : Block} {head : Option String} {outer : Scopes}

/-- A block begins a body. -/
theorem continued_first (hl : Linked t.links) (hnew : t.block? b.id = none)
    (hnext : b.next = none) (hchildren : b.children = [])
    (hs : t.scopes = .sequence none head :: outer) :
    t.Continued (t.draw.addBlock b) none b { b with parent := none, topLevel := false } ∧
      (t.draw.addBlock b).scopes = .sequence (some b.id) (some (head.getD b.id)) :: outer := by
  have heq : t.draw.addBlock b =
      { t.draw with scopes := .sequence (some b.id) (some (head.getD b.id)) :: outer }.register
      { b with parent := none, topLevel := false } := by
    have hs : t.draw.scopes = .sequence none head :: outer := hs
    simp only [addBlock, Scopes.place, hs]
  have hlookup : ∀ x, (t.draw.addBlock b).block? x =
      if b.id = x then some { b with parent := none, topLevel := false } else t.block? x := by
    intro x
    have hc : ({ b with parent := none, topLevel := false } : Block).children = [] := hchildren
    rw [heq]
    simp only [block?_register, hc, Option.isSome_none, Bool.false_eq_true, if_false,
      List.not_mem_nil]
    rfl
  refine ⟨⟨rfl, rfl, hnext, rfl, by rw [heq]; simp; rfl, by rw [heq]; simp; rfl,
    by simpa using hlookup, ?_⟩, by rw [heq]; simp⟩
  have hrefs : ({ b.links with parent := none } : Links).refs = [] :=
    Block.refs_links_eq_nil hnext hchildren
  refine hl.add (n := b.id) (l := { b.links with parent := none }) (by simp [links, hnew]) ?_ rfl rfl
    (by simp [hrefs]) (by simp [hrefs]) (fun slot y hm => ?_) fun x hxn _ => ?_
  · exact links_eq_some (b := { b with parent := none, topLevel := false }) (by simp [hlookup])
  · exact absurd (Links.mem_refs.2 (.inr ⟨slot, hm⟩)) (by simp [hrefs])
  · simp [links, hlookup, Ne.symm hxn]

/-- A block follows the last one. -/
theorem continued_after {last : String} {bl : Block} (hl : Linked t.links)
    (hnew : t.block? b.id = none) (hnext : b.next = none) (hchildren : b.children = [])
    (hlast : t.block? last = some bl) (hln : bl.next = none) (hval : NotValue t.links last)
    (hs : t.scopes = .sequence (some last) head :: outer) :
    t.Continued (t.draw.addBlock b) (some last) b (under last b) ∧
      (t.draw.addBlock b).scopes = .sequence (some b.id) (some (head.getD b.id)) :: outer := by
  have hne : b.id ≠ last := ne_of_found hnew hlast
  have heq : t.draw.addBlock b =
      ({ t.draw with
        scopes := .sequence (some b.id) (some (head.getD b.id)) :: outer }.setNext last
          (some b.id)).register { b with parent := some last } := by
    have hs : t.draw.scopes = .sequence (some last) head :: outer := hs
    simp only [addBlock, Scopes.place, hs]
  have hlookup : ∀ x, (t.draw.addBlock b).block? x = if b.id = x then some (under last b) else
      if some last = some x then (t.block? x).map ({ · with next := some b.id })
      else t.block? x := by
    intro x
    have hc : ({ b with parent := some last } : Block).children = [] := hchildren
    rw [heq]
    simp only [block?_register, hc, Option.isSome_some, if_true, List.not_mem_nil, if_false,
      setNext, block?_modifyBlock, Option.some.injEq]
    rfl
  refine ⟨⟨rfl, rfl, hnext, rfl, by rw [heq]; simp; rfl, by rw [heq]; simp; rfl, hlookup, ?_⟩,
    by rw [heq]; simp; rfl⟩
  have hrefs : bl.links.refs = bl.links.children := by
    simp [Links.refs, Block.links, hln]
  refine hl.place (n := b.id) (a := last) (l := b.links) (by simp [links, hnew])
    (links_eq_some hlast) rfl hnext (by simp [Block.links_children, hchildren])
    (links_eq_some (b := under last b) (by simp [hlookup]))
    (by simp [Block.links_children, hchildren])
    (links_eq_some (b := { bl with next := some b.id }) (by simp [hlookup, hne, hlast]))
    rfl rfl ?_ (fun _ _ hm => .inl hm) (.inr hval) fun x hxn hxl _ => ?_
  · rw [hrefs]
    exact .refl _
  · simp [links, hlookup, Ne.symm hxn, Ne.symm hxl]

end Target

namespace Sited

variable {t t' : Target} {σ : Script} {F : List (String × Nat)} {ids : List String}
variable {A slot : String} {k : Nat} {a b b' : Block} {rest : List String} {head : Option String}

/-- The script ends with the new block. -/
theorem continued (h : Sited t σ [] ids) (hid : b.id = t.freshId "block")
    (hc : t.Continued t' (σ.base.toList ++ ids).getLast? b b')
    (hmem : ∀ y, head = some y → y ∈ ids) (hhead : σ.base = none → head = ids.head?)
    (hscopes : t'.scopes = .sequence (some b.id) (some (head.getD b.id)) :: σ.outer) :
    Sited t' σ [] (ids ++ [b.id]) := by
  have hnew : t.block? b.id = none := hid ▸ h.fresh_block
  have hrew : Rewired (fun _ => False) (· ∈ σ.base.toList ++ ids) t t' :=
    hc.rewired hid hnew fun x => List.mem_of_getLast?
  refine ⟨⟨hc.linked, hrew.fresh h.sound⟩, ?_, ?_, ⟨some (head.getD b.id), ?_, ?_, ?_⟩, ?_⟩
  · rw [← List.append_assoc]
    refine h.chain.snoc h.nodup (Target.links_eq_some hc.block?_self) ?_ hc.next ?_ ?_
    · rw [Option.or_none]
      exact hc.parent
    · intro x hx m hm
      obtain ⟨bx, hbx, rfl⟩ := Target.exists_of_links hm
      exact ⟨_, Target.links_eq_some (hc.block?_last hnew hbx hx), rfl, rfl⟩
    · intro x _ hx m hm
      obtain ⟨bx, hbx, rfl⟩ := Target.exists_of_links hm
      exact ⟨_, Target.links_eq_some (hc.block?_other hnew hbx hx), rfl, rfl⟩
  · rw [← List.append_assoc]
    refine List.nodup_append.2 ⟨h.nodup, by simp, ?_⟩
    rintro x hx y hy rfl
    exact h.fresh_not_mem (hid ▸ List.mem_singleton.1 hy ▸ hx)
  · rw [hscopes, ← List.append_assoc, List.getLast?_concat]
    rfl
  · rintro y ⟨⟩
    cases head with
    | none => simp
    | some y => exact List.mem_append_left _ (hmem y rfl)
  · intro hbase
    rw [hhead hbase]
    cases ids <;> simp
  · intro anchor x hx
    obtain ⟨⟨bx, hbx⟩, hnot⟩ := h.apart hx
    obtain ⟨bx', hbx', -⟩ := hrew.old hbx
    refine ⟨⟨bx', hbx'⟩, ?_⟩
    rw [List.mem_append, List.mem_singleton]
    rintro (hm | rfl)
    · exact hnot hm
    · simp [hnew] at hbx

/-- A block continues the script. -/
theorem place_next (h : Sited t σ [] ids) (hid : b.id = t.freshId "block")
    (hnext : b.next = none) (hchildren : b.children = []) :
    Sited (t.draw.addBlock b) σ [] (ids ++ [b.id]) ∧
      Rewired (fun _ => False) (· ∈ σ.base.toList ++ ids) t (t.draw.addBlock b) ∧
      (∀ x bx, (t.draw.addBlock b).block? x = some bx → t.block? x = none → x = b.id) ∧
      ∃ b', (t.draw.addBlock b).block? b.id = some b' ∧ b'.core = b.core ∧
        b'.inputs = b.inputs := by
  have hnew : t.block? b.id = none := hid ▸ h.fresh_block
  obtain ⟨head, hscopes, hmem, hhead⟩ := h.scopes
  have hcontinued : ∃ b', t.Continued (t.draw.addBlock b) (σ.base.toList ++ ids).getLast? b b' ∧
      (t.draw.addBlock b).scopes = .sequence (some b.id) (some (head.getD b.id)) :: σ.outer := by
    cases hl : (σ.base.toList ++ ids).getLast? with
    | none =>
      rw [hl] at hscopes
      exact ⟨_, Target.continued_first h.sound.linked hnew hnext hchildren hscopes⟩
    | some last =>
      rw [hl] at hscopes
      have hlast : last ∈ σ.base.toList ++ ids := List.mem_of_getLast? hl
      obtain ⟨front, hf⟩ := List.getLast?_eq_some_iff.1 hl
      have hchain := h.chain
      rw [hf] at hchain
      obtain ⟨-, l, hlinks, -, hln⟩ := (Chain.snoc_iff last).1 hchain
      obtain ⟨bl, hbl, rfl⟩ := Target.exists_of_links hlinks
      exact ⟨_, Target.continued_after h.sound.linked hnew hnext hchildren hbl hln
        (h.chain.notValue h.sound.linked hlast) hscopes⟩
  obtain ⟨b', hc, hscopes'⟩ := hcontinued
  exact ⟨h.continued hid hc hmem hhead hscopes', hc.rewired hid hnew fun x => List.mem_of_getLast?,
    fun x bx => hc.eq_of_new, b', hc.block?_self, hc.core, hc.inputs⟩

/-- A plain value goes into the next free slot of an operator. -/
theorem assign (h : Sited t σ ((A, k) :: F) ids) (hA : t.block? A = some a)
    (hfree : a.free k = slot :: rest) {v : Operand} (hv : ∀ id, v ≠ .block id) :
    ∃ k', Sited (t.assign v) σ ((A, k') :: F) ids ∧
      Rewired (· = A) (fun _ => False) t (t.assign v) ∧
      (∀ x, t.block? x = none → (t.assign v).block? x = none) ∧
      ∃ a', (t.assign v).block? A = some a' ∧
        a'.inputs = (a.fill slot v.slotValue).inputs ∧ a'.free k' = rest := by
  obtain ⟨i, input, hslot, hi, hempty, hrest⟩ :=
    Scopes.nextSlot?_of_free hA hfree
  have hmem : (slot, input) ∈ a.inputs.entries := List.mem_of_getElem? hi
  obtain ⟨head, hscopes, -⟩ := h.scopes
  have hs : t.scopes = .inputs A k :: (inputScopes F ++
      .sequence (σ.base.toList ++ ids).getLast? head :: σ.outer) := hscopes
  let t₁ : Target := { t with scopes := .inputs A (i + 1) :: (inputScopes F ++
      Scope.sequence (σ.base.toList ++ ids).getLast? head :: σ.outer) }
  have heq : t.assign v =
      if v.slotValue = .empty then t₁ else t₁.fillSlot A slot v.slotValue := by
    rcases v with value | ref | id | ⟨f, ref⟩
    case block => exact absurd rfl (hv id)
    all_goals
      simp only [Target.assign, Scopes.placeValue, hs, hslot]
      rfl
  have hvalue : ∀ id, v.slotValue ≠ .block id := by
    intro id
    rcases v with value | ref | id' | ⟨f, _ | ref⟩
    case block => exact absurd rfl (hv id')
    all_goals simp [Operand.slotValue]
  have hlookup : ∀ x, (t.assign v).block? x =
      if A = x ∧ v.slotValue ≠ .empty then (t.block? x).map (·.fill slot v.slotValue)
      else t.block? x := by
    intro x
    rw [heq]
    split
    next he => simp [he]; rfl
    next he =>
      rw [Target.fillSlot, Target.block?_modifyBlock]
      simp [he]
      rfl
  have hlinks : (t.assign v).links = t.links := by
    funext x
    simp only [Target.links, hlookup]
    split
    next hx =>
      obtain ⟨rfl, -⟩ := hx
      rw [hA, Option.map_some, Option.map_some, Option.map_some]
      refine congrArg some (Block.links_fill_of_ne_block (fun input' hm => ?_) hvalue)
      have h1 := Table.get?_eq_some_iff.2 hmem
      have h2 := Table.get?_eq_some_iff.2 hm
      rw [h1] at h2
      cases h2
      simp [Input.block?, hempty]
    next => rfl
  have hscopes' : (t.assign v).scopes = t₁.scopes := by
    rw [heq]
    split <;> rfl
  have hrew : Rewired (· = A) (fun _ => False) t (t.assign v) := by
    refine ⟨fun {x bx} hx => ?_, fun {x bx} hx hn => ?_, ?_, ?_⟩
    · rw [hlookup]
      split
      next hc =>
        exact ⟨bx.fill slot v.slotValue, by simp [hx], rfl, fun ho => absurd hc.1.symm ho,
          fun _ => ⟨rfl, rfl⟩⟩
      next => exact ⟨bx, hx, rfl, fun _ => rfl, fun _ => ⟨rfl, rfl⟩⟩
    · rw [hlookup] at hx
      split at hx <;> simp [hn] at hx
    · rw [heq]
      split <;> exact Nat.le_refl _
    · rw [heq]
      split <;> rfl
  refine ⟨i + 1, h.transfer hrew (fun _ _ => id) (hlinks ▸ h.sound.linked) ?_, hrew, ?_, ?_⟩
  · intro scopes hsc
    rw [hscopes] at hsc
    rw [hscopes', ← List.append_cancel_left hsc]
    rfl
  · intro x hx
    rw [hlookup, hx]
    split <;> rfl
  · by_cases he : v.slotValue = .empty
    · refine ⟨a, by simp [hlookup, he, hA], ?_, ?_⟩
      · rw [he, Block.fill_empty hmem hempty]
      · exact hrest
    · refine ⟨a.fill slot v.slotValue, by simp [hlookup, he, hA], rfl, ?_⟩
      rw [Block.free_fill _ hi, hrest]

end Sited

/-- The block `c` is to be spliced in directly before `s`. If there is a block above `s`, then `s`
follows it. -/
structure Target.Preceded (t : Target) (s c : String) (bs bc : Block) : Prop where
  below : t.block? s = some bs
  above : t.block? c = some bc
  ne : c ≠ s
  ne_below : bs.parent ≠ some s
  ne_above : bs.parent ≠ some c
  prev : ∀ {p}, bs.parent = some p → ∃ bp, t.block? p = some bp ∧ bp.next = some s

namespace Target.Preceded

variable {t : Target} {s c : String} {bs bc : Block} (h : t.Preceded s c bs bc)

include h

theorem block?_redirect (x : String) : (t.redirect bs.parent s c).block? x =
    if bs.parent = some x then (t.block? x).map ({ · with next := some c }) else t.block? x := by
  cases hp : bs.parent with
  | none =>
    simp [redirect]
    rfl
  | some p =>
    obtain ⟨bp, hbp, hn⟩ := h.prev hp
    simp [redirect, hbp, hn, setNext, block?_modifyBlock]

theorem block?_insertBefore (x : String) : (t.insertBefore s c).block? x =
    if x = s then some { bs with parent := some c, topLevel := false, position := none }
    else if x = c then some { bc with
      parent := bs.parent, next := some s, topLevel := bs.topLevel, position := bs.position }
    else if bs.parent = some x then (t.block? x).map ({ · with next := some c })
    else t.block? x := by
  simp only [insertBefore, h.below, block?_modifyBlock, h.block?_redirect]
  by_cases hxs : x = s
  · subst hxs
    simp [h.ne, h.ne_below, h.below]
  · by_cases hxc : x = c
    · subst hxc
      simp [hxs, Ne.symm hxs, h.ne_above, h.above]
    · simp [hxs, hxc, Ne.symm hxs, Ne.symm hxc]

theorem drawn_insertBefore : (t.insertBefore s c).drawn = t.drawn := by
  simp only [insertBefore, h.below, drawn_modifyBlock]
  cases hp : bs.parent with
  | none => rfl
  | some p =>
    obtain ⟨bp, hbp, hn⟩ := h.prev hp
    simp [redirect, hbp, hn, setNext]

/-- Where nothing is above the other block, it may have been the head of a sequence. -/
theorem scopes_insertBefore : (t.insertBefore s c).scopes =
    if bs.parent = none then t.scopes.map (Scope.rehead s c) else t.scopes := by
  simp only [insertBefore, h.below, scopes_modifyBlock]
  cases hp : bs.parent with
  | none => simp [redirect]
  | some p =>
    obtain ⟨bp, hbp, hn⟩ := h.prev hp
    simp [redirect, hbp, hn, setNext]

theorem block?_eq_none {x : String} (hx : t.block? x = none) :
    (t.insertBefore s c).block? x = none := by
  have hxs : x ≠ s := ne_of_found hx h.below
  have hxc : x ≠ c := ne_of_found hx h.above
  simp [h.block?_insertBefore, hxs, hxc, hx]

/-- Only the two blocks and the one above are linked in another way. -/
theorem rewired {C : String → Prop} (hs : C s) (hc : C c) (hp : ∀ p, bs.parent = some p → C p) :
    Rewired (fun _ => False) C t (t.insertBefore s c) := by
  refine ⟨fun {x b} hx => ?_, fun {x b} hx hn => ?_, Nat.le_of_eq h.drawn_insertBefore.symm,
    tables_insertBefore t s c⟩
  · rw [h.block?_insertBefore]
    by_cases hxs : x = s
    · subst hxs
      cases hx.symm.trans h.below
      exact ⟨_, if_pos rfl, rfl, fun _ => rfl, fun hno => absurd hs hno⟩
    by_cases hxc : x = c
    · subst hxc
      cases hx.symm.trans h.above
      exact ⟨_, (if_neg hxs).trans (if_pos rfl), rfl, fun _ => rfl, fun hno => absurd hc hno⟩
    simp only [hxs, hxc, if_false, hx]
    split
    next hpx => exact ⟨_, rfl, rfl, fun _ => rfl, fun hno => absurd (hp x hpx) hno⟩
    next => exact ⟨b, rfl, rfl, fun _ => rfl, fun _ => ⟨rfl, rfl⟩⟩
  · simp [h.block?_eq_none hn] at hx

theorem links_below : (t.insertBefore s c).links s = some { bs.links with parent := some c } :=
  links_eq_some (b := { bs with parent := some c, topLevel := false, position := none })
    (by simp [h.block?_insertBefore])

theorem links_above :
    (t.insertBefore s c).links c = some { bc.links with parent := bs.parent, next := some s } :=
  links_eq_some (b := { bc with
    parent := bs.parent, next := some s, topLevel := bs.topLevel, position := bs.position })
    (by simp [h.block?_insertBefore, h.ne])

theorem links_prev {p : String} {bp : Block} (hp : bs.parent = some p) (hbp : t.block? p = some bp) :
    (t.insertBefore s c).links p = some { bp.links with next := some c } := by
  have hps : p ≠ s := fun e => h.ne_below (e ▸ hp)
  have hpc : p ≠ c := fun e => h.ne_above (e ▸ hp)
  exact links_eq_some (b := { bp with next := some c })
    (by simp [h.block?_insertBefore, hps, hpc, hp, hbp])

theorem links_other {x : String} (hxs : x ≠ s) (hxc : x ≠ c) (hp : bs.parent ≠ some x) :
    (t.insertBefore s c).links x = t.links x := by
  simp [links, h.block?_insertBefore, hxs, hxc, hp]

theorem spliced (hl : Linked t.links) (hroot : bc.parent = none) (hlast : bc.next = none)
    (hapart : ¬ Above t.links c s) (hval : NotValue t.links s) :
    Spliced t.links (t.insertBefore s c).links s c bs.links bc.links where
  old := hl
  below := links_eq_some h.below
  above := links_eq_some h.above
  root := hroot
  last := hlast
  apart := hapart
  notValue := hval
  below' := h.links_below
  above' := h.links_above
  holder p lp hp hlp := by
    obtain ⟨bp, hbp, hn⟩ := h.prev hp
    cases hlp.symm.trans (links_eq_some hbp)
    have hnodup := hl.nodup (links_eq_some hbp)
    have hout := hl.not_mem_of_root (links_eq_some h.above) hroot (links_eq_some hbp)
    have hrefs : bp.links.refs = s :: bp.links.children := by
      simp [Links.refs, Block.links, hn]
    have hrefs' : ({ bp.links with next := some c } : Links).refs = c :: bp.links.children := rfl
    rw [hrefs] at hnodup hout
    obtain ⟨hs, hnodup⟩ := List.nodup_cons.1 hnodup
    refine ⟨_, h.links_prev hp hbp, rfl, rfl, ?_, fun y => ?_, fun hnone => ?_, fun _ _ hm _ => hm⟩
    · rw [hrefs']
      exact List.nodup_cons.2 ⟨fun hm => hout (List.mem_cons_of_mem _ hm), hnodup⟩
    · rw [hrefs', hrefs]
      grind
    · simp [Block.links, hn] at hnone
  other x hxs hxc hp := h.links_other hxs hxc hp

end Target.Preceded

namespace Sited

variable {t : Target} {σ : Script} {F : List (String × Nat)} {pre : List String} {s c : String}

theorem rehead_outer {ids : List String} (h : Sited t σ F ids) (hs : s ∈ ids) :
    σ.outer.map (Scope.rehead s c) = σ.outer := by
  refine (List.map_congr_left fun scope hm => ?_).trans (List.map_id _)
  cases scope with
  | inputs anchor start => rfl
  | sequence anchor head =>
    cases head with
    | none => rfl
    | some y =>
      have hy : y ≠ s := by
        rintro rfl
        exact (h.apart hm).2 hs
      simp [Scope.rehead, hy]

theorem rehead_inputScopes (F : List (String × Nat)) (s c : String) :
    (inputScopes F).map (Scope.rehead s c) = inputScopes F := by
  simp only [inputScopes, List.map_map]
  rfl

/-- What leads to the statement at the end of a script is the block before it. -/
theorem preceded {bc : Block} (h : Sited t σ F (pre ++ [s])) (hc : t.block? c = some bc)
    (hout : c ∉ σ.base.toList ++ (pre ++ [s])) :
    ∃ bs, t.Preceded s c bs bc ∧ bs.parent = (σ.base.toList ++ pre).getLast? ∧ bs.next = none := by
  have hchain := h.chain
  have hnodup := h.nodup
  rw [← List.append_assoc] at hchain hnodup hout
  obtain ⟨hfront, ls, hls, hparent, hnext⟩ := (Chain.snoc_iff s).1 hchain
  obtain ⟨bs, hbs, rfl⟩ := Target.exists_of_links hls
  rw [Option.or_none] at hparent
  have hparent : bs.parent = (σ.base.toList ++ pre).getLast? := hparent
  refine ⟨bs, ⟨hbs, hc, ?_, fun he => ?_, fun he => ?_, fun {p} hp => ?_⟩, hparent, hnext⟩
  · rintro rfl
    exact hout (by simp)
  · have hm := List.mem_of_getLast? (hparent ▸ he)
    exact (List.nodup_append.1 hnodup).2.2 s hm s (by simp) rfl
  · exact hout (List.mem_append_left _ (List.mem_of_getLast? (hparent ▸ he)))
  · obtain ⟨front, hf⟩ := List.getLast?_eq_some_iff.1 (hparent ▸ hp)
    rw [hf] at hfront
    obtain ⟨-, l, hl, -, hn⟩ := (Chain.snoc_iff p).1 hfront
    obtain ⟨bp, hbp, rfl⟩ := Target.exists_of_links hl
    exact ⟨bp, hbp, hn⟩

/-- The spliced block becomes the head of its sequence if it comes first. -/
theorem scopes_spliced {bs bc : Block} (h : Sited t σ F (pre ++ [s]))
    (hpreceded : t.Preceded s c bs bc) (hparent : bs.parent = (σ.base.toList ++ pre).getLast?) :
    ∃ head, (t.insertBefore s c).scopes = inputScopes F ++
        .sequence (σ.base.toList ++ (pre ++ [c, s])).getLast? head :: σ.outer ∧
      (∀ y, head = some y → y ∈ pre ++ [c, s]) ∧ (σ.base = none → head = (pre ++ [c, s]).head?) := by
  obtain ⟨head, hscopes, hmem, hhead⟩ := h.scopes
  have hlast : (σ.base.toList ++ (pre ++ [c, s])).getLast? = some s := by
    simp [← List.append_assoc]
  have hlast₀ : (σ.base.toList ++ (pre ++ [s])).getLast? = some s := by
    simp [← List.append_assoc]
  rw [hpreceded.scopes_insertBefore, hlast]
  rw [hlast₀] at hscopes
  cases hp : (σ.base.toList ++ pre).getLast? with
  | none =>
    obtain ⟨hbase, rfl⟩ := List.append_eq_nil_iff.1 (List.getLast?_eq_none_iff.1 hp)
    have hh := hhead (Option.toList_eq_nil_iff.1 hbase)
    simp only [List.nil_append, List.head?_cons] at hh
    refine ⟨some c, ?_, by rintro y ⟨⟩; simp, fun _ => rfl⟩
    rw [if_pos (hparent.trans hp), hscopes, List.map_append, rehead_inputScopes, List.map_cons,
      h.rehead_outer (by simp), hh]
    simp [Scope.rehead]
  | some p =>
    refine ⟨head, ?_, fun y hy => ?_, fun hbase => ?_⟩
    · rw [if_neg (by simp [hparent, hp]), hscopes]
    · have := hmem y hy
      simp only [List.mem_append, List.mem_cons] at this ⊢
      grind
    · rw [hhead hbase]
      cases pre with
      | nil => simp [hbase] at hp
      | cons y pre => rfl

/-- A block that nothing holds is spliced in directly before the end of the script. -/
theorem insertBefore {bc : Block} (h : Sited t σ F (pre ++ [s])) (hc : t.block? c = some bc)
    (hparent : bc.parent = none) (hnext : bc.next = none)
    (hout : c ∉ σ.base.toList ++ (pre ++ [s]))
    (hheads : ∀ {anchor y}, .sequence anchor (some y) ∈ σ.outer → y ≠ c) :
    Sited (t.insertBefore s c) σ F (pre ++ [c, s]) ∧
      Rewired (fun _ => False) (fun x => x ∈ σ.base.toList ++ (pre ++ [s]) ∨ x = c) t
        (t.insertBefore s c) ∧
      ∀ x, t.block? x = none → (t.insertBefore s c).block? x = none := by
  obtain ⟨bs, hpre, hsp, hsn⟩ := h.preceded hc hout
  have hprev : ∀ {p}, bs.parent = some p → p ∈ σ.base.toList ++ pre := fun hp =>
    List.mem_of_getLast? (hsp ▸ hp)
  have hrew : Rewired (fun _ => False) (fun x => x ∈ σ.base.toList ++ (pre ++ [s]) ∨ x = c) t
      (t.insertBefore s c) := by
    refine hpre.rewired (.inl (by simp)) (.inr rfl) fun p hp => .inl ?_
    rw [← List.append_assoc]
    exact List.mem_append_left _ (hprev hp)
  have hlinked := (hpre.spliced h.sound.linked hparent hnext
    (fun ha => hout (h.chain.mem_of_above (by simp) ha))
    (h.chain.notValue h.sound.linked (by simp))).linked
  have hchain := h.chain
  have hnodup := h.nodup
  rw [← List.append_assoc] at hchain hnodup hout
  obtain ⟨hfront, -, hapart⟩ := List.nodup_append.1 hnodup
  have hsf : s ∉ σ.base.toList ++ pre := fun hm => hapart s hm s (by simp) rfl
  have hcf : c ∉ σ.base.toList ++ pre := fun hm => hout (List.mem_append_left _ hm)
  refine ⟨⟨⟨hlinked, hrew.fresh h.sound⟩, ?_, ?_, h.scopes_spliced hpre hsp, ?_⟩, hrew,
    fun x => hpre.block?_eq_none⟩
  · rw [← List.append_assoc]
    refine hchain.splice hfront hpre.links_below rfl hsn hpre.links_above
      (by rw [Option.or_none]; exact hsp) rfl ?_ ?_
    · intro p hp m hm
      obtain ⟨bp, hbp, rfl⟩ := Target.exists_of_links hm
      exact ⟨_, hpre.links_prev (hsp ▸ hp) hbp, rfl, rfl⟩
    · intro x hx hp m hm
      have hxs : x ≠ s := fun e => hsf (e ▸ hx)
      have hxc : x ≠ c := fun e => hcf (e ▸ hx)
      exact ⟨m, by rw [hpre.links_other hxs hxc (hsp ▸ hp), hm], rfl, rfl⟩
  · rw [show σ.base.toList ++ (pre ++ [c, s]) = (σ.base.toList ++ pre) ++ [c, s] by simp]
    refine List.nodup_append.2 ⟨hfront, by simp [hpre.ne], ?_⟩
    rintro x hx y hy rfl
    rcases List.mem_cons.1 hy with rfl | hy
    · exact hcf hx
    · exact hsf (List.mem_singleton.1 hy ▸ hx)
  · intro anchor y hy
    obtain ⟨⟨b, hb⟩, hnot⟩ := h.apart hy
    obtain ⟨b', hb', -⟩ := hrew.old hb
    refine ⟨⟨b', hb'⟩, fun hm => ?_⟩
    have hyc := hheads hy
    simp only [List.mem_append, List.mem_cons, List.not_mem_nil, or_false] at hm hnot
    grind

end Sited
end ScriptBlocks
