import Mathlib.Data.List.Perm.Subperm
import ScriptBlocks.Proofs.Calls
import ScriptBlocks.Proofs.Duplicates

/-!
# Copies of trees

A comparison that allows equality is made of two comparisons over the same operands, so the blocks
of the operands are copied. A copy reads like its original and has its types, the original stays as
it is, and the depth to which blocks are copied is always enough.
-/
namespace ScriptBlocks

variable {a p : String} {l : Links} {e e' : String × Input}

section

variable {g : LinkMap}

theorem Above.up {x : String} (ha : g a = some l) (hp : l.parent = some p) (h : Above g a x) :
    Above g p x := by
  induction h with
  | refl => exact .step ha hp .refl
  | step hx hq _ ih => exact .step hx hq ih

/-- No block is on the way up from its own parent. -/
theorem Linked.not_above_parent (h : Linked g) {x : String} (hx : g x = some l)
    (hp : l.parent = some p) : ¬ Above g x p := by
  have key : ∀ y, Rooted g y → ∀ m q, g y = some m → m.parent = some q → ¬ Above g y q := by
    intro y hy
    induction hy with
    | root hy hpar =>
      intro m q hm hq
      rw [hy] at hm
      cases hm
      simp [hpar] at hq
    | @child y p l hy hpar _ ih =>
      intro m q hm hq habove
      obtain rfl := Option.mem_unique hy hm
      obtain rfl := Option.mem_unique hpar hq
      cases habove with
      | refl => exact ih _ _ hy hpar .refl
      | step hp hpq h => exact ih _ _ hp hpq (h.up hy hpar)
  exact key x (h.rooted hx) l p hx hp

/-- Of two blocks on the way up from a third, one is above the other. -/
theorem Above.total {b x : String} (ha : Above g a x) (hb : Above g b x) :
    Above g a b ∨ Above g b a := by
  induction ha with
  | refl => exact .inr hb
  | step hx hp ha ih =>
    cases hb with
    | refl => exact .inl (.step hx hp ha)
    | step hx' hp' hb =>
      cases hx.symm.trans hx'
      cases hp.symm.trans hp'
      exact ih hb

/-- Blocks with the same parent are not above each other. -/
theorem Linked.eq_of_above (h : Linked g) {x y : String} {m : Links} (hx : g x = some l)
    (hy : g y = some m) (hp : l.parent = m.parent) (ha : Above g x y) : x = y := by
  cases ha with
  | refl => rfl
  | step hy' hq ha =>
    cases hy.symm.trans hy'
    exact absurd ha (h.not_above_parent hx (hp.trans hq))

end

namespace Target

variable {t : Target} {xs ids : List String} {Q : String → Prop}

/-- The child of a block names it as its parent. -/
theorem exists_child (hl : Linked t.links) {x y : String} {b : Block} (hx : t.block? x = some b)
    (hy : y ∈ b.children) : ∃ by', t.block? y = some by' ∧ by'.parent = some x := by
  obtain ⟨m, hm, hp⟩ := hl.down (links_eq_some hx)
    (Links.mem_refs.2 (.inr (Links.mem_children.1 (Block.links_children b ▸ hy))))
  obtain ⟨by', hby, rfl⟩ := exists_of_links hm
  exact ⟨by', hby, hp⟩

/-! ### The tree below a block -/

/-- What passes from blocks to those in their slots holds of whole trees. -/
theorem Spans.forall_mem (h : t.Spans xs ids) (hroots : ∀ x ∈ xs, Q x)
    (hQ : ∀ x b, Q x → t.block? x = some b → ∀ y ∈ b.children, Q y) : ∀ x ∈ ids, Q x := by
  induction h with
  | nil => exact hroots
  | cons hb _ _ ihbelow ihbeside =>
    obtain ⟨hx, hxs⟩ := List.forall_mem_cons.1 hroots
    exact List.forall_mem_cons.2
      ⟨hx, List.forall_mem_append.2 ⟨ihbelow (hQ _ _ hx hb), ihbeside hxs⟩⟩

theorem Spans.mem_of_root (h : t.Spans xs ids) {x : String} (hx : x ∈ xs) : x ∈ ids :=
  h.perm.mem_iff.2 (List.mem_append_left _ hx)

theorem Spans.mem_of_child (h : t.Spans xs ids) {x y : String} (hx : x ∈ ids)
    (hy : y ∈ t.childrenOf x) : y ∈ ids :=
  h.perm.mem_iff.2 (List.mem_append_right _ (List.mem_flatMap.2 ⟨x, hx, hy⟩))

theorem Spans.of_forall (h : ∀ x ∈ xs, ∃ ids, t.Spans [x] ids) : ∃ ids, t.Spans xs ids := by
  induction xs with
  | nil => exact ⟨[], .nil⟩
  | cons x xs ih =>
    obtain ⟨⟨ids, hx⟩, hxs⟩ := List.forall_mem_cons.1 h
    obtain ⟨b, below, -, hb, hbelow⟩ := hx.root
    obtain ⟨ids', hids'⟩ := ih hxs
    exact ⟨_, .cons hb hbelow hids'⟩

theorem Spans.exists_above (hl : Linked t.links) (h : t.Spans xs ids) :
    ∀ y ∈ ids, ∃ r ∈ xs, Above t.links r y := by
  refine h.forall_mem (fun x hx => ⟨x, hx, .refl⟩) ?_
  rintro x b ⟨r, hr, ha⟩ hb y hy
  obtain ⟨by', hby, hparent⟩ := exists_child hl hb hy
  exact ⟨r, hr, .step (links_eq_some hby) hparent ha⟩

/-- Trees below blocks with the same parent have no block in common. -/
theorem Spans.nodup (hl : Linked t.links) (h : t.Spans xs ids) (hxs : xs.Nodup)
    {p : Option String} (hp : ∀ x ∈ xs, ∀ b, t.block? x = some b → b.parent = p) : ids.Nodup := by
  induction h generalizing p with
  | nil => exact List.nodup_nil
  | @cons x b xs ids ids' hb hbelow hbeside ihbelow ihbeside =>
    obtain ⟨hx, hxs⟩ := List.nodup_cons.1 hxs
    obtain ⟨hpx, hp⟩ := List.forall_mem_cons.1 hp
    have hchild : ∀ y ∈ b.children, ∀ by', t.block? y = some by' → by'.parent = some x := by
      intro y hy by' hby
      obtain ⟨_, hby', hparent⟩ := exists_child hl hb hy
      cases hby.symm.trans hby'
      exact hparent
    have hchildren : b.children.Nodup := by
      have hrefs := hl.nodup (links_eq_some hb)
      rw [Links.refs, Block.links_children] at hrefs
      exact (List.nodup_append.1 hrefs).2.1
    have hin : ∀ y ∈ ids, Above t.links x y ∧ x ≠ y := by
      intro y hy
      obtain ⟨r, hr, ha⟩ := hbelow.exists_above hl y hy
      obtain ⟨br, hbr, hparent⟩ := exists_child hl hb hr
      refine ⟨ha.up (links_eq_some hbr) hparent, ?_⟩
      rintro rfl
      exact hl.not_above_parent (links_eq_some hbr) hparent ha
    have hout : ∀ y ∈ ids', ¬ Above t.links x y := by
      intro y hy ha
      obtain ⟨r, hr, hra⟩ := hbeside.exists_above hl y hy
      obtain ⟨br, hbr⟩ := hbeside.exists_block (hbeside.mem_of_root hr)
      have hsame : b.links.parent = br.links.parent := (hpx b hb).trans (hp r hr br hbr).symm
      have heq : x = r := (ha.total hra).elim
        (hl.eq_of_above (links_eq_some hb) (links_eq_some hbr) hsame)
        fun h => (hl.eq_of_above (links_eq_some hbr) (links_eq_some hb) hsame.symm h).symm
      exact hx (heq ▸ hr)
    refine List.nodup_cons.2 ⟨fun hm => ?_, List.nodup_append.2
      ⟨ihbelow hchildren hchild, ihbeside hxs hp, ?_⟩⟩
    · exact (List.mem_append.1 hm).elim (fun hm => (hin x hm).2 rfl) fun hm => hout x hm .refl
    · rintro y hy z hz rfl
      exact hout y hz (hin y hy).1

/-- The way up from a block has no repetitions, so it gets longer with each step down and still has
to fit into the table. So no tree is deeper than there are blocks. -/
theorem exists_spans (hl : Linked t.links) {x : String} {b : Block} (hx : t.block? x = some b) :
    ∃ ids, t.Spans [x] ids := by
  have key : ∀ (depth : Nat) (path : List String) (x : String) (b : Block), t.block? x = some b →
      path.Nodup → (∀ y ∈ path, y ∈ t.blocks.keys ∧ Above t.links y x) →
      t.blocks.size + 2 ≤ path.length + depth → ∃ ids, t.Spans [x] ids := by
    intro depth
    induction depth with
    | zero =>
      intro path x b _ hnodup hpath hlen
      have hle := (List.subperm_of_subset hnodup fun y hy => (hpath y hy).1).length_le
      rw [Table.keys, List.length_map] at hle
      rw [Table.size] at hlen
      omega
    | succ depth ih =>
      intro path x b hx hnodup hpath hlen
      have hbelow : ∃ ids, t.Spans b.children ids := by
        refine Spans.of_forall fun y hy => ?_
        obtain ⟨by', hby, hparent⟩ := exists_child hl hx hy
        refine ih (y :: path) y by' hby ?_ ?_ (by simp only [List.length_cons]; omega)
        · refine List.nodup_cons.2 ⟨fun hm => ?_, hnodup⟩
          exact hl.not_above_parent (links_eq_some hby) hparent (hpath y hm).2
        · intro z hz
          rcases List.mem_cons.1 hz with rfl | hz
          · exact ⟨mem_keys hby, .refl⟩
          · exact ⟨(hpath z hz).1, .step (links_eq_some hby) hparent (hpath z hz).2⟩
      obtain ⟨ids, hids⟩ := hbelow
      exact ⟨_, .cons hx hids .nil⟩
  refine key (t.blocks.size + 1) [x] x b hx (by simp) ?_ (by simp only [List.length_singleton]; omega)
  intro y hy
  obtain rfl := List.mem_singleton.1 hy
  exact ⟨mem_keys hx, .refl⟩

end Target

mutual

/-- Each slot holds at most one block, as in the tree of an expression. -/
def Tree.Single : Tree → Prop
  | .node _ _ _ slots => SlotsSingle slots

def SlotsSingle : List (String × Content) → Prop
  | [] => True
  | (_, content) :: slots => content.Single ∧ SlotsSingle slots

def Content.Single : Content → Prop
  | .empty => True
  | .payload _ => True
  | .script blocks => ScriptSingle blocks

def ScriptSingle : List Tree → Prop
  | [tree] => tree.Single
  | _ => False

end

/-- Blocks have been added to a target, and the others are as they were. -/
structure Target.Extends (t t' : Target) : Prop where
  shell : t' = { t with blocks := t'.blocks, drawn := t'.drawn }
  old : ∀ {x b}, t.block? x = some b → t'.block? x = some b
  new : ∀ {x b}, t'.block? x = some b → t.block? x = none →
    ∃ n, x = Target.idText "block" n ∧ t.drawn < n ∧ n ≤ t'.drawn
  drawn_le : t.drawn ≤ t'.drawn

namespace Target.Extends

variable {t t' : Target}

theorem tables (h : t.Extends t') : t'.tables = t.tables := by
  rw [h.shell]
  rfl

theorem grows (h : t.Extends t') : t.Grows t' :=
  .of_tables h.tables

theorem rewired (h : t.Extends t') {O C : String → Prop} : Rewired O C t t' where
  old hx := ⟨_, h.old hx, rfl, fun _ => rfl, fun _ => ⟨rfl, rfl⟩⟩
  new := h.new
  drawn_le := h.drawn_le
  tables := h.tables

end Target.Extends

/-- Nothing holds the block `n` yet, so its parent does not count. -/
def LinkMap.orphan (g : LinkMap) (n : String) : LinkMap :=
  fun x => (g x).map fun l => if x = n then { l with parent := none } else l

/-- A slot and its copy: what it held in `t₀` reads the same in `t`. -/
structure Twin (t₀ t : Target) (e e' : String × Input) : Prop where
  name : e'.1 = e.1
  reads : ∀ {env : Env} {S content}, Content.Single content →
    content.At (env.look t₀) S e.2.value →
      content.At (env.look t) (fun x => t₀.block? x = none) e'.2.value

/-- A block and its copy, with slots of the same types. -/
structure Clone (t₀ t : Target) (b b' : Block) : Prop where
  copied : ∃ copyOf parent, b' = b.copied copyOf b'.id parent
  slots : List.Forall₂ (Twin t₀ t) b.inputs.entries b'.inputs.entries
  typed : ∀ {name type}, b.SlotHas t₀ name type → b'.SlotHas t name type

theorem Clone.core {t₀ t : Target} {b b' : Block} (h : Clone t₀ t b b') :
    b'.core = { b.core with id := b'.id } := by
  obtain ⟨copyOf, parent, heq⟩ := h.copied
  rw [heq]
  rfl

theorem forall₂_exists_of_mem {α β : Type} {R : α → β → Prop} {as : List α} {bs : List β} {a : α}
    (h : List.Forall₂ R as bs) (ha : a ∈ as) : ∃ b ∈ bs, R a b := by
  induction h with
  | nil => cases ha
  | cons h _ ih =>
    rcases List.mem_cons.1 ha with rfl | ha
    · exact ⟨_, List.mem_cons_self .., h⟩
    · obtain ⟨b, hb, hr⟩ := ih ha
      exact ⟨b, List.mem_cons_of_mem _ hb, hr⟩

section

variable {t₀ t t' : Target}

/-- Copies are not affected by what happens to other blocks. -/
theorem Twin.transfer (h : Twin t₀ t e e')
    (hnew : ∀ {x b}, t.block? x = some b → t₀.block? x = none → t'.block? x = some b) :
    Twin t₀ t' e e' where
  name := h.name
  reads hc hat := (h.reads hc hat).mono (fun y v hy hv => ⟨hy, by
    simp only [Env.look, Option.map_eq_some_iff] at hv ⊢
    obtain ⟨b, hb, rfl⟩ := hv
    exact ⟨b, hnew hb hy, rfl⟩⟩) _ _

/-- A plain value is copied as it is. -/
theorem Twin.plain (hname : e'.1 = e.1) (hvalue : e'.2.value = e.2.value) (h : e.2.block? = none) :
    Twin t₀ t e e' := by
  refine ⟨hname, fun {env S content} _ hat => ?_⟩
  rw [hvalue]
  rcases hvalue : e.2.value with _ | x | value
  · rw [hvalue] at hat
    cases content <;> exact hat
  · simp [Input.block?, hvalue] at h
  · rw [hvalue] at hat
    cases content <;> exact hat

section

variable {env : Env} {S : String → Prop} {b b' : Block} {x y : String}

theorem slotsAt_twins {es es' : List (String × Input)} {slots : List (String × Content)}
    (h : List.Forall₂ (Twin t₀ t) es es') (hs : SlotsSingle slots)
    (hat : SlotsAt (env.look t₀) S (es.map fun e => (e.1, e.2.value)) slots) :
    SlotsAt (env.look t) (fun x => t₀.block? x = none) (es'.map fun e => (e.1, e.2.value))
      slots := by
  induction h generalizing slots with
  | nil =>
    cases slots with
    | nil => exact trivial
    | cons => exact hat.elim
  | cons h _ ih =>
    obtain _ | ⟨⟨name, content⟩, slots⟩ := slots
    · exact hat.elim
    obtain ⟨hname, hc, hrest⟩ := hat
    exact ⟨h.name.trans hname, h.reads hs.1 hc, ih hs.2 hrest⟩

theorem Clone.tree_at (h : Clone t₀ t b b') (hb : t₀.block? y = some b)
    (hb' : t.block? x = some b') {tree : Tree} (hs : tree.Single)
    (hat : tree.At (env.look t₀) S y) :
    tree.At (env.look t) (fun x => t₀.block? x = none) x := by
  obtain ⟨opcode, fields, mutation, slots⟩ := tree
  obtain ⟨v, hv, ho, hf, hm, hslots⟩ := hat
  obtain rfl : env.view b = v := by simpa [Env.look, hb] using hv
  have hop : b'.opcode = b.opcode := (congrArg Block.opcode h.core :)
  have harg : b'.argument = b.argument := (congrArg Block.argument h.core :)
  refine ⟨env.view b', by simp [Env.look, hb'], ?_, ?_, ?_, slotsAt_twins h.slots hs hslots⟩
  · rw [← ho]
    simp only [Env.view, hop, harg]
  · rw [← hf]
    exact congrArg Table.entries (congrArg Block.fields h.core :)
  · rw [← hm]
    exact (congrArg Block.mutation h.core :)

/-- A slot that holds a block, and its copy with a copy of the block. -/
theorem Twin.block {kind' : SlotKind} (h : Clone t₀ t b b') (hb : t₀.block? y = some b)
    (hb' : t.block? x = some b') (hnext : b'.next = none) (hnew : t₀.block? x = none)
    (he : e.2.block? = some y) : Twin t₀ t e (e.1, ⟨kind', .block x⟩) := by
  obtain ⟨name, kind, value⟩ := e
  obtain rfl : value = .block y := by
    rcases value with _ | z | value
    · simp [Input.block?] at he
    · obtain rfl : z = y := by simpa [Input.block?] using he
      rfl
    · simp [Input.block?] at he
  refine ⟨rfl, fun {env S content} hs hat => ?_⟩
  obtain _ | value | blocks := content
  · exact hat.elim
  · exact hat.elim
  obtain _ | ⟨tree, _ | ⟨tree', rest⟩⟩ := blocks
  · exact hs.elim
  · obtain ⟨-, htree, -⟩ := hat
    refine ⟨hnew, h.tree_at hb hb' hs htree, env.view b', by simp [Env.look, hb'], ?_⟩
    rw [show (env.view b').next = none from hnext]
    exact trivial
  · exact hs.elim

theorem Clone.wellTyped (h : Clone t₀ t b b') (ht : t₀.Grows t) (hw : b.WellTyped t₀) :
    b'.WellTyped t := by
  refine hw.transfer (congrArg Block.fields h.core :) (congrArg Block.mutation h.core :) ?_
    (congrArg Block.opcode h.core :) ht h.typed
  obtain ⟨copyOf, parent, heq⟩ := h.copied
  rw [heq]
  simp [Block.copied, Table.keys, Table.map]

end

end

/-! ### The copy of a tree -/

theorem Block.children_copied (b : Block) (copyOf : String → String) (id parent : String) :
    (b.copied copyOf id parent).children = b.children.map copyOf := by
  have hblock : ∀ input : Input, (input.rename copyOf).block? = input.block?.map copyOf := by
    rintro ⟨kind, _ | id | value⟩ <;> rfl
  simp only [children, copied, Table.values, Table.map, List.map_map, List.filterMap_map,
    List.map_filterMap]
  exact List.filterMap_congr fun e _ => hblock e.2

/-- The tree below `root` has been copied: its blocks are `ids`, and `t'` has their copies. -/
structure Copying (t : Target) (root parent : String) (ids : List String) (t' : Target) : Prop where
  sound : Sound t
  spans : t.Spans [root] ids
  nodup : ids.Nodup
  added : Added t (t.copyId ids) parent [root] ids t t'

namespace Copying

variable {t t' : Target} {root parent : String} {ids : List String} {x y z : String} {b b' : Block}

theorem fresh (h : Copying t root parent ids t') (x : String) :
    t.block? (t.copyId ids x) = none :=
  h.sound.fresh (by omega)

theorem copyId_inj (hx : x ∈ ids) (heq : t.copyId ids x = t.copyId ids y) : x = y := by
  have hidx := Target.idText_injective heq
  exact (List.idxOf_inj hx).1 (by omega)

/-- The copy of a block hangs below the copy of the block that holds it. -/
theorem exists_copy (h : Copying t root parent ids t') (hx : x ∈ ids) :
    ∃ b p, t.block? x = some b ∧
      t'.block? (t.copyId ids x) = some (b.copied (t.copyId ids) (t.copyId ids x) p) ∧
      (x = root → p = parent) ∧ (x ≠ root → ∃ y ∈ ids, x ∈ t.childrenOf y ∧ p = t.copyId ids y) := by
  obtain ⟨b, p, hb, hcopy, hp⟩ := h.added.copies x hx
  refine ⟨b, p, hb, hcopy, ?_, fun hne => hp.resolve_left fun hr => hne (by simpa using hr.1)⟩
  rintro rfl
  obtain ⟨-, hp⟩ | ⟨y, hy, hyx, -⟩ := hp
  · exact hp
  · exact absurd hyx (h.spans.root_not_mem h.nodup hy)

/-- What is new is a copy. -/
theorem exists_of_new (h : Copying t root parent ids t') (hb : t'.block? x = some b')
    (hx : t.block? x = none) : ∃ y ∈ ids, x = t.copyId ids y := by
  by_contra hout
  have hnone := h.added.none_of_not_mem hx (by simpa [eq_comm] using hout)
  simp [hb] at hnone

theorem grown (h : Copying t root parent ids t') : t.Extends t' where
  shell := by
    rw [h.added.shell]
  old := h.added.old
  new hb hx := by
    obtain ⟨y, hy, rfl⟩ := h.exists_of_new hb hx
    have hlt := List.idxOf_lt_length_iff.2 hy
    exact ⟨_, rfl, by omega, by rw [h.added.drawn_eq]; omega⟩
  drawn_le := by
    rw [h.added.drawn_eq]
    exact Nat.le_add_right _ _

/-- The copies of the blocks in slots are like those blocks. -/
theorem clone (h : Copying t root parent ids t') : ∀ x ∈ ids, ∀ b b', t.block? x = some b →
    t'.block? (t.copyId ids x) = some b' → Clone t t' b b' := by
  -- the induction is on the tree, for those of its parts whose blocks are among the copied ones
  have key : ∀ {xs part}, t.Spans xs part → part ⊆ ids → ∀ x ∈ part, ∀ b b', t.block? x = some b →
      t'.block? (t.copyId ids x) = some b' → Clone t t' b b' := by
    intro xs part hspans
    induction hspans with
    | nil => simp
    | @cons x b xs below beside hb hbelow _ ihbelow ihbeside =>
      intro hsub
      obtain ⟨hx, hsub⟩ := List.cons_subset.1 hsub
      obtain ⟨hsub₁, hsub₂⟩ := List.append_subset.1 hsub
      refine List.forall_mem_cons.2 ⟨?_, List.forall_mem_append.2 ⟨ihbelow hsub₁, ihbeside hsub₂⟩⟩
      intro b₀ b' hb₀ hb'
      cases hb.symm.trans hb₀
      obtain ⟨b₁, p, hb₁, hcopy, -⟩ := h.exists_copy hx
      cases hb.symm.trans hb₁
      cases hcopy.symm.trans hb'
      have hchild : ∀ {e child}, e ∈ b.inputs.entries → e.2.block? = some child → child ∈ below :=
        fun he hblock => hbelow.mem_of_root (List.mem_filterMap.2 ⟨_, List.mem_map_of_mem he, hblock⟩)
      refine ⟨⟨_, _, rfl⟩, List.forall₂_map_right_iff.2 (List.forall₂_same.2 fun e he => ?_), ?_⟩
      · cases hblock : e.2.block? with
        | none => exact .plain rfl (by rw [Input.rename_of_none hblock]) hblock
        | some child =>
          have hchild := hchild he hblock
          obtain ⟨bc, pc, hbc, hcopy, -⟩ := h.exists_copy (hsub₁ hchild)
          rw [Input.rename_of_some hblock]
          exact .block (ihbelow hsub₁ child hchild bc _ hbc hcopy) hbc hcopy rfl (h.fresh child)
            hblock
      · rintro name type ⟨hne, input, hi, hv⟩
        rw [Table.get?_eq_some_iff] at hi
        refine ⟨hne, _, Table.get?_eq_some_iff.2 (List.mem_map_of_mem hi), ?_⟩
        obtain ⟨kind, _ | child | value⟩ := input
        · exact hv
        · obtain ⟨bc, hbc, htype⟩ := hv
          obtain ⟨_, pc, hbc', hcopy, -⟩ := h.exists_copy (hsub₁ (hchild hi rfl))
          cases hbc.symm.trans hbc'
          exact ⟨_, hcopy, htype⟩
        · exact hv.mono hne h.grown.grows fun _ _ hvalue => by cases hvalue
  exact key h.spans (List.Subset.refl _)

/-- The links of the copy of `x` while nothing holds the root of the copies. -/
structure Linking (t : Target) (ids : List String) (x : String) (l : Links) : Prop where
  id_eq : l.id = t.copyId ids x
  next : l.next = none
  refs : l.refs = (t.childrenOf x).map (t.copyId ids)
  parent : ∀ p, l.parent = some p ↔ ∃ y ∈ ids, x ∈ t.childrenOf y ∧ p = t.copyId ids y

theorem links_copy (h : Copying t root parent ids t') (hx : x ∈ ids) :
    ∃ l, t'.links.orphan (t.copyId ids root) (t.copyId ids x) = some l ∧ Linking t ids x l := by
  obtain ⟨b, p, hb, hcopy, -, hp⟩ := h.exists_copy hx
  refine ⟨_, Option.map_eq_some_iff.2 ⟨_, Target.links_eq_some hcopy, rfl⟩, ?_⟩
  have hrefs : (b.copied (t.copyId ids) (t.copyId ids x) p).links.refs =
      (t.childrenOf x).map (t.copyId ids) := by
    rw [Links.refs, Block.links_children, Block.children_copied, Target.childrenOf, hb]
    rfl
  split
  next heq =>
    obtain rfl := (copyId_inj hx heq :)
    refine ⟨rfl, rfl, hrefs, fun p => ⟨fun hp => (by cases hp), ?_⟩⟩
    rintro ⟨y, hy, hyx, -⟩
    exact absurd hyx (h.spans.root_not_mem h.nodup hy)
  next hne =>
    obtain ⟨z, hz, hzx, rfl⟩ := hp fun hroot => hne (hroot ▸ rfl)
    refine ⟨rfl, rfl, hrefs, fun p => ⟨fun hp => ⟨z, hz, hzx, (Option.some.inj hp).symm⟩, ?_⟩⟩
    rintro ⟨y, hy, hyx, rfl⟩
    rw [h.spans.parent_unique h.nodup hy hz hyx hzx]
    rfl

theorem links_old (h : Copying t root parent ids t') (hl : t.links x = some l) :
    t'.links.orphan (t.copyId ids root) x = some l := by
  obtain ⟨b, hb, rfl⟩ := Target.exists_of_links hl
  have hne : x ≠ t.copyId ids root := by
    rintro rfl
    simp [h.fresh] at hb
  simp [LinkMap.orphan, Target.links, h.added.old hb, hne]

theorem links_cases (h : Copying t root parent ids t')
    (hl : t'.links.orphan (t.copyId ids root) x = some l) :
    t.links x = some l ∨ ∃ y ∈ ids, x = t.copyId ids y ∧ Linking t ids y l := by
  cases hx : t.links x with
  | some m => exact .inl ((h.links_old hx).symm.trans hl)
  | none =>
    obtain ⟨m, hm, -⟩ := Option.map_eq_some_iff.1 hl
    obtain ⟨b, hb, -⟩ := Target.exists_of_links hm
    obtain ⟨y, hy, rfl⟩ := h.exists_of_new hb (Option.map_eq_none_iff.1 hx)
    obtain ⟨l', hl', hy'⟩ := h.links_copy hy
    cases hl'.symm.trans hl
    exact .inr ⟨y, hy, rfl, hy'⟩

theorem parent_of_child (h : Copying t root parent ids t') (hy : y ∈ ids) (hyx : x ∈ t.childrenOf y)
    (hl : t.links x = some l) : l.parent = some y := by
  obtain ⟨b, hb⟩ := h.spans.exists_block hy
  rw [Target.childrenOf, hb] at hyx
  obtain ⟨bx, hbx, hp⟩ := Target.exists_child h.sound.linked hb hyx
  cases (Target.links_eq_some hbx).symm.trans hl
  exact hp

/-- The way up from a copy ends at the root of the copies. -/
theorem rooted_copy (h : Copying t root parent ids t') (hroot : Rooted t.links x) (hx : x ∈ ids) :
    Rooted (t'.links.orphan (t.copyId ids root)) (t.copyId ids x) := by
  obtain ⟨l', hl', hcopy⟩ := h.links_copy hx
  induction hroot generalizing l' with
  | root hl hp =>
    refine .of_parent hl' fun q hq => ?_
    obtain ⟨y, hy, hyx, -⟩ := (hcopy.parent q).1 hq
    cases hp.symm.trans (h.parent_of_child hy hyx hl)
  | child hl hp _ ih =>
    refine .of_parent hl' fun q hq => ?_
    obtain ⟨y, hy, hyx, rfl⟩ := (hcopy.parent q).1 hq
    cases hp.symm.trans (h.parent_of_child hy hyx hl)
    obtain ⟨m, hm, hcopy⟩ := h.links_copy hy
    exact ih hy m hm hcopy

/-- The copies are linked like the tree. -/
theorem linked (h : Copying t root parent ids t') :
    Linked (t'.links.orphan (t.copyId ids root)) := by
  have hlinked := h.sound.linked
  -- what a copy refers to is a copy
  have href : ∀ {z l y}, z ∈ ids → Linking t ids z l → y ∈ l.refs →
      ∃ c ∈ ids, c ∈ t.childrenOf z ∧ t.copyId ids c = y := by
    intro z l y hz hcopy hy
    obtain ⟨c, hc, rfl⟩ := List.mem_map.1 (hcopy.refs ▸ hy)
    exact ⟨c, h.spans.mem_of_child hz hc, hc, rfl⟩
  refine ⟨fun {x l} hl => ?_, fun {x l y} hl hy => ?_, fun {x l p} hl hp => ?_, fun {x l} hl => ?_,
    fun {x l} hl => ?_, fun {x l slot y m} hl hs hbody hm => ?_⟩
  · obtain hl | ⟨z, -, rfl, hcopy⟩ := h.links_cases hl
    · exact hlinked.id_eq hl
    · exact hcopy.id_eq
  · obtain hl | ⟨z, hz, rfl, hcopy⟩ := h.links_cases hl
    · obtain ⟨m, hm, hp⟩ := hlinked.down hl hy
      exact ⟨m, h.links_old hm, hp⟩
    · obtain ⟨c, hc, hcz, rfl⟩ := href hz hcopy hy
      obtain ⟨m, hm, hchild⟩ := h.links_copy hc
      exact ⟨m, hm, (hchild.parent _).2 ⟨z, hz, hcz, rfl⟩⟩
  · obtain hl | ⟨z, hz, rfl, hcopy⟩ := h.links_cases hl
    · obtain ⟨m, hm, hx⟩ := hlinked.up hl hp
      exact ⟨m, h.links_old hm, hx⟩
    · obtain ⟨y, hy, hzy, rfl⟩ := (hcopy.parent p).1 hp
      obtain ⟨m, hm, hparent⟩ := h.links_copy hy
      exact ⟨m, hm, hparent.refs ▸ List.mem_map_of_mem hzy⟩
  · obtain hl | ⟨z, hz, rfl, hcopy⟩ := h.links_cases hl
    · exact hlinked.nodup hl
    · rw [hcopy.refs]
      refine (h.spans.children_nodup h.nodup hz).map_on fun x hx y _ => copyId_inj ?_
      exact h.spans.mem_of_child hz hx
  · obtain hl | ⟨z, hz, rfl, -⟩ := h.links_cases hl
    · exact (hlinked.rooted hl).transfer (P := fun _ => False) False.elim
        fun hl _ => ⟨_, h.links_old hl, rfl⟩
    · obtain ⟨b, hb⟩ := h.spans.exists_block hz
      exact h.rooted_copy (hlinked.rooted (Target.links_eq_some hb)) hz
  · have href' : y ∈ l.refs := Links.mem_refs.2 (.inr ⟨slot, hs⟩)
    obtain hl | ⟨z, hz, rfl, hcopy⟩ := h.links_cases hl
    · obtain ⟨k, hk, -⟩ := hlinked.down hl href'
      cases (h.links_old hk).symm.trans hm
      exact hlinked.value_last hl hs hbody hk
    · obtain ⟨c, hc, -, rfl⟩ := href hz hcopy href'
      obtain ⟨k, hk, hchild⟩ := h.links_copy hc
      cases hk.symm.trans hm
      exact hchild.next

end Copying

/-- What copying has added to `t`. The copies are those of blocks in `Q`, the first of them is `n`,
and nothing holds it yet. -/
structure Copies (Q : String → Prop) (t t' : Target) (n : String) (created : List String) :
    Prop where
  grown : t.Extends t'
  linked : Linked (t'.links.orphan n)
  created : ∀ x, x ∈ created ↔ t.block? x = none ∧ t'.block? x ≠ none
  origin : ∀ {x b'}, t'.block? x = some b' → t.block? x = none →
    ∃ y b, Q y ∧ t.block? y = some b ∧ Clone t t' b b'

/-- Copying the tree below a block of a sound target. -/
theorem duplicate_copies {t : Target} {Q : String → Prop} {root : String} {b : Block} (hs : Sound t)
    (hQ : ∀ x b, Q x → t.block? x = some b → ∀ y ∈ b.children, Q y)
    (hb : t.block? root = some b) (hroot : Q root) (parent : String) :
    ∃ n ids t' b', t.duplicate root parent = (n :: ids, t') ∧ Copies Q t t' n (n :: ids) ∧
      t'.block? n = some b' ∧ b'.parent = some parent ∧ b'.next = none ∧ Clone t t' b b' := by
  obtain ⟨ids, hspans⟩ := Target.exists_spans hs.linked hb
  have hnodup := hspans.nodup hs.linked (List.nodup_singleton root) (p := b.parent) (by simp [hb])
  obtain ⟨t', hrun, hadded⟩ := hspans.duplicate_added (fun _ => hs.fresh) hnodup parent
  have h : Copying t root parent ids t' := ⟨hs, hspans, hnodup, hadded⟩
  have hmem := hspans.mem_of_root (List.mem_singleton_self root)
  obtain ⟨b₀, p, hb₀, hcopy, hp, -⟩ := h.exists_copy hmem
  cases hb.symm.trans hb₀
  obtain rfl := hp rfl
  have hcreated : ids.map (t.copyId ids) = t.copyId ids root :: ids.tail.map (t.copyId ids) := by
    obtain ⟨_, _, rfl, -⟩ := hspans.root
    rfl
  rw [hcreated] at hrun
  refine ⟨_, _, t', _, hrun, ⟨h.grown, h.linked, fun x => ?_, fun {x b'} hb' hx => ?_⟩, hcopy, rfl,
    rfl, h.clone root hmem b _ hb hcopy⟩
  · rw [← hcreated, List.mem_map]
    constructor
    · rintro ⟨y, hy, rfl⟩
      obtain ⟨_, _, -, hy', -⟩ := h.exists_copy hy
      exact ⟨h.fresh y, by simp [hy']⟩
    · rintro ⟨hx, hx'⟩
      obtain ⟨b', hb'⟩ := Option.ne_none_iff_exists'.1 hx'
      obtain ⟨y, hy, rfl⟩ := h.exists_of_new hb' hx
      exact ⟨y, hy, rfl⟩
  · obtain ⟨y, hy, rfl⟩ := h.exists_of_new hb' hx
    obtain ⟨by', hby⟩ := hspans.exists_block hy
    exact ⟨y, by', hspans.forall_mem (by simpa using hroot) hQ y hy, hby,
      h.clone y hy by' b' hby hb'⟩

end ScriptBlocks
