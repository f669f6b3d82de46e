import Mathlib.Data.List.Nodup
import Mathlib.Data.List.Pairwise
import Mathlib.Data.List.Perm.Subperm
import ScriptBlocks.Proofs.Graph

/-!
# Duplicates

A duplicate of a tree of blocks has the same shape as the tree and shares no block with it. The
blocks of the tree are listed in preorder, and the k-th of them is copied under the k-th id that is
drawn. So the copy of a block can be named before it exists, which is what the slots and the parents
of the other copies refer to.
-/
namespace ScriptBlocks

/-- The copy of a block: what its slots hold is replaced by the copies, nothing follows it, and it
hangs below `parent`. -/
def Block.copied (b : Block) (copyOf : String → String) (id parent : String) : Block :=
  { b with
    id, parent := some parent, topLevel := false, next := none
    inputs := b.inputs.map (Input.rename copyOf) }

namespace Target

/-- The slot references from `roots` on form finite trees of existing blocks, and `ids` lists them
one after the other, each in preorder. -/
inductive Spans (t : Target) : List String → List String → Prop where
  | nil : Spans t [] []
  | cons {x : String} {b : Block} {xs ids ids' : List String} (block : t.block? x = some b)
      (below : Spans t b.children ids) (beside : Spans t xs ids') :
      Spans t (x :: xs) (x :: (ids ++ ids'))

/-- The blocks in the slots of a block. -/
def childrenOf (t : Target) (x : String) : List String :=
  ((t.block? x).map Block.children).getD []

/-- The ids of `count` blocks that are drawn one after the other. -/
def blockIds (drawn count : Nat) : List String :=
  (List.range' (drawn + 1) count).map (idText "block")

/-- The id of the copy of a block when the blocks `ids` are copied in this order. -/
def copyId (t : Target) (ids : List String) (x : String) : String :=
  idText "block" (t.drawn + 1 + ids.idxOf x)

/-- No block has an id that is still to be drawn. -/
def Ahead (t : Target) : Prop :=
  ∀ n, t.drawn < n → t.block? (idText "block" n) = none

section

variable {t : Target} {x : String} {xs ids : List String}

theorem mem_keys {b : Block} (h : t.block? x = some b) : x ∈ t.blocks.keys := by
  rw [← Table.contains_iff, Table.contains]
  exact Option.isSome_iff_exists.2 ⟨b, h⟩

/-- Every block of the trees is a root or stands in a slot of one of the blocks, and only once. -/
theorem Spans.perm (h : t.Spans xs ids) : ids.Perm (xs ++ ids.flatMap t.childrenOf) := by
  induction h with
  | nil => exact .refl _
  | @cons x b xs ids ids' hb _ _ ihbelow ihbeside =>
    have hchildren : t.childrenOf x = b.children := by simp [childrenOf, hb]
    rw [List.flatMap_cons, List.flatMap_append, hchildren, List.cons_append]
    refine .cons x ((ihbelow.append ihbeside).trans ?_)
    rw [← List.append_assoc b.children]
    exact List.perm_append_comm_assoc _ _ _

theorem Spans.exists_block {y : String} (h : t.Spans xs ids) (hy : y ∈ ids) :
    ∃ b, t.block? y = some b := by
  induction h with
  | nil => cases hy
  | cons hb _ _ ihbelow ihbeside =>
    obtain rfl | hy := List.mem_cons.1 hy
    · exact ⟨_, hb⟩
    · exact (List.mem_append.1 hy).elim ihbelow ihbeside

/-- The first tree is finite, and so are the others. -/
theorem Spans.split (h : t.Spans (x :: xs) ids) :
    ∃ ids₁ ids₂, ids = ids₁ ++ ids₂ ∧ t.Spans [x] ids₁ ∧ t.Spans xs ids₂ := by
  obtain _ | @⟨_, b, _, ids, ids', hb, hbelow, hbeside⟩ := h
  exact ⟨x :: (ids ++ []), ids', by simp, .cons hb hbelow .nil, hbeside⟩

theorem Spans.root (h : t.Spans [x] ids) :
    ∃ b below, ids = x :: below ∧ t.block? x = some b ∧ t.Spans b.children below := by
  obtain _ | @⟨_, b, _, ids, ids', hb, hbelow, hbeside⟩ := h
  cases hbeside
  exact ⟨b, ids, by simp, hb, hbelow⟩

/-- A tree has at most as many blocks as there are. -/
theorem Spans.length_le (h : t.Spans xs ids) (hnodup : ids.Nodup) :
    ids.length ≤ t.blocks.size := by
  have hsub : ids ⊆ t.blocks.keys := by
    intro y hy
    obtain ⟨b, hb⟩ := h.exists_block hy
    exact mem_keys hb
  have hle := (List.subperm_of_subset hnodup hsub).length_le
  rwa [Table.keys, List.length_map] at hle

end

/-! ### Ids in the order of drawing -/

@[simp] theorem length_blockIds (drawn count : Nat) : (blockIds drawn count).length = count := by
  simp [blockIds]

theorem blockIds_succ (drawn count : Nat) :
    blockIds drawn (count + 1) = idText "block" (drawn + 1) :: blockIds (drawn + 1) count := rfl

theorem blockIds_add (drawn m n : Nat) :
    blockIds drawn (m + n) = blockIds drawn m ++ blockIds (drawn + m) n := by
  rw [blockIds, blockIds, blockIds, ← List.map_append, Nat.add_right_comm drawn m 1,
    List.range'_append_1]

theorem mem_blockIds {drawn count : Nat} {x : String} :
    x ∈ blockIds drawn count ↔ ∃ n, drawn < n ∧ n ≤ drawn + count ∧ x = idText "block" n := by
  simp only [blockIds, List.mem_map, List.mem_range'_1]
  constructor
  · rintro ⟨n, hn, rfl⟩
    exact ⟨n, by omega, by omega, rfl⟩
  · rintro ⟨n, hlt, hle, rfl⟩
    exact ⟨n, by omega, rfl⟩

theorem nodup_blockIds (drawn count : Nat) : (blockIds drawn count).Nodup :=
  List.Nodup.map (fun _ _ => idText_injective) List.nodup_range'

/-- The copies get the ids in order. -/
theorem map_copyId (t : Target) {ids : List String} (hnodup : ids.Nodup) :
    ids.map (t.copyId ids) = blockIds t.drawn ids.length := by
  refine List.ext_getElem (by simp) fun k hk hk' => ?_
  have hk : k < ids.length := by simpa using hk
  simp only [List.getElem_map, copyId, hnodup.idxOf_getElem k hk, blockIds, List.getElem_range',
    Nat.one_mul]

end Target

/-! ### Copying -/

/-- The trees below `roots`, with the blocks `ids`, have been copied from `t₀` below `parent`. -/
structure Added (t₀ : Target) (copyOf : String → String) (parent : String)
    (roots ids : List String) (t t' : Target) : Prop where
  shell : t' = { t with blocks := t'.blocks, drawn := t.drawn + ids.length }
  entries : ∃ added : List (String × Block), t'.blocks.entries = t.blocks.entries ++ added ∧
    (added.map (·.1)).Perm (ids.map copyOf)
  copies : ∀ x ∈ ids, ∃ b p, t₀.block? x = some b ∧
    t'.block? (copyOf x) = some (b.copied copyOf (copyOf x) p) ∧
    (x ∈ roots ∧ p = parent ∨ ∃ y ∈ ids, x ∈ t₀.childrenOf y ∧ p = copyOf y)

namespace Added

variable {t₀ t t' t'' : Target} {copyOf : String → String} {parent : String}
variable {roots ids roots' ids' : List String}

theorem nil (t₀ t : Target) (copyOf : String → String) (parent : String) :
    Added t₀ copyOf parent [] [] t t :=
  ⟨rfl, ⟨[], by simp, .refl _⟩, by simp⟩

theorem drawn_eq (h : Added t₀ copyOf parent roots ids t t') :
    t'.drawn = t.drawn + ids.length := by
  rw [h.shell]

/-- What was there is still there. -/
theorem old (h : Added t₀ copyOf parent roots ids t t') {x : String} {b : Block}
    (hx : t.block? x = some b) : t'.block? x = some b := by
  obtain ⟨added, hentries, -⟩ := h.entries
  rw [Target.block?, Table.get?_eq_some_iff] at hx ⊢
  rw [hentries]
  exact List.mem_append_left _ hx

/-- Nothing is there that is neither old nor a copy. -/
theorem none_of_not_mem (h : Added t₀ copyOf parent roots ids t t') {x : String}
    (hx : t.block? x = none) (hout : x ∉ ids.map copyOf) : t'.block? x = none := by
  obtain ⟨added, hentries, hperm⟩ := h.entries
  rw [Target.block?, Table.get?_eq_none_iff, Table.keys] at hx ⊢
  rw [hentries, List.map_append, List.mem_append, hperm.mem_iff]
  exact fun hm => hm.elim hx hout

theorem ahead (h : Added t₀ copyOf parent roots ids t t')
    (hids : ids.map copyOf = Target.blockIds t.drawn ids.length) (ht : t.Ahead) : t'.Ahead := by
  intro n hn
  rw [h.drawn_eq] at hn
  refine h.none_of_not_mem (ht n (by omega)) ?_
  rw [hids, Target.mem_blockIds]
  rintro ⟨m, -, hle, heq⟩
  have := Target.idText_injective heq
  omega

theorem append (h : Added t₀ copyOf parent roots ids t t')
    (h' : Added t₀ copyOf parent roots' ids' t' t'') :
    Added t₀ copyOf parent (roots ++ roots') (ids ++ ids') t t'' where
  shell := by
    rw [h'.shell, h.shell, List.length_append, Nat.add_assoc]
  entries := by
    obtain ⟨added, hentries, hperm⟩ := h.entries
    obtain ⟨added', hentries', hperm'⟩ := h'.entries
    refine ⟨added ++ added', by rw [hentries', hentries, List.append_assoc], ?_⟩
    rw [List.map_append, List.map_append]
    exact hperm.append hperm'
  copies x hx := by
    obtain hx | hx := List.mem_append.1 hx
    · obtain ⟨b, p, hb, hcopy, hp⟩ := h.copies x hx
      refine ⟨b, p, hb, h'.old hcopy, ?_⟩
      obtain ⟨hr, hp⟩ | ⟨y, hy, hyx, hp⟩ := hp
      · exact .inl ⟨List.mem_append_left _ hr, hp⟩
      · exact .inr ⟨y, List.mem_append_left _ hy, hyx, hp⟩
    · obtain ⟨b, p, hb, hcopy, hp⟩ := h'.copies x hx
      refine ⟨b, p, hb, hcopy, ?_⟩
      obtain ⟨hr, hp⟩ | ⟨y, hy, hyx, hp⟩ := hp
      · exact .inl ⟨List.mem_append_right _ hr, hp⟩
      · exact .inr ⟨y, List.mem_append_right _ hy, hyx, hp⟩

/-- Once its children are copied, a copy is written below its own parent. -/
theorem write {x : String} {b : Block} (hb : t₀.block? x = some b)
    (h : Added t₀ copyOf (copyOf x) b.children ids t.draw t') (hn : t'.block? (copyOf x) = none) :
    Added t₀ copyOf parent [x] (x :: ids) t
      { t' with blocks := t'.blocks.insert (copyOf x) (b.copied copyOf (copyOf x) parent) } := by
  have hnot : copyOf x ∉ t'.blocks.keys := (Table.get?_eq_none_iff _ _).1 hn
  have hlookup (y : String) :=
    Table.get?_insert t'.blocks (copyOf x) y (b.copied copyOf (copyOf x) parent)
  refine ⟨?_, ?_, fun y hy => ?_⟩
  · rw [h.shell, List.length_cons, Nat.add_comm ids.length, ← Nat.add_assoc]
    rfl
  · obtain ⟨added, hentries, hperm⟩ := h.entries
    refine ⟨added ++ [(copyOf x, b.copied copyOf (copyOf x) parent)], ?_, ?_⟩
    · rw [Table.entries_insert_of_not_mem hnot, hentries, List.append_assoc]
      rfl
    · rw [List.map_append, List.map_cons]
      exact (List.perm_append_singleton _ _).trans (hperm.cons _)
  · obtain rfl | hy := List.mem_cons.1 hy
    · refine ⟨b, parent, hb, ?_, .inl ⟨by simp, rfl⟩⟩
      rw [Target.block?, hlookup, if_pos rfl]
    · obtain ⟨c, p, hc, hcopy, hp⟩ := h.copies y hy
      refine ⟨c, p, hc, ?_, ?_⟩
      · have hne : copyOf x ≠ copyOf y := by
          intro he
          simp [he, hcopy] at hn
        rw [Target.block?, hlookup, if_neg hne]
        exact hcopy
      · obtain ⟨hr, hp⟩ | ⟨z, hz, hzy, hp⟩ := hp
        · refine .inr ⟨x, by simp, ?_, hp⟩
          simpa only [Target.childrenOf, hb, Option.map_some, Option.getD_some] using hr
        · exact .inr ⟨z, List.mem_cons_of_mem _ hz, hzy, hp⟩

end Added

section

variable {t₀ : Target} {copyOf : String → String} {depth : Nat}

/-- Copying to a depth works for trees of at most that many blocks, wherever their turn comes. -/
def CopiesWithin (t₀ : Target) (copyOf : String → String) (depth : Nat) : Prop :=
  ∀ {t : Target} {x : String} (parent : String) {ids : List String}, t₀.Spans [x] ids →
    ids.length ≤ depth → ids.map copyOf = Target.blockIds t.drawn ids.length → t.Ahead →
    (∀ {y b}, t₀.block? y = some b → t.block? y = some b) →
    ∃ t', t.copyTree x parent depth = (some (copyOf x, ids.map copyOf), t') ∧
      Added t₀ copyOf parent [x] ids t t'

/-- The slots of a block are copied in turn. -/
theorem CopiesWithin.slots (ih : CopiesWithin t₀ copyOf depth) {t : Target} {n : String}
    {slots finished : List (String × Input)} {ids : List String} {copy : Block}
    (created : List String)
    (hspans : t₀.Spans (slots.filterMap (·.2.block?)) ids) (hlen : ids.length ≤ depth)
    (hids : ids.map copyOf = Target.blockIds t.drawn ids.length) (ht : t.Ahead)
    (hold : ∀ {y b}, t₀.block? y = some b → t.block? y = some b)
    (hentries : copy.inputs.entries = finished ++ slots) :
    ∃ inputs t', slots.foldl (Target.copyChild depth n) (copy, created, t) =
        ({ copy with inputs }, created ++ ids.map copyOf, t') ∧
      inputs.entries = finished ++ slots.map (fun e => (e.1, e.2.rename copyOf)) ∧
      Added t₀ copyOf n (slots.filterMap (·.2.block?)) ids t t' := by
  induction slots generalizing t finished ids created copy with
  | nil =>
    cases hspans
    exact ⟨copy.inputs, t, by simp, by simpa using hentries, .nil t₀ t copyOf n⟩
  | cons e slots ihslots =>
    cases he : e.2.block? with
    | none =>
      have hskip : Target.copyChild depth n (copy, created, t) e = (copy, created, t) := by
        simp only [Target.copyChild, he]
      simp only [List.filterMap_cons, he] at hspans ⊢
      have hentries' : copy.inputs.entries = (finished ++ [e]) ++ slots := by simp [hentries]
      obtain ⟨inputs, t', hrun, hinputs, hadded⟩ := ihslots created hspans hlen hids ht hold
        hentries'
      refine ⟨inputs, t', by rw [List.foldl_cons, hskip, hrun], ?_, hadded⟩
      rw [hinputs, List.map_cons, Input.rename_of_none he]
      simp
    | some child =>
      simp only [List.filterMap_cons, he] at hspans ⊢
      obtain ⟨ids₁, ids₂, rfl, hfirst, hrest⟩ := hspans.split
      -- the ids are split between the child and the slots after it
      rw [List.length_append] at hlen
      rw [List.length_append, Target.blockIds_add, List.map_append] at hids
      obtain ⟨hids₁, hids₂⟩ := List.append_inj hids (by simp)
      obtain ⟨t₁, hchild, hadded₁⟩ := ih n hfirst (by omega) hids₁ ht hold
      have hfill : Target.copyChild depth n (copy, created, t) e =
          (copy.fill e.1 (.block (copyOf child)), created ++ ids₁.map copyOf, t₁) := by
        simp only [Target.copyChild, he, hchild]
      have hentries' : (copy.fill e.1 (.block (copyOf child))).inputs.entries =
          (finished ++ [(e.1, e.2.rename copyOf)]) ++ slots := by
        rw [Block.entries_fill hentries, Input.rename_of_some he]
        simp
      obtain ⟨inputs, t', hrun, hinputs, hadded⟩ := ihslots
        (created ++ ids₁.map copyOf) hrest (by omega)
        (by rw [hadded₁.drawn_eq]; exact hids₂) (hadded₁.ahead hids₁ ht)
        (fun hy => hadded₁.old (hold hy)) hentries'
      refine ⟨inputs, t', ?_, ?_, hadded₁.append hadded⟩
      · rw [List.foldl_cons, hfill, hrun, List.map_append, List.append_assoc]
        rfl
      · rw [hinputs]
        simp

theorem copiesWithin (t₀ : Target) (copyOf : String → String) (depth : Nat) :
    CopiesWithin t₀ copyOf depth := by
  induction depth with
  | zero =>
    intro t x parent ids hspans hlen
    obtain ⟨b, below, rfl, -, -⟩ := hspans.root
    simp at hlen
  | succ depth ih =>
    intro t x parent ids hspans hlen hids ht hold
    obtain ⟨b, ids, rfl, hb, hchildren⟩ := hspans.root
    rw [List.length_cons, Target.blockIds_succ, List.map_cons, List.cons.injEq] at hids
    obtain ⟨hx, hids⟩ := hids
    have hdraw : t.draw.Ahead := fun n hn => ht n (Nat.lt_of_succ_lt hn)
    have hslots : t₀.Spans (b.inputs.entries.filterMap (·.2.block?)) ids := by
      rwa [Block.children, Table.values, List.filterMap_map] at hchildren
    have hstart : ({ b with
        id := copyOf x, parent := some parent, topLevel := false, next := none } :
          Block).inputs.entries = [] ++ b.inputs.entries := rfl
    obtain ⟨inputs, t', hrun, hinputs, hadded⟩ := ih.slots (t := t.draw) (n := copyOf x)
      [copyOf x] hslots (by simpa using hlen) hids hdraw hold hstart
    have hcopy : ({ b with
        id := copyOf x, parent := some parent, topLevel := false, next := none, inputs } : Block) =
          b.copied copyOf (copyOf x) parent := by
      rw [Block.copied, show inputs = b.inputs.map (Input.rename copyOf) from
        Table.ext_entries hinputs]
    have hn : t'.block? (copyOf x) = none := by
      refine hadded.none_of_not_mem ?_ ?_
      · rw [hx]
        exact ht _ (Nat.lt_succ_self _)
      · rw [hids, Target.mem_blockIds, hx]
        rintro ⟨m, hlt, -, heq⟩
        have := Target.idText_injective heq
        omega
    have hroots : b.inputs.entries.filterMap (·.2.block?) = b.children := by
      rw [Block.children, Table.values, List.filterMap_map]
      rfl
    rw [hroots] at hadded
    refine ⟨_, ?_, hadded.write hb hn⟩
    rw [Target.copyTree_succ (hold hb)]
    simp only [show t.freshId "block" = copyOf x from hx.symm, hrun, hcopy, List.map_cons]
    rfl

end

namespace Target

variable {t : Target} {root : String} {ids : List String}

/-- The root of a tree stands in no slot of the tree. -/
theorem Spans.root_not_mem (h : t.Spans [root] ids) (hnodup : ids.Nodup) {y : String}
    (hy : y ∈ ids) : root ∉ t.childrenOf y := by
  have hall : (root :: ids.flatMap t.childrenOf).Nodup := h.perm.nodup_iff.1 hnodup
  exact fun hroot => (List.nodup_cons.1 hall).1 (List.mem_flatMap.2 ⟨y, hy, hroot⟩)

theorem Spans.children_nodup (h : t.Spans [root] ids) (hnodup : ids.Nodup) {y : String}
    (hy : y ∈ ids) : (t.childrenOf y).Nodup := by
  have hall : (root :: ids.flatMap t.childrenOf).Nodup := h.perm.nodup_iff.1 hnodup
  exact (List.nodup_flatMap.1 (List.nodup_cons.1 hall).2).1 y hy

/-- A block stands in the slots of only one block of a tree. -/
theorem Spans.parent_unique (h : t.Spans [root] ids) (hnodup : ids.Nodup) {x y z : String}
    (hy : y ∈ ids) (hz : z ∈ ids) (hxy : x ∈ t.childrenOf y) (hxz : x ∈ t.childrenOf z) :
    y = z := by
  have hall : (root :: ids.flatMap t.childrenOf).Nodup := h.perm.nodup_iff.1 hnodup
  have hdisjoint := (List.nodup_flatMap.1 (List.nodup_cons.1 hall).2).2
  have hsymm : Std.Symm (Function.onFun List.Disjoint t.childrenOf) :=
    ⟨fun _ _ hd _ hb ha => hd ha hb⟩
  by_contra hne
  exact hdisjoint.forall hy hz hne hxy hxz

/-- Trees are copied as a whole. -/
theorem Spans.duplicate_added (h : t.Spans [root] ids) (ht : t.Ahead) (hnodup : ids.Nodup)
    (parent : String) :
    ∃ t', t.duplicate root parent = (ids.map (t.copyId ids), t') ∧
      Added t (t.copyId ids) parent [root] ids t t' := by
  obtain ⟨t', hrun, hadded⟩ := copiesWithin t (t.copyId ids) (t.blocks.size + 1) parent h
    (Nat.le_succ_of_le (h.length_le hnodup)) (t.map_copyId hnodup) ht id
  exact ⟨t', by simp only [duplicate, hrun], hadded⟩

/-- Duplicating a tree leaves every block as it is and adds one copy for each block of the tree,
under ids that were not in use, in preorder and with the root first. A copy is like its original,
except that its slots and its parent refer to copies and that nothing follows it. -/
theorem duplicate_isomorphic (t : Target) (root parent : String) (ids : List String)
    (ht : t.Ahead) (hspans : t.Spans [root] ids) (hnodup : ids.Nodup) :
    let copyOf := t.copyId ids
    let t' := (t.duplicate root parent).2
    (t.duplicate root parent).1 = ids.map copyOf ∧ ids.head? = some root ∧
    (ids.map copyOf).Nodup ∧ (∀ x ∈ ids, t.block? (copyOf x) = none) ∧
    t' = { t with blocks := t'.blocks, drawn := t.drawn + ids.length } ∧
    (∃ added : List (String × Block), t'.blocks.entries = t.blocks.entries ++ added ∧
      (added.map (·.1)).Perm (ids.map copyOf)) ∧
    ∀ x ∈ ids, ∃ b p, t.block? x = some b ∧
      t'.block? (copyOf x) = some (b.copied copyOf (copyOf x) p) ∧
      (x = root ∨ ∃ y ∈ ids, x ∈ t.childrenOf y) ∧ (x = root → p = parent) ∧
      ∀ y ∈ ids, x ∈ t.childrenOf y → p = copyOf y := by
  intro copyOf t'
  have hids : ids.map copyOf = blockIds t.drawn ids.length := t.map_copyId hnodup
  obtain ⟨t₁, hresult, hadded⟩ := hspans.duplicate_added ht hnodup parent
  obtain rfl : t' = t₁ := congrArg Prod.snd hresult
  refine ⟨congrArg Prod.fst hresult, ?_, hids ▸ nodup_blockIds _ _, fun x hx => ?_, hadded.shell,
    hadded.entries, fun x hx => ?_⟩
  · obtain ⟨_, _, rfl, -⟩ := hspans.root
    rfl
  · exact ht _ (by omega)
  · obtain ⟨b, p, hb, hcopy, hp⟩ := hadded.copies x hx
    refine ⟨b, p, hb, hcopy, ?_⟩
    obtain ⟨hroot, rfl⟩ | ⟨y, hy, hyx, rfl⟩ := hp
    · obtain rfl := List.mem_singleton.1 hroot
      exact ⟨.inl rfl, fun _ => rfl, fun y hy hyx => absurd hyx (hspans.root_not_mem hnodup hy)⟩
    · refine ⟨.inr ⟨y, hy, hyx⟩, ?_, fun z hz hzx => ?_⟩
      · rintro rfl
        exact absurd hyx (hspans.root_not_mem hnodup hy)
      · rw [hspans.parent_unique hnodup hy hz hyx hzx]

/-- A comparison of a sum, whose second operand is an argument, with a product. -/
def comparedSum : Target where
  name := "Sprite1"
  isStage := false
  layer := 1
  drawn := 5
  blocks := .ofEntries
    [("block_2", { Block.arithmetic "block_2" .add (.payload (.number "1")) (.block "block_4") with
        parent := some "block_1" }),
     ("block_1", Block.less "block_1" (.block "block_2") (.block "block_3")),
     ("block_3", { Block.arithmetic "block_3" .multiply .empty .empty with
        parent := some "block_1" }),
     ("block_4", { Block.reporter "block_4" "a" .number false with parent := some "block_2" })]

theorem comparedSum_spans :
    comparedSum.Spans ["block_1"] ["block_1", "block_2", "block_4", "block_3"] :=
  have hreporter : comparedSum.Spans ["block_4"] ("block_4" :: ([] ++ [])) := .cons rfl .nil .nil
  have hproduct : comparedSum.Spans ["block_3"] ("block_3" :: ([] ++ [])) := .cons rfl .nil .nil
  have hoperands : comparedSum.Spans ["block_2", "block_3"]
      ("block_2" :: (["block_4"] ++ ["block_3"])) := .cons rfl hreporter hproduct
  have hall : comparedSum.Spans ["block_1"]
      ("block_1" :: (["block_2", "block_4", "block_3"] ++ [])) := .cons rfl hoperands .nil
  hall

theorem comparedSum_ahead : comparedSum.Ahead := by
  intro n hn
  have hkeys : comparedSum.blocks.keys = [2, 1, 3, 4].map (idText "block") := rfl
  rw [block?, Table.get?_eq_none_iff, hkeys, List.mem_map]
  rintro ⟨m, hm, heq⟩
  obtain rfl := idText_injective heq
  have hn : 5 < m := hn
  simp only [List.mem_cons, List.not_mem_nil, or_false] at hm
  omega

/-- The copies of a comparison and its operands are numbered from the outside in, and the copy of
the argument stands below the copy of the sum. -/
theorem comparedSum_duplicated :
    comparedSum.Ahead ∧
    (comparedSum.duplicate "block_1" "host").1 = ["block_6", "block_7", "block_8", "block_9"] ∧
    ∃ b, comparedSum.block? "block_4" = some b ∧
      (comparedSum.duplicate "block_1" "host").2.block? "block_8" =
        some { b with id := "block_8", parent := some "block_7" } := by
  obtain ⟨hcreated, -, -, -, -, -, hcopies⟩ := duplicate_isomorphic comparedSum "block_1" "host"
    ["block_1", "block_2", "block_4", "block_3"] comparedSum_ahead comparedSum_spans (by decide)
  obtain ⟨b, p, hb, hcopy, -, -, hparent⟩ := hcopies "block_4" (by decide)
  obtain rfl := hparent "block_2" (by decide) (by decide)
  cases hb
  exact ⟨comparedSum_ahead, hcreated, _, rfl, hcopy⟩

end Target

end ScriptBlocks
