import ScriptBlocks.Proofs.Site

/-!
# Insertions

A block can be spliced in front of a statement wherever the statement stands: after another one, in
a slot, or at the head of a script. Whatever led to the statement then leads to the block, and the
block leads to the statement. Blocks that are inserted one after the other before the same statement
stand there in this order.
-/
namespace ScriptBlocks

variable {ids cs : List String} {l : Links} {d : String}

/-- Another id in place of `s`. -/
def replaceId (s c x : String) : String :=
  if x = s then c else x

/-- The block leads to `c` wherever it led to `s`. -/
def Block.leading (s c : String) (b : Block) : Block :=
  { b with
    next := b.next.map (replaceId s c)
    inputs := b.inputs.map (Input.rename (replaceId s c)) }

/-- References resolve, a block has a parent exactly when that refers to it, no block refers to
another twice, and there are no cycles. -/
structure Target.Wired (t : Target) : Prop where
  id_eq : ∀ {x b}, t.block? x = some b → b.id = x
  exists_ref : ∀ {x b y}, t.block? x = some b → y ∈ b.links.refs → ∃ c, t.block? y = some c
  parent_iff : ∀ {x b p}, t.block? x = some b →
    (b.parent = some p ↔ ∃ c, t.block? p = some c ∧ x ∈ c.links.refs)
  nodup : ∀ {x b}, t.block? x = some b → b.links.refs.Nodup
  rooted : ∀ {x b}, t.block? x = some b → Rooted t.links x

/-- A block that can be inserted before `s`: it stands alone, and `s` is not below it. -/
def Target.Loose (t : Target) (s c : String) : Prop :=
  ∃ b, t.block? c = some b ∧ b.parent = none ∧ b.next = none ∧ ¬ Above t.links c s

/-- The block `c` has taken the place of `s`, and `s` follows it. -/
structure Target.Splices (t : Target) (s c : String) (bs bc : Block) (t' : Target) : Prop where
  below : t'.block? s = some { bs with parent := some c, topLevel := false, position := none }
  above : t'.block? c = some { bc with
    parent := bs.parent, next := some s, topLevel := bs.topLevel, position := bs.position }
  holder : ∀ {p bp}, bs.parent = some p → t.block? p = some bp →
    t'.block? p = some (bp.leading s c)
  other : ∀ {x}, x ≠ s → x ≠ c → bs.parent ≠ some x → t'.block? x = t.block? x
  keys : t'.blocks.keys = t.blocks.keys
  shell : t' = { t with
    blocks := t'.blocks
    scopes := if bs.parent = none then t.scopes.map (Scope.rehead s c) else t.scopes }

/-- The chain `cs` has taken the place of `s`, and `s` follows it. The first block of the chain
leads the script, if `s` did. -/
structure Target.Inserted (t : Target) (s : String) (bs : Block) (cs : List String) (t' : Target) :
    Prop where
  chain : Chain t'.links bs.parent (cs ++ [s]) bs.next
  members : ∀ {x b}, x ∈ cs ++ [s] → t.block? x = some b → ∃ parent next,
    t'.block? x = some { b with
      parent, next, topLevel := x = cs.head?.getD s && bs.topLevel
      position := if x = cs.head?.getD s then bs.position else none }
  holder : ∀ {p bp}, bs.parent = some p → t.block? p = some bp →
    t'.block? p = some (bp.leading s (cs.head?.getD s))
  other : ∀ {x}, x ≠ s → x ∉ cs → bs.parent ≠ some x → t'.block? x = t.block? x
  keys : t'.blocks.keys = t.blocks.keys
  shell : t' = { t with
    blocks := t'.blocks
    scopes :=
      if bs.parent = none then t.scopes.map (Scope.rehead s (cs.head?.getD s)) else t.scopes }

/-! ### References -/

@[simp] theorem replaceId_self (s x : String) : replaceId s s x = x := by
  simp only [replaceId]
  split
  next h => exact h.symm
  next => rfl

theorem mem_replaceId {s c y : String} (hs : s ∈ ids) :
    y ∈ ids.map (replaceId s c) ↔ y = c ∨ y ∈ ids ∧ y ≠ s := by
  simp only [List.mem_map, replaceId]
  constructor
  · rintro ⟨x, hx, rfl⟩
    by_cases hxs : x = s
    · exact .inl (if_pos hxs)
    · rw [if_neg hxs]
      exact .inr ⟨hx, hxs⟩
  · rintro (rfl | ⟨hy, hys⟩)
    · exact ⟨s, hs, if_pos rfl⟩
    · exact ⟨y, hy, if_neg hys⟩

theorem nodup_replaceId {s c : String} (h : ids.Nodup) (hc : c ∉ ids) :
    (ids.map (replaceId s c)).Nodup := by
  refine List.pairwise_map.2 (h.imp_of_mem fun {x y} hx hy hxy => ?_)
  have hcx : c ≠ x := fun he => hc (he ▸ hx)
  have hcy : c ≠ y := fun he => hc (he ▸ hy)
  simp only [replaceId]
  split <;> split <;> grind

namespace Block

variable {s c : String} {b : Block}

theorem slots_leading (s c : String) (b : Block) :
    (b.leading s c).links.slots = b.links.slots.map fun e => (e.1, e.2.map (replaceId s c)) := by
  simp only [links, leading, Table.map, List.map_map]
  refine List.map_congr_left fun e _ => ?_
  simp only [Function.comp_apply]
  cases he : e.2.block? with
  | none => rw [Input.rename_of_none he, he, Option.map_none]
  | some id =>
    rw [Input.rename_of_some he]
    rfl

theorem refs_leading (s c : String) (b : Block) :
    (b.leading s c).links.refs = b.links.refs.map (replaceId s c) := by
  have hnext : (b.leading s c).links.next = b.links.next.map (replaceId s c) := rfl
  rw [Links.refs, Links.refs, hnext, Links.children, slots_leading, List.map_append,
    Links.children, List.filterMap_map, List.map_filterMap]
  congr 1
  cases b.links.next <;> rfl

/-- Slots that do not refer to an id are not affected by replacing it. -/
theorem map_rename_eq {es : List (String × Input)} (h : s ∉ es.filterMap (·.2.block?)) :
    es.map (fun e => (e.1, e.2.rename (replaceId s c))) = es := by
  refine (List.map_congr_left fun e he => ?_).trans (List.map_id _)
  cases hb : e.2.block? with
  | none =>
    rw [Input.rename_of_none hb]
    rfl
  | some id =>
    have hid : id ≠ s := by
      rintro rfl
      exact h (List.mem_filterMap.2 ⟨e, he, hb⟩)
    rw [Input.rename_of_some hb, replaceId, if_neg hid]
    obtain ⟨name, kind, _ | id' | value⟩ := e
    · cases hb
    · cases hb
      rfl
    · cases hb

theorem inputs_leading (h : s ∉ b.children) : (b.leading s c).inputs = b.inputs := by
  rw [children, Table.values, List.filterMap_map] at h
  exact Table.ext_entries (map_rename_eq h)

theorem leading_self (s : String) (b : Block) : b.leading s s = b := by
  have hinputs : b.inputs.map (Input.rename (replaceId s s)) = b.inputs := by
    refine Table.ext_entries ((List.map_congr_left fun e _ => ?_).trans (List.map_id _))
    obtain ⟨name, kind, _ | id | value⟩ := e
    · rfl
    · simp [Input.rename, Input.set]
    · rfl
  have hnext : b.next.map (replaceId s s) = b.next := by cases b.next <;> simp
  rw [leading, hinputs, hnext]

/-- Following the block after another. -/
theorem leading_of_next (hn : b.next = some s) (hnodup : b.links.refs.Nodup) :
    b.leading s c = { b with next := some c } := by
  have hchildren : s ∉ b.children := by
    rw [Links.refs, links_children, show b.links.next = some s from hn] at hnodup
    exact (List.nodup_cons.1 hnodup).1
  have hinputs := inputs_leading (c := c) hchildren
  simp only [leading] at hinputs ⊢
  rw [hinputs, hn]
  simp [replaceId]

/-- Filling the slot that holds the other. -/
theorem leading_of_slot (hn : b.next ≠ some s) (hs : s ∈ b.links.refs)
    (hnodup : b.links.refs.Nodup) :
    ∃ slot, b.slotOf? s = some slot ∧ b.leading s c = b.fill slot (.block c) := by
  have hentries : b.children = b.inputs.entries.filterMap (·.2.block?) := by
    rw [children, Table.values, List.filterMap_map]
    rfl
  rw [Links.refs, links_children, hentries] at hs hnodup
  have hslot : ∃ e ∈ b.inputs.entries, e.2.block? = some s := by
    obtain hs | hs := List.mem_append.1 hs
    · exact absurd (Option.mem_toList.1 hs) hn
    · exact List.mem_filterMap.1 hs
  obtain ⟨e, he⟩ : ∃ e, b.inputs.entries.find? (fun e => e.2.block? = some s) = some e := by
    rw [← Option.isSome_iff_exists, List.find?_isSome]
    simpa using hslot
  obtain ⟨hes, before, after, hsplit, hbefore⟩ := List.find?_eq_some_iff_append.1 he
  have hes : e.2.block? = some s := by simpa using hes
  -- no other slot holds it, before or after
  have hbefore : s ∉ before.filterMap (·.2.block?) := by
    intro hm
    obtain ⟨d, hd, hds⟩ := List.mem_filterMap.1 hm
    simpa [hds] using hbefore d hd
  have hafter : s ∉ after.filterMap (·.2.block?) := by
    rw [hsplit, List.filterMap_append, List.filterMap_cons, hes] at hnodup
    have hrest := (List.nodup_append.1 (List.nodup_append.1 hnodup).2.1).2.1
    exact (List.nodup_cons.1 hrest).1
  refine ⟨e.1, by rw [slotOf?, he, Option.map_some], ?_⟩
  have hinputs : b.inputs.map (Input.rename (replaceId s c)) = (b.fill e.1 (.block c)).inputs := by
    refine Table.ext_entries ?_
    have hmap : (b.inputs.map (Input.rename (replaceId s c))).entries =
        b.inputs.entries.map fun e => (e.1, e.2.rename (replaceId s c)) := rfl
    rw [hmap, entries_fill hsplit, hsplit, List.map_append, List.map_cons, map_rename_eq hbefore,
      map_rename_eq hafter, Input.rename_of_some hes, replaceId, if_pos rfl]
  have hnext : b.next.map (replaceId s c) = b.next := by
    cases hb : b.next with
    | none => rfl
    | some y =>
      have hy : y ≠ s := fun hy => hn (hy ▸ hb)
      simp [replaceId, hy]
  rw [leading, hinputs, hnext]
  rfl

end Block

theorem Scope.rehead_self (s : String) (scope : Scope) : scope.rehead s s = scope := by
  obtain ⟨anchor, _ | head⟩ | ⟨anchor, start⟩ := scope
  · rfl
  · simp only [rehead]
    split
    next h => rw [h]
    next => rfl
  · rfl

/-! ### Links without the names of slots

Whether a slot holds a value or a body does not matter here. So the graph is looked at as if all
slots were for bodies, and what is known of linked graphs applies.
-/

/-- The links of a block as if every slot were one for a body. -/
def Links.plain (l : Links) : Links :=
  { l with slots := l.slots.map fun e => ("SUBSTACK", e.2) }

def LinkMap.plain (g : LinkMap) : LinkMap :=
  fun x => (g x).map Links.plain

@[simp] theorem Links.refs_plain (l : Links) : l.plain.refs = l.refs := by
  simp only [refs, plain, children, List.filterMap_map]
  rfl

theorem Links.isBodySlot_of_plain {slot : String} {held : Option String}
    (h : (slot, held) ∈ l.plain.slots) : isBodySlot slot = true := by
  obtain ⟨e, -, he⟩ := List.mem_map.1 h
  obtain rfl : "SUBSTACK" = slot := congrArg Prod.fst he
  rfl

namespace LinkMap

variable {g : LinkMap} {a x : String}

theorem above_plain : Above g.plain a x ↔ Above g a x := by
  constructor
  · intro h
    induction h with
    | refl => exact .refl
    | step hx hp _ ih =>
      obtain ⟨l, hl, rfl⟩ := Option.map_eq_some_iff.1 hx
      exact .step hl hp ih
  · intro h
    induction h with
    | refl => exact .refl
    | step hx hp _ ih => exact .step (l := Links.plain _) (by rw [plain, hx, Option.map_some]) hp ih

theorem rooted_plain : Rooted g.plain x ↔ Rooted g x := by
  constructor
  · refine Rooted.transfer (P := fun _ => False) False.elim fun hx _ => ?_
    obtain ⟨l, hl, rfl⟩ := Option.map_eq_some_iff.1 hx
    exact ⟨l, hl, rfl⟩
  · refine Rooted.transfer (P := fun _ => False) False.elim fun hx _ => ?_
    exact ⟨Links.plain _, by rw [plain, hx, Option.map_some], rfl⟩

end LinkMap

namespace Target

variable {t : Target}

theorem plain_eq_some {x : String} {b : Block} (h : t.block? x = some b) :
    t.links.plain x = some b.links.plain := by
  rw [LinkMap.plain, links_eq_some h, Option.map_some]

theorem exists_of_plain {x : String} (h : t.links.plain x = some l) :
    ∃ b, t.block? x = some b ∧ l = b.links.plain := by
  obtain ⟨l', hl', rfl⟩ := Option.map_eq_some_iff.1 h
  obtain ⟨b, hb, rfl⟩ := Option.map_eq_some_iff.1 hl'
  exact ⟨b, hb, rfl⟩

theorem Wired.linked (h : t.Wired) : Linked t.links.plain where
  id_eq hx := by
    obtain ⟨b, hb, rfl⟩ := exists_of_plain hx
    exact h.id_eq hb
  down {x l y} hx hy := by
    obtain ⟨b, hb, rfl⟩ := exists_of_plain hx
    rw [Links.refs_plain] at hy
    obtain ⟨c, hc⟩ := h.exists_ref hb hy
    exact ⟨_, plain_eq_some hc, (h.parent_iff hc).2 ⟨b, hb, hy⟩⟩
  up {x l p} hx hp := by
    obtain ⟨b, hb, rfl⟩ := exists_of_plain hx
    obtain ⟨c, hc, hmem⟩ := (h.parent_iff hb).1 hp
    exact ⟨_, plain_eq_some hc, by rwa [Links.refs_plain]⟩
  nodup hx := by
    obtain ⟨b, hb, rfl⟩ := exists_of_plain hx
    rw [Links.refs_plain]
    exact h.nodup hb
  rooted hx := by
    obtain ⟨b, hb, rfl⟩ := exists_of_plain hx
    exact LinkMap.rooted_plain.2 (h.rooted hb)
  value_last {x l slot y m} hx hs hbody _ := by
    obtain ⟨b, hb, rfl⟩ := exists_of_plain hx
    cases hbody.symm.trans (Links.isBodySlot_of_plain hs)

theorem Wired.of_linked (h : Linked t.links.plain) : t.Wired where
  id_eq hx := (h.id_eq (plain_eq_some hx) :)
  exists_ref hx hy := by
    obtain ⟨m, hm, -⟩ := h.down (plain_eq_some hx) (by rwa [Links.refs_plain])
    obtain ⟨c, hc, -⟩ := exists_of_plain hm
    exact ⟨c, hc⟩
  parent_iff {x b p} hx := by
    constructor
    · intro hp
      obtain ⟨m, hm, hmem⟩ := h.up (plain_eq_some hx) hp
      obtain ⟨c, hc, rfl⟩ := exists_of_plain hm
      exact ⟨c, hc, by rwa [Links.refs_plain] at hmem⟩
    · rintro ⟨c, hc, hmem⟩
      exact h.parent_of_mem (plain_eq_some hc) (by rwa [Links.refs_plain]) (plain_eq_some hx)
  nodup hx := by
    have hnodup := h.nodup (plain_eq_some hx)
    rwa [Links.refs_plain] at hnodup
  rooted hx := LinkMap.rooted_plain.1 (h.rooted (plain_eq_some hx))

theorem Wired.parent_ne_self (h : t.Wired) {x : String} {b : Block} (hx : t.block? x = some b) :
    b.parent ≠ some x :=
  h.linked.parent_ne_self (plain_eq_some hx)

/-! ### One insertion -/

/-- What leads to the statement is led to the block instead. -/
theorem Wired.redirect_eq (h : t.Wired) {s : String} {bs : Block} (c : String)
    (hs : t.block? s = some bs) :
    (t.redirect bs.parent s c).blocks.keys = t.blocks.keys ∧
      t.redirect bs.parent s c = { t with
        blocks := (t.redirect bs.parent s c).blocks
        scopes := if bs.parent = none then t.scopes.map (Scope.rehead s c) else t.scopes } ∧
      ∀ x, (t.redirect bs.parent s c).block? x =
        if bs.parent = some x then (t.block? x).map (Block.leading s c) else t.block? x := by
  cases hp : bs.parent with
  | none => exact ⟨rfl, rfl, fun x => rfl⟩
  | some p =>
    obtain ⟨bp, hbp, hmem⟩ := (h.parent_iff hs).1 hp
    have hlookup (f : Block → Block) (x : String) (hf : bp.leading s c = f bp) :
        (t.modifyBlock p f).block? x =
          if some p = some x then (t.block? x).map (Block.leading s c) else t.block? x := by
      rw [block?_modifyBlock]
      by_cases hx : p = x
      · subst hx
        simp [hbp, hf]
      · simp [hx]
    simp only [redirect, hbp, Option.bind_some, Option.map_some]
    split
    next hn =>
      exact ⟨Table.keys_modify _ _ _, rfl,
        fun x => hlookup _ x (Block.leading_of_next hn (h.nodup hbp))⟩
    next hn =>
      obtain ⟨slot, hslot, hfill⟩ := Block.leading_of_slot (c := c) hn hmem (h.nodup hbp)
      simp only [hslot]
      exact ⟨Table.keys_modify _ _ _, rfl, fun x => hlookup _ x hfill⟩

/-- The exact effect of an insertion. -/
theorem Wired.splices (h : t.Wired) {s c : String} {bs bc : Block} (hs : t.block? s = some bs)
    (hc : t.block? c = some bc) (hne : c ≠ s) (hpc : bs.parent ≠ some c) :
    t.Splices s c bs bc (t.insertBefore s c) := by
  have hps : bs.parent ≠ some s := h.parent_ne_self hs
  obtain ⟨hkeys, hshell, hlookup⟩ := h.redirect_eq c hs
  have hblock (x : String) : (t.insertBefore s c).block? x =
      if x = s then some { bs with parent := some c, topLevel := false, position := none }
      else if x = c then some { bc with
        parent := bs.parent, next := some s, topLevel := bs.topLevel, position := bs.position }
      else if bs.parent = some x then (t.block? x).map (Block.leading s c)
      else t.block? x := by
    simp only [insertBefore, hs, block?_modifyBlock, hlookup]
    by_cases hxs : x = s
    · subst hxs
      simp [hne, hps, hs]
    · by_cases hxc : x = c
      · subst hxc
        simp [hxs, Ne.symm hxs, hpc, hc]
      · simp [hxs, hxc, Ne.symm hxs, Ne.symm hxc]
  refine ⟨by simp [hblock], by simp [hblock, hne], fun {p bp} hp hbp => ?_,
    fun {x} hxs hxc hpx => by simp [hblock, hxs, hxc, hpx], ?_, ?_⟩
  · have hps' : p ≠ s := fun e => hps (e ▸ hp)
    have hpc' : p ≠ c := fun e => hpc (e ▸ hp)
    simp [hblock, hps', hpc', hp, hbp]
  · simp only [insertBefore, hs, modifyBlock, Table.keys_modify, hkeys]
  · simp only [insertBefore, hs, modifyBlock]
    rw [hshell]

namespace Splices

variable {t' : Target} {s c : String} {bs bc : Block}

/-- An insertion leaves the graph wired. -/
theorem wired (hsp : t.Splices s c bs bc t') (h : t.Wired) (hs : t.block? s = some bs)
    (hc : t.block? c = some bc) (hroot : bc.parent = none) (hlast : bc.next = none)
    (hapart : ¬ Above t.links c s) : t'.Wired := by
  have hspliced : Spliced t.links.plain t'.links.plain s c bs.links.plain bc.links.plain := by
    refine ⟨h.linked, plain_eq_some hs, plain_eq_some hc, hroot, hlast,
      fun ha => hapart (LinkMap.above_plain.1 ha), ?_, plain_eq_some hsp.below,
      plain_eq_some hsp.above, fun p lp hp hlp => ?_, fun x hxs hxc hpx => ?_⟩
    · intro y l slot hy hslot
      obtain ⟨b, hb, rfl⟩ := exists_of_plain hy
      exact Links.isBodySlot_of_plain hslot
    · obtain ⟨bp, hbp, rfl⟩ := exists_of_plain hlp
      obtain ⟨_, hbp', hmem⟩ := (h.parent_iff hs).1 hp
      cases hbp'.symm.trans hbp
      have hout : c ∉ bp.links.refs := fun hm => by
        cases hroot.symm.trans ((h.parent_iff hc).2 ⟨bp, hbp, hm⟩)
      refine ⟨_, plain_eq_some (hsp.holder hp hbp), rfl, rfl, ?_, fun y => ?_, fun hn => ?_,
        fun slot y hslot hbody => ?_⟩
      · rw [Links.refs_plain, Block.refs_leading]
        exact nodup_replaceId (h.nodup hbp) hout
      · rw [Links.refs_plain, Links.refs_plain, Block.refs_leading]
        exact mem_replaceId hmem
      · show bp.next.map (replaceId s c) = none
        rw [show bp.next = none from hn, Option.map_none]
      · cases hbody.symm.trans (Links.isBodySlot_of_plain hslot)
    · rw [LinkMap.plain, LinkMap.plain, links, links, hsp.other hxs hxc hpx]
  exact .of_linked hspliced.linked

/-- Other blocks keep their parents. -/
theorem parent_eq (hsp : t.Splices s c bs bc t') (h : t.Wired) (hs : t.block? s = some bs)
    {x : String} {b' : Block} (hxs : x ≠ s) (hxc : x ≠ c) (hx : t'.block? x = some b') :
    ∃ b, t.block? x = some b ∧ b'.parent = b.parent := by
  by_cases hpx : bs.parent = some x
  · obtain ⟨bp, hbp, -⟩ := (h.parent_iff hs).1 hpx
    cases (hsp.holder hpx hbp).symm.trans hx
    exact ⟨bp, hbp, rfl⟩
  · exact ⟨b', (hsp.other hxs hxc hpx).symm.trans hx, rfl⟩

/-- The way up from a block only gets the inserted one and the way up from the statement. -/
theorem above_old (hsp : t.Splices s c bs bc t') (h : t.Wired) (hs : t.block? s = some bs)
    (hc : t.block? c = some bc) (hroot : bc.parent = none) {a x : String} (hac : a ≠ c)
    (ha : Above t'.links a x) : Above t.links a x ∨ Above t.links a s := by
  induction ha with
  | refl => exact .inl .refl
  | @step x p l hx hp _ ih =>
    obtain ⟨b', hb', rfl⟩ := Option.map_eq_some_iff.1 hx
    obtain hup | hup := ih
    · by_cases hxs : x = s
      · subst hxs
        cases hsp.below.symm.trans hb'
        obtain rfl : c = p := Option.some.inj hp
        -- nothing is above the inserted block but itself
        cases hup with
        | refl => exact absurd rfl hac
        | step hc' hp' _ =>
          cases (links_eq_some hc).symm.trans hc'
          cases hroot.symm.trans hp'
      · by_cases hxc : x = c
        · subst hxc
          cases hsp.above.symm.trans hb'
          exact .inr (.step (links_eq_some hs) hp hup)
        · obtain ⟨b, hb, hparent⟩ := hsp.parent_eq h hs hxs hxc hb'
          exact .inl (.step (links_eq_some hb) (hparent.symm.trans hp) hup)
    · exact .inr hup

end Splices

theorem Loose.ne {s : String} (hd : t.Loose s d) : d ≠ s := by
  rintro rfl
  obtain ⟨b, -, -, -, hapart⟩ := hd
  exact hapart .refl

theorem Loose.parent_ne {s : String} {bs : Block} (hd : t.Loose s d) (hs : t.block? s = some bs) :
    bs.parent ≠ some d := by
  obtain ⟨b, -, -, -, hapart⟩ := hd
  exact fun hp => hapart (.step (links_eq_some hs) hp .refl)

/-- A block that could be inserted still can after another one. -/
theorem Splices.loose {t' : Target} {s c : String} {bs bc : Block} (hsp : t.Splices s c bs bc t')
    (h : t.Wired) (hs : t.block? s = some bs) (hc : t.block? c = some bc) (hroot : bc.parent = none)
    (hd : t.Loose s d) (hdc : d ≠ c) : t'.Loose s d := by
  have hother := hsp.other hd.ne hdc (hd.parent_ne hs)
  obtain ⟨b, hb, hp, hn, hapart⟩ := hd
  refine ⟨b, hother.trans hb, hp, hn, fun ha => hapart ?_⟩
  exact (hsp.above_old h hs hc hroot hdc ha).elim id id

/-! ### Many insertions -/

theorem Inserted.nil (t : Target) {s : String} {bs : Block} (hs : t.block? s = some bs) :
    t.Inserted s bs [] t where
  chain := ⟨⟨_, links_eq_some hs, rfl, by simp; rfl⟩, trivial⟩
  members {x b} hx hb := by
    obtain rfl : x = s := by simpa using hx
    cases hs.symm.trans hb
    exact ⟨bs.parent, bs.next, by simp [hs]⟩
  holder _ hbp := by rw [List.head?_nil, Option.getD_none, Block.leading_self, hbp]
  other _ _ _ := rfl
  keys := rfl
  shell := by
    have hscopes : t.scopes.map (Scope.rehead s s) = t.scopes :=
      (List.map_congr_left fun scope _ => Scope.rehead_self s scope).trans (List.map_id _)
    rw [List.head?_nil, Option.getD_none, hscopes, ite_self]

/-- Another block at the front of the chain, inserted before the others. -/
theorem Inserted.cons {t₁ t' : Target} {s c : String} {bs bc : Block} (hsp : t.Splices s c bs bc t₁)
    (hrest : t₁.Inserted s { bs with parent := some c, topLevel := false, position := none } cs t')
    (h : t.Wired) (hs : t.block? s = some bs) (hc : t.block? c = some bc) (hloose : t.Loose s c)
    (hcs : ∀ d ∈ cs, t.Loose s d) (hout : c ∉ cs) : t.Inserted s bs (c :: cs) t' := by
  have hchildren : s ∉ bc.children := by
    rw [← Block.links_children]
    intro hm
    exact hloose.parent_ne hs
      ((h.parent_iff hs).2 ⟨bc, hc, List.mem_append_right _ hm⟩)
  have hfirst : t'.block? c = some { bc with
      parent := bs.parent, next := some (cs.head?.getD s), topLevel := bs.topLevel
      position := bs.position } := by
    rw [hrest.holder rfl hsp.above]
    have hinputs := Block.inputs_leading (c := cs.head?.getD s) hchildren
    simp only [Block.leading] at hinputs ⊢
    simp [hinputs, replaceId]
  have hhead : (cs ++ [s]).head? = some (cs.head?.getD s) := by cases cs <;> rfl
  refine ⟨⟨⟨_, links_eq_some hfirst, rfl, ?_⟩, hrest.chain⟩, fun {x b} hx hb => ?_,
    fun {p bp} hp hbp => ?_, fun {x} hxs hx hpx => ?_, hrest.keys.trans hsp.keys, ?_⟩
  · show some _ = (cs ++ [s]).head?.or bs.next
    rw [hhead, Option.some_or]
  · rw [List.cons_append, List.mem_cons] at hx
    by_cases hxc : x = c
    · subst hxc
      cases hc.symm.trans hb
      exact ⟨bs.parent, some (cs.head?.getD s), by rw [hfirst]; simp⟩
    · have hx : x ∈ cs ++ [s] := hx.resolve_left hxc
      by_cases hxs : x = s
      · subst hxs
        cases hs.symm.trans hb
        obtain ⟨parent, next, hb'⟩ := hrest.members hx hsp.below
        exact ⟨parent, next, by rw [hb']; simp [hxc]⟩
      · have hmem : x ∈ cs := (List.mem_append.1 hx).resolve_right (by simpa using hxs)
        obtain ⟨parent, next, hb'⟩ := hrest.members hx
          ((hsp.other hxs hxc ((hcs x hmem).parent_ne hs)).trans hb)
        exact ⟨parent, next, by rw [hb']; simp [hxc]⟩
  · have hps : p ≠ s := fun he => h.parent_ne_self hs (he ▸ hp)
    have hpc : c ≠ p := fun he => hloose.parent_ne hs (he ▸ hp)
    have hpcs : p ∉ cs := fun hm => (hcs p hm).parent_ne hs hp
    rw [hrest.other hps hpcs (by simpa using hpc), hsp.holder hp hbp]
    rfl
  · rw [List.mem_cons, not_or] at hx
    rw [hrest.other hxs hx.2 (by simpa using Ne.symm hx.1), hsp.other hxs hx.1 hpx]
  · have hshell := hrest.shell
    rw [if_neg (by simp)] at hshell
    rw [hshell, hsp.shell]
    rfl

/-- Blocks that stand alone are inserted one after the other. -/
theorem Wired.inserted {s : String} {bs : Block} (h : t.Wired) (hs : t.block? s = some bs)
    (hnodup : cs.Nodup) (hcs : ∀ c ∈ cs, t.Loose s c) :
    (cs.foldl (fun t c => t.insertBefore s c) t).Wired ∧
      t.Inserted s bs cs (cs.foldl (fun t c => t.insertBefore s c) t) := by
  induction cs generalizing t bs with
  | nil => exact ⟨h, .nil t hs⟩
  | cons c cs ih =>
    obtain ⟨hout, hnodup⟩ := List.nodup_cons.1 hnodup
    have hloose : t.Loose s c := hcs c (by simp)
    have hcs' : ∀ d ∈ cs, t.Loose s d := fun d hd => hcs d (List.mem_cons_of_mem _ hd)
    obtain ⟨bc, hc, hroot, hlast, hapart⟩ := hcs c (by simp)
    have hsp : t.Splices s c bs bc (t.insertBefore s c) :=
      h.splices hs hc hloose.ne (hloose.parent_ne hs)
    obtain ⟨hwired, hrest⟩ := ih (hsp.wired h hs hc hroot hlast hapart) hsp.below hnodup
      fun d hd => hsp.loose h hs hc hroot (hcs' d hd) fun he => hout (he ▸ hd)
    exact ⟨hwired, .cons hsp hrest h hs hc hloose hcs' hout⟩

/-- Inserting a block before a statement is an exact splice: in a wired target, a block that stands
alone takes the place, the parent and the position of the statement and is followed by it, whatever
led to the statement leads to the block, all else is unchanged and the target is wired again. So
blocks that are inserted one after the other form a chain in this order at the place of the
statement. -/
theorem insertBefore_splices (t : Target) (h : t.Wired) (s : String) (bs : Block)
    (hs : t.block? s = some bs) :
    (∀ c bc, t.block? c = some bc → t.Loose s c →
      (t.insertBefore s c).Wired ∧ t.Splices s c bs bc (t.insertBefore s c)) ∧
    ∀ cs : List String, cs.Nodup → (∀ c ∈ cs, t.Loose s c) →
      (cs.foldl (fun t c => t.insertBefore s c) t).Wired ∧
        t.Inserted s bs cs (cs.foldl (fun t c => t.insertBefore s c) t) := by
  refine ⟨fun c bc hc hloose => ?_, fun cs hnodup hcs => h.inserted hs hnodup hcs⟩
  have hsp := h.splices hs hc hloose.ne (hloose.parent_ne hs)
  obtain ⟨b, hb, hroot, hlast, hapart⟩ := hloose
  cases hb.symm.trans hc
  exact ⟨hsp.wired h hs hc hroot hlast hapart, hsp⟩

/-- A conditional with a body of one statement, and two calls that stand alone. The first has an
argument. -/
def bodyOfOne : Target where
  name := "Sprite1"
  isStage := false
  layer := 1
  blocks := .ofEntries
    [("block_1", Block.withSlots "block_1" .branch .void
        [("CONDITION", ⟨.boolean, .empty⟩), ("SUBSTACK", ⟨.substack, .block "block_2"⟩)]),
     ("block_2", { Block.stop "block_2" "all" with parent := some "block_1" }),
     ("block_3", Block.withSlots "block_3" .call .void
        [("argument_1", ⟨.argument, .block "block_4"⟩)]),
     ("block_4", { Block.reporter "block_4" "a" .number false with parent := some "block_3" }),
     ("block_5", Block.withSlots "block_5" .call .void [])]

theorem bodyOfOne_cases {x : String} {b : Block} (h : bodyOfOne.block? x = some b) :
    (x, b) ∈ bodyOfOne.blocks.entries :=
  Table.get?_eq_some_iff.1 h

theorem bodyOfOne_wired : bodyOfOne.Wired where
  id_eq {x b} hx := by
    have hall : ∀ e ∈ bodyOfOne.blocks.entries, e.2.id = e.1 := by decide
    exact hall _ (bodyOfOne_cases hx)
  exists_ref {x b y} hx hy := by
    have hall : ∀ e ∈ bodyOfOne.blocks.entries, ∀ y ∈ e.2.links.refs,
        (bodyOfOne.block? y).isSome := by decide
    exact Option.isSome_iff_exists.1 (hall _ (bodyOfOne_cases hx) y hy)
  parent_iff {x b p} hx := by
    have hup : ∀ e ∈ bodyOfOne.blocks.entries, ∀ p ∈ e.2.parent,
        ∃ d ∈ bodyOfOne.blocks.entries, d.1 = p ∧ e.1 ∈ d.2.links.refs := by decide
    have hdown : ∀ d ∈ bodyOfOne.blocks.entries, ∀ e ∈ bodyOfOne.blocks.entries,
        e.1 ∈ d.2.links.refs → e.2.parent = some d.1 := by decide
    constructor
    · intro hp
      obtain ⟨⟨_, d⟩, hd, rfl, hmem⟩ := hup _ (bodyOfOne_cases hx) p hp
      exact ⟨d, Table.get?_eq_some_iff.2 hd, hmem⟩
    · rintro ⟨d, hd, hmem⟩
      exact hdown _ (bodyOfOne_cases hd) _ (bodyOfOne_cases hx) hmem
  nodup {x b} hx := by
    have hall : ∀ e ∈ bodyOfOne.blocks.entries, e.2.links.refs.Nodup := by decide
    exact hall _ (bodyOfOne_cases hx)
  rooted {x b} hx := by
    have hall : ∀ e ∈ bodyOfOne.blocks.entries, ∀ p ∈ e.2.parent,
        ∃ d ∈ bodyOfOne.blocks.entries, d.1 = p ∧ d.2.parent = none := by decide
    refine .of_parent (links_eq_some hx) fun p hp => ?_
    obtain ⟨⟨_, d⟩, hd, rfl, hroot⟩ := hall _ (bodyOfOne_cases hx) p hp
    exact .root (links_eq_some (Table.get?_eq_some_iff.2 hd)) hroot

/-- Only the conditional is above the statement in its body. -/
theorem bodyOfOne_loose {c : String} {b : Block} (hc : bodyOfOne.block? c = some b)
    (hp : b.parent = none) (hn : b.next = none) (hne : c ≠ "block_1") (hne' : c ≠ "block_2") :
    bodyOfOne.Loose "block_2" c := by
  refine ⟨b, hc, hp, hn, fun ha => ?_⟩
  have hclosed : ∀ e ∈ bodyOfOne.blocks.entries, e.1 = "block_1" ∨ e.1 = "block_2" →
      ∀ p ∈ e.2.parent, p = "block_1" ∨ p = "block_2" := by decide
  have habove : c = "block_1" ∨ c = "block_2" := by
    refine Linked.above_mem (P := fun x => x = "block_1" ∨ x = "block_2") ?_ (.inr rfl) ha
    intro x l p hx hl hlp
    obtain ⟨d, hd, rfl⟩ := Option.map_eq_some_iff.1 hl
    exact hclosed _ (bodyOfOne_cases hd) hx p hlp
  exact habove.elim hne hne'

/-- The two calls stand in the body before its statement, in their order. -/
theorem bodyOfOne_inserted :
    bodyOfOne.Wired ∧
    let t := ["block_3", "block_5"].foldl (fun t c => t.insertBefore "block_2" c) bodyOfOne
    t.Wired ∧ Chain t.links (some "block_1") ["block_3", "block_5", "block_2"] none ∧
      ∀ b, bodyOfOne.block? "block_1" = some b →
        t.block? "block_1" = some (b.leading "block_2" "block_3") := by
  have hone : bodyOfOne.Loose "block_2" "block_3" :=
    bodyOfOne_loose rfl rfl rfl (by decide) (by decide)
  have htwo : bodyOfOne.Loose "block_2" "block_5" :=
    bodyOfOne_loose rfl rfl rfl (by decide) (by decide)
  obtain ⟨hwired, hinserted⟩ := (insertBefore_splices bodyOfOne bodyOfOne_wired "block_2"
    { Block.stop "block_2" "all" with parent := some "block_1" } rfl).2 ["block_3", "block_5"]
    (by decide) (by simp [hone, htwo])
  exact ⟨bodyOfOne_wired, hwired, hinserted.chain, fun b hb => hinserted.holder rfl hb⟩

end Target

end ScriptBlocks
