import ScriptBlocks.Target

/-!
# Links between blocks

Blocks refer to each other in two directions: a block names the one after it and those in its
slots, and it names its parent. A graph of blocks is linked when the two directions agree, every
reference resolves, no block is referred to twice and the way up from a block ends. Only the links
matter here, so the lemmas below are about maps from ids to links and not about whole blocks.
-/
namespace ScriptBlocks

variable {P : String → Prop} {a z p n : String} {m lp : Links}

/-- A key that is not found differs from one that is. -/
theorem ne_of_found {α β : Type} {f : α → Option β} {x y : α} {b : β} (hx : f x = none)
    (hy : f y = some b) : x ≠ y := by
  rintro rfl
  simp [hx] at hy

/-- What a block refers to. -/
structure Links where
  id : String
  next : Option String
  parent : Option String
  /-- The slots in order, with the blocks that they hold. -/
  slots : List (String × Option String)

namespace Links

def children (l : Links) : List String :=
  l.slots.filterMap (·.2)

/-- All references downwards. -/
def refs (l : Links) : List String :=
  l.next.toList ++ l.children

theorem mem_children {l : Links} {y : String} :
    y ∈ l.children ↔ ∃ slot, (slot, some y) ∈ l.slots := by
  simp [children]

theorem mem_refs {l : Links} {y : String} :
    y ∈ l.refs ↔ l.next = some y ∨ ∃ slot, (slot, some y) ∈ l.slots := by
  simp [refs, mem_children]

end Links

def Block.links (b : Block) : Links :=
  ⟨b.id, b.next, b.parent, b.inputs.entries.map fun e => (e.1, e.2.block?)⟩

/-- The slots that hold a chain of statements. All others hold a value. -/
def isBodySlot (slot : String) : Bool :=
  slot = "SUBSTACK" || slot = "SUBSTACK2"

/-- The links of the blocks of a graph, by id. -/
abbrev LinkMap := String → Option Links

def Target.links (t : Target) : LinkMap :=
  fun x => (t.block? x).map Block.links

/-- The way up from a block ends at a block without a parent. -/
inductive Rooted (g : LinkMap) : String → Prop
  | root {x : String} {l : Links} : g x = some l → l.parent = none → Rooted g x
  | child {x p : String} {l : Links} : g x = some l → l.parent = some p → Rooted g p → Rooted g x

/-- The first block is on the way up from the second. -/
inductive Above (g : LinkMap) (a : String) : String → Prop
  | refl : Above g a a
  | step {x p : String} {l : Links} : g x = some l → l.parent = some p → Above g a p → Above g a x

namespace Rooted

variable {g g' : LinkMap} {r x : String} {l : Links}

theorem of_parent (hx : g x = some l) (hp : ∀ p, l.parent = some p → Rooted g p) : Rooted g x := by
  cases h : l.parent with
  | none => exact .root hx h
  | some p => exact .child hx h (hp p h)

/-- A way up leads up in another graph as well, if blocks keep their parents there apart from some
that are rooted anyway. -/
theorem transfer (hP : ∀ {x}, P x → Rooted g' x)
    (hkept : ∀ {x l}, g x = some l → ¬ P x → ∃ l', g' x = some l' ∧ l'.parent = l.parent)
    (h : Rooted g x) : Rooted g' x := by
  induction h with
  | @root x l hx hp =>
    by_cases hPx : P x
    · exact hP hPx
    · obtain ⟨l', hl', hp'⟩ := hkept hx hPx
      exact .root hl' (hp'.trans hp)
  | @child x p l hx hp _ ih =>
    by_cases hPx : P x
    · exact hP hPx
    · obtain ⟨l', hl', hp'⟩ := hkept hx hPx
      exact .child hl' (hp'.trans hp) ih

/-- The same for blocks that are not below given ones. -/
theorem apart (hkept : ∀ {x l}, g x = some l → ¬ P x →
    (∀ p, l.parent = some p → Rooted g' p) → Rooted g' x) (h : Rooted g x)
    (hn : ∀ r, P r → ¬ Above g r x) : Rooted g' x := by
  induction h with
  | root hx hp => exact hkept hx (fun hP => hn _ hP .refl) (by simp [hp])
  | child hx hp _ ih =>
    refine hkept hx (fun hP => hn _ hP .refl) fun q hq => ?_
    cases hp.symm.trans hq
    exact ih fun r hr ha => hn r hr (.step hx hp ha)

end Rooted

structure Linked (g : LinkMap) : Prop where
  id_eq : ∀ {x l}, g x = some l → l.id = x
  down : ∀ {x l y}, g x = some l → y ∈ l.refs → ∃ m, g y = some m ∧ m.parent = some x
  up : ∀ {x l p}, g x = some l → l.parent = some p → ∃ m, g p = some m ∧ x ∈ m.refs
  nodup : ∀ {x l}, g x = some l → l.refs.Nodup
  rooted : ∀ {x l}, g x = some l → Rooted g x
  /-- A block that stands for a value is not followed by another. -/
  value_last : ∀ {x l slot y m}, g x = some l → (slot, some y) ∈ l.slots → isBodySlot slot = false →
    g y = some m → m.next = none

/-- No slot for a value holds this block. -/
def NotValue (g : LinkMap) (x : String) : Prop :=
  ∀ {y l slot}, g y = some l → (slot, some x) ∈ l.slots → isBodySlot slot = true

namespace Linked

variable {g g' : LinkMap}

theorem empty : Linked (fun _ => none) := by
  constructor <;> intros <;> simp_all

/-- The way up from a set of blocks that is closed upwards stays in it. -/
theorem above_mem (hP : ∀ {x l p}, P x → g x = some l → l.parent = some p → P p) {x : String}
    (hx : P x) (ha : Above g a x) : P a := by
  induction ha with
  | refl => exact hx
  | step hq hp _ ih => exact ih (hP hx hq hp)

theorem parent_of_mem (h : Linked g) {x y : String} {l : Links} (hx : g x = some l)
    (hy : y ∈ l.refs) (hm : g y = some m) : m.parent = some x := by
  obtain ⟨k, hk, hp⟩ := h.down hx hy
  cases hk.symm.trans hm
  exact hp

theorem parent_unique (h : Linked g) {x y : String} {l : Links} (hx : g x = some l)
    (hy : g y = some m) (hzx : z ∈ l.refs) (hzy : z ∈ m.refs) : x = y := by
  obtain ⟨k, hk, hkx⟩ := h.down hx hzx
  exact Option.mem_unique hkx (h.parent_of_mem hy hzy hk)

/-- Nothing refers to a block without a parent. -/
theorem not_mem_of_root (h : Linked g) {x : String} {l : Links} (hx : g x = some l)
    (hp : l.parent = none) (hz : g z = some m) : x ∉ m.refs := by
  intro hm
  cases hp.symm.trans (h.parent_of_mem hz hm hx)

/-- What follows a block is in no slot. -/
theorem not_slotted_of_next (h : Linked g) {x y slot : String} {l : Links} (hx : g x = some l)
    (hn : l.next = some y) (hz : g z = some m) : (slot, some y) ∉ m.slots := by
  intro hs
  have hy : y ∈ l.refs := Links.mem_refs.2 (.inl hn)
  have hy' : y ∈ m.refs := Links.mem_refs.2 (.inr ⟨slot, hs⟩)
  have hxz := h.parent_unique hx hz hy hy'
  subst hxz
  rw [hx] at hz
  cases hz
  have hnd := h.nodup hx
  rw [Links.refs, hn] at hnd
  simp only [Option.toList_some, List.cons_append, List.nil_append, List.nodup_cons] at hnd
  exact hnd.1 (Links.mem_children.2 ⟨slot, hs⟩)

theorem not_slotted_of_root (h : Linked g) {x slot : String} {l : Links} (hx : g x = some l)
    (hp : l.parent = none) (hz : g z = some m) : (slot, some x) ∉ m.slots := by
  exact fun hs => h.not_mem_of_root hx hp hz (Links.mem_refs.2 (.inr ⟨slot, hs⟩))

/-- Blocks without a parent are taken into the care of one that is new or not below them. -/
theorem graft (h : Linked g) {R : List String} (hp : g' p = some lp) (hid : lp.id = p)
    (hparent : lp.parent = (g p).bind (·.parent)) (hnd : lp.refs.Nodup)
    (hmem : ∀ y, y ∈ lp.refs ↔ y ∈ R ∨ ∃ l, g p = some l ∧ y ∈ l.refs)
    (hroot : ∀ y ∈ R, ∃ m, g y = some m ∧ m.parent = none ∧ ¬ Above g y p ∧
      g' y = some { m with parent := some p })
    (hval : ∀ slot y, (slot, some y) ∈ lp.slots → isBodySlot slot = false →
      (∃ l, g p = some l ∧ (slot, some y) ∈ l.slots) ∨
        y ∈ R ∧ ∀ m, g y = some m → m.next = none)
    (hnext : NotValue g p ∨ ∃ l, g p = some l ∧ lp.next = l.next)
    (hother : ∀ x, x ≠ p → x ∉ R → g' x = g x) : Linked g' := by
  have kept : ∀ {x m}, g x = some m → x ∉ R → ∃ k, g' x = some k ∧ k.parent = m.parent ∧
      ∀ y ∈ m.refs, y ∈ k.refs := by
    intro x m hx hxR
    by_cases hxp : x = p
    · subst hxp
      exact ⟨lp, hp, by rw [hparent, hx]; rfl, fun y hy => (hmem y).2 (.inr ⟨m, hx, hy⟩)⟩
    · exact ⟨m, by rw [hother x hxp hxR, hx], rfl, fun y hy => hy⟩
  have cases' : ∀ {x m}, g' x = some m → (x = p ∧ m = lp) ∨ ∃ k, g x = some k ∧
      m = { k with parent := m.parent } ∧ (x ∈ R ∧ m.parent = some p ∨ m.parent = k.parent) := by
    intro x m hx
    by_cases hxp : x = p
    · subst hxp
      exact .inl ⟨rfl, Option.mem_unique hx hp⟩
    by_cases hxR : x ∈ R
    · obtain ⟨k, hk, -, -, hg'⟩ := hroot x hxR
      cases hx.symm.trans hg'
      exact .inr ⟨k, hk, rfl, .inl ⟨hxR, rfl⟩⟩
    · rw [hother x hxp hxR] at hx
      exact .inr ⟨m, hx, rfl, .inr rfl⟩
  -- first the blocks that are not below the new children, then these, then the rest
  have rooted_p : Rooted g' p := by
    cases hg : g p with
    | none => exact .root hp (by rw [hparent, hg]; rfl)
    | some l =>
      refine Rooted.apart (P := (· ∈ R)) (fun hx hxR hup => ?_) (h.rooted hg) fun y hy => ?_
      · obtain ⟨k, hk, hkp, -⟩ := kept hx hxR
        exact .of_parent hk fun q hq => hup q (hkp ▸ hq)
      · obtain ⟨-, -, -, hab, -⟩ := hroot y hy
        exact hab
  have rooted_all : ∀ x, Rooted g x → Rooted g' x := by
    refine fun x => Rooted.transfer (P := (· ∈ R)) (fun hxR => ?_) fun hx hxR => ?_
    · obtain ⟨m, -, -, -, hg'⟩ := hroot _ hxR
      exact .child hg' rfl rooted_p
    · obtain ⟨k, hk, hkp, -⟩ := kept hx hxR
      exact ⟨k, hk, hkp⟩
  constructor
  · intro x m hx
    obtain ⟨rfl, rfl⟩ | ⟨k, hk, hm, -⟩ := cases' hx
    · exact hid
    · rw [hm]
      exact (h.id_eq hk :)
  · intro x m y hx hy
    have step : ∀ {z k}, g z = some k → y ∈ k.refs → ∃ m, g' y = some m ∧ m.parent = some z := by
      intro z k hz hyk
      obtain ⟨my, hmy, hmyp⟩ := h.down hz hyk
      have hyR : y ∉ R := by
        intro hyR
        obtain ⟨m', hm', hnone, -⟩ := hroot y hyR
        exact h.not_mem_of_root hm' hnone hz hyk
      obtain ⟨k', hk', hkp, -⟩ := kept hmy hyR
      exact ⟨k', hk', hkp.trans hmyp⟩
    obtain ⟨rfl, rfl⟩ | ⟨k, hk, hm, -⟩ := cases' hx
    · obtain hyR | ⟨l, hl, hy⟩ := (hmem y).1 hy
      · obtain ⟨m, -, -, -, hg'⟩ := hroot y hyR
        exact ⟨_, hg', rfl⟩
      · exact step hl hy
    · exact step hk (by rw [hm] at hy; exact hy)
  · intro x m q hx hq
    have step : ∀ {k}, g x = some k → k.parent = some q → ∃ m, g' q = some m ∧ x ∈ m.refs := by
      intro k hk hkq
      obtain ⟨mq, hmq, hxq⟩ := h.up hk hkq
      by_cases hqR : q ∈ R
      · obtain ⟨m', hm', -, -, hg'⟩ := hroot q hqR
        cases hm'.symm.trans hmq
        exact ⟨_, hg', hxq⟩
      · obtain ⟨k', hk', -, hsub⟩ := kept hmq hqR
        exact ⟨k', hk', hsub x hxq⟩
    obtain ⟨rfl, rfl⟩ | ⟨k, hk, -, ⟨hxR, hm⟩ | hm⟩ := cases' hx
    · rw [hparent] at hq
      obtain ⟨l, hl, hlq⟩ := Option.bind_eq_some_iff.1 hq
      exact step hl hlq
    · cases hm.symm.trans hq
      exact ⟨lp, hp, (hmem x).2 (.inl hxR)⟩
    · exact step hk (hm.symm.trans hq)
  · intro x m hx
    obtain ⟨rfl, rfl⟩ | ⟨k, hk, hm, -⟩ := cases' hx
    · exact hnd
    · rw [hm]
      exact (h.nodup hk :)
  · intro x m hx
    obtain ⟨rfl, rfl⟩ | ⟨k, hk, -⟩ := cases' hx
    · exact rooted_p
    · exact rooted_all x (h.rooted hk)
  · intro x m slot y my hx hs hb hy
    -- the slot is an old one, unless it holds a new child
    have hold : (∃ z k, g z = some k ∧ (slot, some y) ∈ k.slots) ∨
        y ∈ R ∧ ∀ m, g y = some m → m.next = none := by
      obtain ⟨rfl, rfl⟩ | ⟨k, hk, hm, -⟩ := cases' hx
      · exact (hval slot y hs hb).imp_left fun hl => ⟨x, hl⟩
      · exact .inl ⟨x, k, hk, by rw [hm] at hs; exact hs⟩
    obtain ⟨rfl, rfl⟩ | ⟨k, hk, hm, -⟩ := cases' hy
    · obtain ⟨z, k, hz, hs⟩ | ⟨hyR, -⟩ := hold
      · obtain hv | ⟨l, hl, he⟩ := hnext
        · cases hb.symm.trans (hv hz hs)
        · exact he.trans (h.value_last hz hs hb hl)
      · obtain ⟨-, -, -, hab, -⟩ := hroot y hyR
        exact absurd .refl hab
    · rw [hm]
      obtain ⟨z, l, hz, hs⟩ | ⟨-, hlast⟩ := hold
      · exact (h.value_last hz hs hb hk :)
      · exact hlast k hk

/-- A new block without a parent takes blocks without a parent into its care. -/
theorem add (h : Linked g) {l : Links} (hn : g n = none) (hl : g' n = some l) (hid : l.id = n)
    (hp : l.parent = none) (hnd : l.refs.Nodup)
    (hroot : ∀ y ∈ l.refs, ∃ m, g y = some m ∧ m.parent = none ∧
      g' y = some { m with parent := some n })
    (hval : ∀ slot y, (slot, some y) ∈ l.slots → isBodySlot slot = false →
      ∀ m, g y = some m → m.next = none) (hother : ∀ x, x ≠ n → x ∉ l.refs → g' x = g x) :
    Linked g' := by
  refine h.graft hl hid (by rw [hn]; exact hp) hnd (by simp [hn]) (fun y hy => ?_)
    (fun slot y hs hb => .inr ⟨Links.mem_refs.2 (.inr ⟨slot, hs⟩), hval slot y hs hb⟩)
    (.inl fun {y k slot} hy hs => ?_) hother
  · obtain ⟨m, hm, hnone, hg'⟩ := hroot y hy
    refine ⟨m, hm, hnone, fun hab => ?_, hg'⟩
    cases hab with
    | refl => simp [hn] at hm
    | step hx => simp [hn] at hx
  · obtain ⟨m, hm, -⟩ := h.down hy (Links.mem_refs.2 (.inr ⟨slot, hs⟩))
    simp [hn] at hm

/-- A block without a parent is taken into the care of a block that is not below it. -/
theorem link (h : Linked g) {r : String} {lr lp' : Links} (hp : g p = some lp) (hr : g r = some lr)
    (hroot : lr.parent = none) (hab : ¬ Above g r p) (hp' : g' p = some lp') (hid : lp'.id = lp.id)
    (hpar : lp'.parent = lp.parent) (hperm : lp'.refs.Perm (r :: lp.refs))
    (hr' : g' r = some { lr with parent := some p })
    (hval : ∀ slot y, (slot, some y) ∈ lp'.slots → isBodySlot slot = false →
      (slot, some y) ∈ lp.slots ∨ y = r ∧ lr.next = none)
    (hnext : lp'.next = lp.next ∨ NotValue g p) (hother : ∀ x, x ≠ p → x ≠ r → g' x = g x) :
    Linked g' := by
  refine h.graft (R := [r]) hp' (hid.trans (h.id_eq hp)) (by rw [hp]; exact hpar) ?_ (fun y => ?_)
    (fun y hy => ?_) (fun slot y hs hb => ?_) (hnext.symm.imp id fun he => ⟨lp, hp, he⟩)
    fun x hxp hxr => hother x hxp (by simpa using hxr)
  · exact hperm.nodup_iff.2 (List.nodup_cons.2 ⟨h.not_mem_of_root hr hroot hp, h.nodup hp⟩)
  · simp [hperm.mem_iff, hp]
  · obtain rfl := List.mem_singleton.1 hy
    exact ⟨lr, hr, hroot, hab, hr'⟩
  · obtain hs | ⟨rfl, hn⟩ := hval slot y hs hb
    · exact .inl ⟨lp, hp, hs⟩
    · refine .inr ⟨List.mem_singleton_self y, fun m hm => ?_⟩
      cases hm.symm.trans hr
      exact hn

theorem parent_ne_self (h : Linked g) {x : String} {l : Links} (hx : g x = some l) :
    l.parent ≠ some x := by
  intro hp
  have key : ∀ y, Rooted g y → y ≠ x := by
    intro y hy
    induction hy with
    | root hy hpy =>
      rintro rfl
      rw [hx] at hy
      cases hy
      simp [hp] at hpy
    | child hy hpy _ ih =>
      rintro rfl
      rw [hx] at hy
      cases hy
      rw [hp] at hpy
      cases hpy
      exact ih rfl
  exact key x (h.rooted hx) rfl

end Linked

/-- A block without a parent and without a next one comes to stand directly above another: it
takes over the other's place, and the other follows it. -/
structure Spliced (g g' : LinkMap) (s c : String) (ls lc : Links) : Prop where
  old : Linked g
  below : g s = some ls
  above : g c = some lc
  root : lc.parent = none
  last : lc.next = none
  apart : ¬ Above g c s
  notValue : NotValue g s
  below' : g' s = some { ls with parent := some c }
  above' : g' c = some { lc with parent := ls.parent, next := some s }
  /-- What held the one now holds the other. -/
  holder : ∀ p lp, ls.parent = some p → g p = some lp → ∃ lp', g' p = some lp' ∧
    lp'.id = lp.id ∧ lp'.parent = lp.parent ∧ lp'.refs.Nodup ∧
    (∀ y, y ∈ lp'.refs ↔ y = c ∨ y ∈ lp.refs ∧ y ≠ s) ∧ (lp.next = none → lp'.next = none) ∧
    ∀ slot y, (slot, some y) ∈ lp'.slots → isBodySlot slot = false → (slot, some y) ∈ lp.slots
  other : ∀ x, x ≠ s → x ≠ c → ls.parent ≠ some x → g' x = g x

/-- How a block besides the two looks afterwards. -/
structure Spliced.Kept (s c x : String) (parent : Option String) (l l' : Links) : Prop where
  id_eq : l'.id = l.id
  parent_eq : l'.parent = l.parent
  nodup : l'.refs.Nodup
  next : l.next = none → l'.next = none
  mem_refs : ∀ y, y ∈ l'.refs ↔ (y ∈ l.refs ∧ y ≠ s) ∨ (y = c ∧ parent = some x)
  slots : ∀ slot y, (slot, some y) ∈ l'.slots → isBodySlot slot = false → (slot, some y) ∈ l.slots

namespace Spliced

variable {g g' : LinkMap} {s c : String} {ls lc : Links} (h : Spliced g g' s c ls lc)
variable {x y slot : String} {l : Links}

include h

theorem parent_ne : ls.parent ≠ some c :=
  fun e => h.apart (.step h.below e .refl)

theorem kept (hx : g x = some l) (hxs : x ≠ s) (hxc : x ≠ c) :
    ∃ l', g' x = some l' ∧ Kept s c x ls.parent l l' := by
  by_cases hxp : ls.parent = some x
  · obtain ⟨k, hk, hid, hparent, hnodup, hmem, hnext, hslots⟩ := h.holder x l hxp hx
    refine ⟨k, hk, hid, hparent, hnodup, hnext, fun y => ?_, hslots⟩
    rw [hmem]
    grind
  · refine ⟨l, by rw [h.other x hxs hxc hxp, hx], rfl, rfl, h.old.nodup hx, id, fun y => ?_,
      fun _ _ hm _ => hm⟩
    have hys : y ∈ l.refs → y ≠ s := by
      rintro hy rfl
      exact hxp (h.old.parent_of_mem hx hy h.below)
    grind

/-- There are no other blocks than before. -/
theorem cases (hx : g' x = some l) :
    (x = s ∧ l = { ls with parent := some c }) ∨
    (x = c ∧ l = { lc with parent := ls.parent, next := some s }) ∨
    (x ≠ s ∧ x ≠ c ∧ ∃ k, g x = some k ∧ Kept s c x ls.parent k l) := by
  by_cases hxs : x = s
  · subst hxs
    exact .inl ⟨rfl, Option.mem_unique hx h.below'⟩
  by_cases hxc : x = c
  · subst hxc
    exact .inr (.inl ⟨rfl, Option.mem_unique hx h.above'⟩)
  have hold : ∃ k, g x = some k := by
    by_cases hp : ls.parent = some x
    · obtain ⟨k, hk, -⟩ := h.old.up h.below hp
      exact ⟨k, hk⟩
    · exact ⟨l, by rw [← h.other x hxs hxc hp, hx]⟩
  obtain ⟨k, hk⟩ := hold
  obtain ⟨l', hl', hkept⟩ := h.kept hk hxs hxc
  cases hl'.symm.trans hx
  exact .inr (.inr ⟨hxs, hxc, k, hk, hkept⟩)

theorem mem_refs_above :
    y ∈ (Links.mk lc.id (some s) ls.parent lc.slots).refs ↔ y = s ∨ y ∈ lc.refs := by
  simp only [Links.mem_refs, h.last, Option.some.injEq, reduceCtorEq, false_or, eq_comm]

/-- The block below has the spliced one as its parent, and that has the old parent. -/
theorem rooted_below : Rooted g' s := by
  refine Rooted.apart (P := (· = c)) (fun {x l} hx hxc hup => ?_) (h.old.rooted h.below)
    fun r hr => hr ▸ h.apart
  by_cases hxs : x = s
  · subst hxs
    cases hx.symm.trans h.below
    exact .child h.below' rfl (.of_parent h.above' hup)
  · obtain ⟨l', hl', hkept⟩ := h.kept hx hxs hxc
    exact .of_parent hl' fun p hp => hup p (hkept.parent_eq ▸ hp)

theorem rooted_above : Rooted g' c := by
  cases h.rooted_below with
  | root hx hp =>
    cases hx.symm.trans h.below'
    cases hp
  | child hx hp hq =>
    cases hx.symm.trans h.below'
    cases hp
    exact hq

theorem rooted (hx : Rooted g x) : Rooted g' x := by
  refine Rooted.transfer (P := fun x => x = s ∨ x = c) (fun hx => ?_) (fun {x l} hx hne => ?_) hx
  · obtain rfl | rfl := hx
    · exact h.rooted_below
    · exact h.rooted_above
  · rw [not_or] at hne
    obtain ⟨l', hl', hkept⟩ := h.kept hx hne.1 hne.2
    exact ⟨l', hl', hkept.parent_eq⟩

/-- What was below a block still is, apart from the block that has moved. -/
theorem down_old (hx : g x = some l) (hy : y ∈ l.refs) (hys : y ≠ s) :
    ∃ m, g' y = some m ∧ m.parent = some x := by
  obtain ⟨m, hm, hparent⟩ := h.old.down hx hy
  have hyc : y ≠ c := by
    rintro rfl
    exact h.old.not_mem_of_root h.above h.root hx hy
  obtain ⟨m', hm', hkept⟩ := h.kept hm hys hyc
  exact ⟨m', hm', hkept.parent_eq.trans hparent⟩

theorem down (hx : g' x = some l) (hy : y ∈ l.refs) : ∃ m, g' y = some m ∧ m.parent = some x := by
  obtain ⟨rfl, rfl⟩ | ⟨rfl, rfl⟩ | ⟨-, -, k, hk, hkept⟩ := h.cases hx
  · refine h.down_old h.below hy ?_
    rintro rfl
    exact h.old.parent_ne_self h.below (h.old.parent_of_mem h.below hy h.below)
  · obtain rfl | hmem := h.mem_refs_above.1 hy
    · exact ⟨_, h.below', rfl⟩
    · refine h.down_old h.above hmem ?_
      rintro rfl
      exact h.parent_ne (h.old.parent_of_mem h.above hmem h.below)
  · obtain ⟨hy, hys⟩ | ⟨rfl, hpx⟩ := (hkept.mem_refs y).1 hy
    · exact h.down_old hk hy hys
    · exact ⟨_, h.above', hpx⟩

theorem up_old (hx : g x = some l) (hp : l.parent = some y) (hxs : x ≠ s) :
    ∃ m, g' y = some m ∧ x ∈ m.refs := by
  obtain ⟨m, hm, hmem⟩ := h.old.up hx hp
  by_cases hys : y = s
  · subst hys
    cases hm.symm.trans h.below
    exact ⟨_, h.below', hmem⟩
  by_cases hyc : y = c
  · subst hyc
    cases hm.symm.trans h.above
    exact ⟨_, h.above', h.mem_refs_above.2 (.inr hmem)⟩
  obtain ⟨m', hm', hkept⟩ := h.kept hm hys hyc
  exact ⟨m', hm', (hkept.mem_refs x).2 (.inl ⟨hmem, hxs⟩)⟩

theorem up (hx : g' x = some l) (hp : l.parent = some y) : ∃ m, g' y = some m ∧ x ∈ m.refs := by
  obtain ⟨rfl, rfl⟩ | ⟨rfl, rfl⟩ | ⟨hxs, -, k, hk, hkept⟩ := h.cases hx
  · cases hp
    exact ⟨_, h.above', h.mem_refs_above.2 (.inl rfl)⟩
  · -- the spliced block is held where the other was
    obtain ⟨m, hm, -⟩ := h.old.up h.below hp
    obtain ⟨m', hm', -, -, -, hmem, -⟩ := h.holder y m hp hm
    exact ⟨m', hm', (hmem _).2 (.inl rfl)⟩
  · exact h.up_old hk (hkept.parent_eq ▸ hp) hxs

theorem nodup (hx : g' x = some l) : l.refs.Nodup := by
  obtain ⟨rfl, rfl⟩ | ⟨rfl, rfl⟩ | ⟨-, -, k, -, hkept⟩ := h.cases hx
  · exact (h.old.nodup h.below :)
  · have hnodup := h.old.nodup h.above
    rw [Links.refs, h.last] at hnodup
    refine List.nodup_cons.2 ⟨fun hm => ?_, hnodup⟩
    exact h.parent_ne (h.old.parent_of_mem h.above (List.mem_append_right _ hm) h.below)
  · exact hkept.nodup

/-- Slots for values are old ones, so they hold neither of the two. -/
theorem value_last (hx : g' x = some l) (hslot : (slot, some y) ∈ l.slots)
    (hbody : isBodySlot slot = false) (hy : g' y = some m) : m.next = none := by
  have hold : ∃ z k, g z = some k ∧ (slot, some y) ∈ k.slots := by
    obtain ⟨rfl, rfl⟩ | ⟨rfl, rfl⟩ | ⟨-, -, k, hk, hkept⟩ := h.cases hx
    · exact ⟨_, _, h.below, hslot⟩
    · exact ⟨_, _, h.above, hslot⟩
    · exact ⟨x, k, hk, hkept.slots slot y hslot hbody⟩
  obtain ⟨z, k, hz, hslot⟩ := hold
  obtain ⟨rfl, rfl⟩ | ⟨rfl, rfl⟩ | ⟨-, -, k', hk', hkept⟩ := h.cases hy
  · cases hbody.symm.trans (h.notValue hz hslot)
  · exact absurd hslot (h.old.not_slotted_of_root h.above h.root hz)
  · exact hkept.next (h.old.value_last hz hslot hbody hk')

theorem linked : Linked g' where
  id_eq hx := by
    obtain ⟨rfl, rfl⟩ | ⟨rfl, rfl⟩ | ⟨-, -, k, hk, hkept⟩ := h.cases hx
    · exact (h.old.id_eq h.below :)
    · exact (h.old.id_eq h.above :)
    · exact hkept.id_eq.trans (h.old.id_eq hk)
  down := h.down
  up := h.up
  nodup := h.nodup
  rooted hx := by
    obtain ⟨rfl, -⟩ | ⟨rfl, -⟩ | ⟨-, -, k, hk, -⟩ := h.cases hx
    · exact h.rooted_below
    · exact h.rooted_above
    · exact h.rooted (h.old.rooted hk)
  value_last := h.value_last

end Spliced

namespace Linked

variable {g g' : LinkMap}

/-- A new block, with blocks in its slots that refer to nothing, is taken into the care of an old
one. -/
theorem place (h : Linked g) {l la la' : Links} (hn : g n = none) (ha : g a = some la)
    (hid : l.id = n) (hnext : l.next = none) (hnd : l.children.Nodup)
    (hl : g' n = some { l with parent := some a })
    (hchild : ∀ y ∈ l.children, ∃ m, g y = some m ∧ m.parent = none ∧ m.refs = [] ∧ y ≠ a ∧
      g' y = some { m with parent := some n }) (ha' : g' a = some la') (haid : la'.id = la.id)
    (hapar : la'.parent = la.parent) (hperm : la'.refs.Perm (n :: la.refs))
    (hval : ∀ slot y, (slot, some y) ∈ la'.slots → (slot, some y) ∈ la.slots ∨ y = n)
    (hanext : la'.next = la.next ∨ NotValue g a)
    (hother : ∀ x, x ≠ n → x ≠ a → x ∉ l.children → g' x = g x) : Linked g' := by
  have hna : n ≠ a := ne_of_found hn ha
  have hac : a ∉ l.children := by
    intro hmem
    obtain ⟨m, -, -, -, hne, -⟩ := hchild a hmem
    exact hne rfl
  have hnc : n ∉ l.children := by
    intro hmem
    obtain ⟨m, hm, -⟩ := hchild n hmem
    simp [hn] at hm
  let l₀ : Links := { l with parent := none }
  have hrefs : l₀.refs = l.children := by
    simp [Links.refs, Links.children, l₀, hnext]
  -- first the block without its parent, then the way to it
  let g₁ : LinkMap := fun x => if x = n then some l₀ else if x = a then some la else g' x
  have h₁ : Linked g₁ := by
    refine h.add hn (l := l₀) (by simp [g₁]) hid rfl (hrefs ▸ hnd) ?_ ?_ ?_
    · intro y hy
      rw [hrefs] at hy
      obtain ⟨m, hm, hp, -, hya, hg'⟩ := hchild y hy
      refine ⟨m, hm, hp, ?_⟩
      have hyn : y ≠ n := by
        rintro rfl
        exact hnc hy
      simp [g₁, hyn, hya, hg']
    · intro slot y hs _ m hm
      obtain ⟨m', hm', -, hr, -⟩ := hchild y (Links.mem_children.2 ⟨slot, hs⟩)
      rw [hm] at hm'
      cases hm'
      refine Option.eq_none_iff_forall_ne_some.2 fun z hz => ?_
      exact absurd (Links.mem_refs.2 (.inl hz)) (by simp [hr])
    · intro x hxn hx
      rw [hrefs] at hx
      by_cases hxa : x = a
      · simp [g₁, hxa, hna.symm, ha]
      · simp [g₁, hxn, hxa, hother x hxn hxa hx]
  have hab : ¬ Above g₁ n a := by
    intro hab
    refine (Linked.above_mem (P := fun x => x ≠ n ∧ x ∉ l.children) ?_ ⟨hna.symm, hac⟩ hab).1 rfl
    rintro x lx p ⟨hxn, hxc⟩ hx hp
    have hx : g x = some lx := by
      by_cases hxa : x = a
      · simpa [g₁, hxa, hna.symm, ha] using hx
      · simpa [g₁, hxn, hxa, hother x hxn hxa hxc] using hx
    obtain ⟨m, hm, hmem⟩ := h.up hx hp
    refine ⟨by rintro rfl; simp [hn] at hm, fun hpc => ?_⟩
    obtain ⟨m', hm', -, hr, -⟩ := hchild p hpc
    rw [hm] at hm'
    cases hm'
    simp [hr] at hmem
  refine h₁.link (show g₁ a = some la by simp [g₁, hna.symm])
    (show g₁ n = some l₀ by simp [g₁]) rfl hab ha' haid hapar hperm hl ?_ ?_ ?_
  · intro slot y hs _
    exact (hval slot y hs).imp id fun e => ⟨e, hnext⟩
  · refine hanext.imp id fun hv => ?_
    intro y ly slot hy hs
    by_cases hyn : y = n
    · subst hyn
      simp only [g₁, if_true, Option.some.injEq] at hy
      subst hy
      exact absurd (Links.mem_children.2 ⟨slot, hs⟩) hac
    · by_cases hya : y = a
      · subst hya
        simp only [g₁, hyn, if_false, if_true, Option.some.injEq] at hy
        subst hy
        exact hv ha hs
      · simp only [g₁, hyn, hya, if_false] at hy
        by_cases hyc : y ∈ l.children
        · obtain ⟨m, hm, -, -, -, hg'⟩ := hchild y hyc
          rw [hg'] at hy
          cases hy
          exact hv hm hs
        · rw [hother y hyn hya hyc] at hy
          exact hv hy hs
  · intro x hxa hxn
    simp [g₁, hxn, hxa]

end Linked
end ScriptBlocks
