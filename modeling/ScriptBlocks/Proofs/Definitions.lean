import ScriptBlocks.Proofs.Inferred
import ScriptBlocks.Proofs.Site

/-!
# Definitions of functions in the graph

A completed function is written as a definition block that holds a prototype, which holds one
shadow reporter per argument. They are written from the inside outwards, so each of them names a
parent before that parent exists. `Written` is what holds when all of them are there.
-/
namespace ScriptBlocks

variable {b : Block} {x : String}

/-- Blocks that refer to nothing can be added in any number. -/
theorem Linked.leaves {g : LinkMap} (h : Linked g) (leaves : List Links)
    (hn : ∀ l ∈ leaves, g l.id = none) (hnd : (leaves.map Links.id).Nodup)
    (hl : ∀ l ∈ leaves, l.parent = none ∧ l.refs = []) :
    Linked fun x => (leaves.find? (·.id = x)).or (g x) := by
  induction leaves generalizing g with
  | nil => exact h
  | cons l rest ih =>
    obtain ⟨hnot, hnd⟩ := List.nodup_cons.1 hnd
    obtain ⟨hparent, hrefs⟩ := hl l List.mem_cons_self
    let g' : LinkMap := fun x => if l.id = x then some l else g x
    have hg' : Linked g' := by
      refine h.add (hn l List.mem_cons_self) (by simp [g']) rfl hparent (by simp [hrefs])
        (by simp [hrefs]) (fun slot y hs => ?_) fun x hx _ => by simp [g', Ne.symm hx]
      have hmem := Links.mem_refs.2 (.inr ⟨slot, hs⟩)
      simp [hrefs] at hmem
    have hrest := ih hg' (fun m hm => ?_) hnd fun m hm => hl m (List.mem_cons_of_mem _ hm)
    · have heq : (fun x => ((l :: rest).find? (·.id = x)).or (g x)) =
          fun x => (rest.find? (·.id = x)).or (g' x) := by
        funext x
        by_cases hx : l.id = x
        · have hnone : rest.find? (fun m => decide (m.id = x)) = none := by
            refine List.find?_eq_none.2 fun m hm hmx => hnot ?_
            rw [hx, ← of_decide_eq_true hmx]
            exact List.mem_map_of_mem hm
          simp [g', hx, hnone]
        · simp [g', hx]
      rw [heq]
      exact hrest
    · have hne : l.id ≠ m.id := fun he => hnot (he ▸ List.mem_map_of_mem hm)
      simp only [g', if_neg hne]
      exact hn m (List.mem_cons_of_mem _ hm)

namespace Signature

/-- The shadow reporters of the arguments, when this many ids have been drawn. -/
def shadows (prototype : String) : List (String × Parameter) → Nat → List Block
  | [], _ => []
  | (name, p) :: arguments, n =>
    { Block.reporter (Target.idText "block" (n + 1)) name p.type true with parent := some prototype } ::
      shadows prototype arguments (n + 1)

variable {prototype : String} {arguments : List (String × Parameter)} {n : Nat}

/-- A shadow reporter has the type and the shape of its argument. -/
theorem exists_of_mem_shadows (h : b ∈ shadows prototype arguments n) :
    ∃ m e, n < m ∧ m ≤ n + arguments.length ∧ e ∈ arguments ∧
      b = { Block.reporter (Target.idText "block" m) e.1 e.2.type true with
        parent := some prototype } := by
  induction arguments generalizing n with
  | nil => simp [shadows] at h
  | cons e rest ih =>
    obtain rfl | h := List.mem_cons.1 h
    · exact ⟨n + 1, e, by omega, by simp, List.mem_cons_self, rfl⟩
    · obtain ⟨m, e', hlt, hle, hmem, rfl⟩ := ih h
      exact ⟨m, e', by omega, by simp; omega, List.mem_cons_of_mem _ hmem, rfl⟩

theorem shadows_nodup (prototype : String) (arguments : List (String × Parameter)) (n : Nat) :
    ((shadows prototype arguments n).map Block.id).Nodup := by
  induction arguments generalizing n with
  | nil => simp [shadows]
  | cons e rest ih =>
    refine List.nodup_cons.2 ⟨fun hm => ?_, ih (n + 1)⟩
    obtain ⟨b, hb, hid⟩ := List.mem_map.1 hm
    obtain ⟨m, e', hlt, -, -, rfl⟩ := exists_of_mem_shadows hb
    have := Target.idText_injective hid
    omega

/-- The slots of the prototype hold the shadow reporters. -/
theorem buildReporters_slots (prototype : String) (arguments : List (String × Parameter))
    (t : Target) :
    (buildReporters prototype arguments t).1 =
      List.zipWith (fun e b => (e.2.id, ⟨.argument, .block b.id⟩)) arguments
        (shadows prototype arguments t.drawn) := by
  induction arguments generalizing t with
  | nil => rfl
  | cons e rest ih =>
    simp only [buildReporters, shadows, List.zipWith_cons_cons, ih]
    simp [Target.drawBlock, Target.draw, Target.freshId, Block.reporter]

theorem buildReporters_eq (prototype : String) (arguments : List (String × Parameter))
    (t : Target) :
    (buildReporters prototype arguments t).2 =
      { t with
        blocks := (buildReporters prototype arguments t).2.blocks
        drawn := t.drawn + arguments.length } := by
  induction arguments generalizing t with
  | nil => rfl
  | cons e rest ih =>
    simp only [buildReporters]
    rw [ih, Target.register_eq]
    simp [Target.drawBlock, Target.draw, Target.withBlocks, Nat.add_assoc, Nat.add_comm 1]

theorem block?_buildReporters (prototype : String) (arguments : List (String × Parameter))
    (t : Target) (x : String) :
    (buildReporters prototype arguments t).2.block? x =
      ((shadows prototype arguments t.drawn).find? (·.id = x)).or (t.block? x) := by
  induction arguments generalizing t with
  | nil => rfl
  | cons e rest ih =>
    simp only [buildReporters]
    rw [ih, Target.drawn_register, Target.block?_register]
    simp only [Target.drawBlock, shadows, Block.reporter, Target.freshId,
      show t.draw.drawn = t.drawn + 1 from rfl, show t.draw.block? x = t.block? x from rfl]
    by_cases hx : Target.idText "block" (t.drawn + 1) = x
    · have hnone : (shadows prototype rest (t.drawn + 1)).find? (fun b => decide (b.id = x)) =
          none := by
        refine List.find?_eq_none.2 fun b hb hbx => ?_
        obtain ⟨m, e', hlt, -, -, rfl⟩ := exists_of_mem_shadows hb
        have := Target.idText_injective (hx.trans (of_decide_eq_true hbx).symm)
        omega
      simp [hx, hnone]
    · simp [hx, Block.children, Table.values, Table.empty]

@[simp] theorem shadows_length (prototype : String) (arguments : List (String × Parameter)) (n : Nat) :
    (shadows prototype arguments n).length = arguments.length := by
  induction arguments generalizing n with
  | nil => rfl
  | cons e rest ih => simp [shadows, ih]

variable {s : Signature} {t : Target} {body : Option String}

/-- The slots of a prototype. -/
def shadowSlots (s : Signature) (n : Nat) : List (String × Input) :=
  List.zipWith (fun e b => (e.2.id, ⟨.argument, .block b.id⟩)) s.arguments.entries
    (shadows s.prototype s.arguments.entries n)

/-- The block that holds the shadow reporters. -/
def prototypeBlock (s : Signature) (n : Nat) : Block :=
  { id := s.prototype, opcode := .prototype, parent := some s.definition, shadow := true
    mutation := some s.mutation, inputs := .ofEntries (s.shadowSlots n) }

/-- The block that starts the script of a function. -/
def definitionBlock (s : Signature) (body : Option String) (position : Point) : Block :=
  { id := s.definition, opcode := .definition, topLevel := true, position := some position
    inputs := .ofEntries [("custom_block", ⟨.argument, .block s.prototype⟩)]
    inferred := .void, next := body }

theorem shadowSlots_keys (s : Signature) (n : Nat) :
    (s.shadowSlots n).map (·.1) = s.arguments.values.map Parameter.id := by
  have h : ∀ (entries : List (String × Parameter)) (bs : List Block), bs.length = entries.length →
      (List.zipWith (fun e b => ((e.2.id, ⟨.argument, .block b.id⟩) : String × Input)) entries bs).map
        (·.1) = entries.map (·.2.id) := by
    intro entries
    induction entries with
    | nil => simp
    | cons e rest ih =>
      rintro (_ | ⟨b, bs⟩) hl
      · simp at hl
      · simp [ih bs (by simpa using hl)]
  rw [shadowSlots, h _ _ (by simp), Table.values, List.map_map]
  rfl

theorem shadowSlots_blocks (s : Signature) (n : Nat) :
    (s.shadowSlots n).filterMap (·.2.block?) =
      (shadows s.prototype s.arguments.entries n).map Block.id := by
  have h : ∀ (entries : List (String × Parameter)) (bs : List Block), bs.length = entries.length →
      (List.zipWith (fun e b => ((e.2.id, ⟨.argument, .block b.id⟩) : String × Input)) entries
        bs).filterMap (·.2.block?) = bs.map Block.id := by
    intro entries
    induction entries with
    | nil =>
      intro bs hl
      simp [List.length_eq_zero_iff.1 hl]
    | cons e rest ih =>
      rintro (_ | ⟨b, bs⟩) hl
      · simp at hl
      · exact congrArg (b.id :: ·) (ih bs (by simpa using hl))
  exact h _ _ (by simp)

theorem prototypeBlock_slots (hs : s.Proper) (n : Nat) :
    (s.prototypeBlock n).inputs.entries = s.shadowSlots n :=
  Table.entries_ofEntries (by rw [shadowSlots_keys]; exact hs.ids)

theorem prototypeBlock_children (hs : s.Proper) (n : Nat) :
    (s.prototypeBlock n).children = (shadows s.prototype s.arguments.entries n).map Block.id := by
  rw [Block.children, Table.values, prototypeBlock_slots hs, List.filterMap_map, ← shadowSlots_blocks]
  rfl

theorem definitionBlock_children (s : Signature) (body : Option String) (position : Point) :
    (s.definitionBlock body position).children = [s.prototype] := by
  rw [Block.children, Table.values, definitionBlock, Table.entries_ofEntries (by simp)]
  rfl

/-- The ids for the definition and the prototype of a function have been drawn and are free. -/
structure Pending (s : Signature) (t : Target) : Prop where
  ids : ∃ d m, s.definition = Target.idText "block" d ∧ s.prototype = Target.idText "block" m ∧
    d < m ∧ m ≤ t.drawn
  definition : t.block? s.definition = none
  prototype : t.block? s.prototype = none

namespace Pending

theorem ne (h : s.Pending t) : s.prototype ≠ s.definition := by
  obtain ⟨d, m, hd, hm, hlt, -⟩ := h.ids
  rw [hd, hm]
  intro heq
  have := Target.idText_injective heq
  omega

theorem not_shadow (h : s.Pending t) (hb : b ∈ shadows s.prototype s.arguments.entries t.drawn) :
    b.id ≠ s.definition ∧ b.id ≠ s.prototype := by
  obtain ⟨d, m, hd, hm, hlt, hle⟩ := h.ids
  obtain ⟨k, e, hk, -, -, rfl⟩ := exists_of_mem_shadows hb
  rw [hd, hm]
  constructor <;> intro heq <;> have := Target.idText_injective heq <;> omega

end Pending

/-- A shadow reporter is a new block, and it is under its prototype already. -/
theorem find?_shadows (h : (shadows prototype arguments n).find? (·.id = x) = some b) :
    b ∈ shadows prototype arguments n ∧ b.id = x ∧ Target.under prototype b = b := by
  have hmem := List.mem_of_find?_eq_some h
  refine ⟨hmem, of_decide_eq_true (List.find?_some h :), ?_⟩
  obtain ⟨m, e, -, -, -, rfl⟩ := exists_of_mem_shadows hmem
  rfl

theorem shadows_fresh (ht : Sound t) (hb : b ∈ shadows prototype arguments t.drawn) :
    t.block? b.id = none := by
  obtain ⟨m, e, hlt, -, -, rfl⟩ := exists_of_mem_shadows hb
  exact ht.fresh hlt

theorem shadows_find?_eq_none (ht : Sound t) (hx : t.block? x = some b) :
    (shadows prototype arguments t.drawn).find? (·.id = x) = none := by
  refine List.find?_eq_none.2 fun b' hb' hid => ?_
  rw [← of_decide_eq_true hid, shadows_fresh ht hb'] at hx
  cases hx

/-- The target once prototype and definition stand above the shadow reporters. -/
def heads (s : Signature) (body : Option String) (t : Target) : Target :=
  ((buildReporters s.prototype s.arguments.entries t).2.register
    (s.prototypeBlock t.drawn)).takePosition.2.register (s.definitionBlock body t.scriptPosition)

theorem heads_eq (s : Signature) (body : Option String) (t : Target) :
    s.heads body t =
      { t with
        blocks := (s.heads body t).blocks
        drawn := t.drawn + s.arguments.entries.length
        scripts := t.scripts + 1 } := by
  rw [heads, Target.register_eq, Target.takePosition, Target.register_eq, buildReporters_eq]
  rfl

theorem build_target (s : Signature) (body : Option String) (t : Target) :
    (s.build body t).2 =
      body.elim (s.heads body t) fun head => (s.heads body t).adopt s.definition head := by
  have hposition : ((buildReporters s.prototype s.arguments.entries t).2.register
      (s.prototypeBlock t.drawn)).scriptPosition = t.scriptPosition := by
    rw [Target.register_eq, buildReporters_eq]
    rfl
  have hslots : (buildReporters s.prototype s.arguments.entries t).1 = s.shadowSlots t.drawn :=
    buildReporters_slots ..
  rw [heads, ← hposition, prototypeBlock, ← hslots]
  cases body <;> rfl

theorem block?_heads (hs : s.Proper) (body : Option String) (x : String) :
    (s.heads body t).block? x =
      if s.definition = x then some (s.definitionBlock body t.scriptPosition)
      else if s.prototype = x then some (s.prototypeBlock t.drawn)
      else ((shadows s.prototype s.arguments.entries t.drawn).find? (·.id = x)).or (t.block? x) := by
  have hproto : ((buildReporters s.prototype s.arguments.entries t).2.register
      (s.prototypeBlock t.drawn)).takePosition.2.block? x =
      if s.prototype = x then some (s.prototypeBlock t.drawn)
      else ((shadows s.prototype s.arguments.entries t.drawn).find? (·.id = x)).or (t.block? x) := by
    refine (Target.block?_register _ _ x).trans ?_
    rw [block?_buildReporters, prototypeBlock_children hs]
    by_cases hx : s.prototype = x
    · rw [if_pos hx, if_pos (show (s.prototypeBlock t.drawn).id = x from hx)]
      rfl
    · rw [if_neg hx, if_neg (show ¬ (s.prototypeBlock t.drawn).id = x from hx)]
      cases hf : (shadows s.prototype s.arguments.entries t.drawn).find? (fun b => decide (b.id = x)) with
      | some b =>
        obtain ⟨hmem, rfl, hunder⟩ := find?_shadows hf
        rw [if_pos (List.mem_map_of_mem hmem)]
        exact congrArg some hunder
      | none =>
        rw [if_neg]
        intro hm
        obtain ⟨b, hb, hid⟩ := List.mem_map.1 hm
        exact List.find?_eq_none.1 hf b hb (decide_eq_true hid)
  rw [heads, Target.block?_register, definitionBlock_children, hproto]
  by_cases hx : s.definition = x
  · rw [if_pos hx, if_pos (show (s.definitionBlock body _).id = x from hx)]
    rfl
  · rw [if_neg hx, if_neg (show ¬ (s.definitionBlock body _).id = x from hx)]
    by_cases hp : s.prototype = x
    · rw [if_pos (by simp [hp]), if_pos hp]
      rfl
    · rw [if_neg (by simpa using Ne.symm hp)]

/-- All blocks after a function has been completed. -/
theorem block?_build (hs : s.Proper) (h : s.Pending t) (ht : Sound t)
    (hbody : ∀ x, body = some x → ∃ b, t.block? x = some b) (x : String) :
    (s.build body t).2.block? x =
      if s.definition = x then some (s.definitionBlock body t.scriptPosition)
      else if s.prototype = x then some (s.prototypeBlock t.drawn)
      else if body = some x then (t.block? x).map (Target.under s.definition)
      else ((shadows s.prototype s.arguments.entries t.drawn).find? (·.id = x)).or (t.block? x) := by
  rw [build_target]
  cases body with
  | none => simpa using block?_heads hs none x
  | some head =>
    obtain ⟨b, hb⟩ := hbody head rfl
    have hd : s.definition ≠ head := ne_of_found h.definition hb
    have hp : s.prototype ≠ head := ne_of_found h.prototype hb
    simp only [Option.elim_some, Target.adopt]
    rw [Target.block?_modifyBlock, block?_heads hs]
    by_cases hx : head = x
    · subst hx
      simp only [↓reduceIte, if_neg hd, if_neg hp, shadows_find?_eq_none ht hb, Option.none_or]
      rfl
    · simp [hx]

/-- A function has been completed: its definition stands above its body, and old blocks have
changed only in that the first of the body has a parent. -/
structure Written (s : Signature) (body : Option String) (t t' : Target) : Prop where
  old : ∀ {x b}, t.block? x = some b → ∃ b', t'.block? x = some b' ∧ b'.core = b.core ∧
    b'.inputs = b.inputs ∧ b'.next = b.next ∧ (body ≠ some x → b'.parent = b.parent)
  new : ∀ {x b}, t'.block? x = some b → t.block? x = none →
    (x = s.definition ∧ b.opcode = .definition ∧ b.argument = none) ∨
    (x = s.prototype ∧ b.opcode = .prototype ∧ b.argument = none) ∨
    ∃ m a p, x = Target.idText "block" m ∧ t.drawn < m ∧ m ≤ t'.drawn ∧
      s.arguments.get? a = some p ∧ b.argument = some a ∧ b.inferred = p.type ∧
      b.opcode = Block.reporterOpcode p.type
  definition : ∃ b, t'.block? s.definition = some b ∧ b.opcode = .definition ∧ b.next = body
  drawn_le : t.drawn ≤ t'.drawn
  tables : t'.tables = t.tables
  scopes : t'.scopes = t.scopes
  linked : Linked t'.links

theorem find?_shadows_of_mem (h : b ∈ shadows prototype arguments n) :
    (shadows prototype arguments n).find? (·.id = b.id) = some b := by
  induction arguments generalizing n with
  | nil => simp [shadows] at h
  | cons e rest ih =>
    obtain rfl | h := List.mem_cons.1 h
    · simp [shadows]
    · rw [shadows, List.find?_cons_of_neg]
      · exact ih h
      · obtain ⟨m, e', hlt, -, -, rfl⟩ := exists_of_mem_shadows h
        intro heq
        have := Target.idText_injective (of_decide_eq_true heq)
        omega

theorem shadows_links (h : b ∈ shadows prototype arguments n) :
    b.links = ⟨b.id, none, some prototype, []⟩ := by
  obtain ⟨m, e, -, -, -, rfl⟩ := exists_of_mem_shadows h
  rfl

/-- The reporters are there, and nothing holds them yet. -/
theorem linked_shadows (ht : Sound t) (prototype : String) (arguments : List (String × Parameter)) :
    Linked fun x => (((shadows prototype arguments t.drawn).map
      fun b => (⟨b.id, none, none, []⟩ : Links)).find? (·.id = x)).or (t.links x) := by
  refine ht.linked.leaves _ (fun l hl => ?_) ?_ fun l hl => ?_
  · obtain ⟨b, hb, rfl⟩ := List.mem_map.1 hl
    simp [Target.links, shadows_fresh ht hb]
  · rw [List.map_map]
    exact shadows_nodup prototype arguments t.drawn
  · obtain ⟨b, hb, rfl⟩ := List.mem_map.1 hl
    exact ⟨rfl, rfl⟩

theorem definitionBlock_links (s : Signature) (body : Option String) (position : Point) :
    (s.definitionBlock body position).links =
      ⟨s.definition, body, none, [("custom_block", some s.prototype)]⟩ := by
  rw [Block.links, definitionBlock, Table.entries_ofEntries (by simp)]
  rfl

/-- The prototype holds the reporters, and nothing holds it yet. -/
theorem linked_prototype (hs : s.Proper) (h : s.Pending t) (ht : Sound t) :
    Linked fun x =>
      if s.prototype = x then some { (s.prototypeBlock t.drawn).links with parent := none }
      else (((shadows s.prototype s.arguments.entries t.drawn).find? (·.id = x)).or
        (t.block? x)).map Block.links := by
  have hchildren : ({ (s.prototypeBlock t.drawn).links with parent := none } : Links).refs =
      (shadows s.prototype s.arguments.entries t.drawn).map Block.id := by
    rw [← prototypeBlock_children hs, ← Block.links_children]
    rfl
  have hfind : ∀ {x b}, b ∈ shadows s.prototype s.arguments.entries t.drawn → b.id = x →
      ((shadows s.prototype s.arguments.entries t.drawn).map
        fun b => (⟨b.id, none, none, []⟩ : Links)).find? (·.id = x) = some ⟨x, none, none, []⟩ := by
    rintro _ b hb rfl
    rw [List.find?_map, Function.comp_def, find?_shadows_of_mem hb]
    rfl
  have hnone : ∀ {x}, x ∉ (shadows s.prototype s.arguments.entries t.drawn).map Block.id →
      (shadows s.prototype s.arguments.entries t.drawn).find? (fun b => decide (b.id = x)) = none := by
    intro x hx
    refine List.find?_eq_none.2 fun b hb hid => hx ?_
    exact of_decide_eq_true hid ▸ List.mem_map_of_mem hb
  refine (linked_shadows ht s.prototype s.arguments.entries).add (n := s.prototype)
    (l := { (s.prototypeBlock t.drawn).links with parent := none }) ?_ (by rw [if_pos rfl]) rfl rfl ?_
    (fun y hy => ?_) (fun slot y hslot _ m hm => ?_) fun x hx hxr => ?_
  · have hp : s.prototype ∉ (shadows s.prototype s.arguments.entries t.drawn).map Block.id := by
      intro hm
      obtain ⟨b, hb, hid⟩ := List.mem_map.1 hm
      exact (h.not_shadow hb).2 hid
    simp only [List.find?_map, Function.comp_def, hnone hp, Target.links, h.prototype]
    rfl
  · rw [hchildren]
    exact shadows_nodup ..
  · rw [hchildren] at hy
    obtain ⟨b, hb, rfl⟩ := List.mem_map.1 hy
    refine ⟨⟨b.id, none, none, []⟩, by rw [hfind hb rfl]; rfl, rfl, ?_⟩
    rw [if_neg (Ne.symm (h.not_shadow hb).2), find?_shadows_of_mem hb]
    exact congrArg some (shadows_links hb)
  · have hy : y ∈ ({ (s.prototypeBlock t.drawn).links with parent := none } : Links).refs :=
      Links.mem_refs.2 (.inr ⟨slot, hslot⟩)
    rw [hchildren] at hy
    obtain ⟨b, hb, rfl⟩ := List.mem_map.1 hy
    rw [hfind hb rfl] at hm
    cases hm
    rfl
  · rw [hchildren] at hxr
    rw [if_neg (Ne.symm hx), hnone hxr]
    simp only [List.find?_map, Function.comp_def, hnone hxr]
    rfl

/-- The definition holds the prototype and leads to the body. -/
theorem linked_build (hs : s.Proper) (h : s.Pending t) (ht : Sound t)
    (hbody : ∀ x, body = some x → ∃ b, t.block? x = some b ∧ b.parent = none) :
    Linked (s.build body t).2.links := by
  have hexists : ∀ x, body = some x → ∃ b, t.block? x = some b :=
    fun x hx => (hbody x hx).imp fun _ hb => hb.1
  have hlookup := block?_build hs h ht hexists
  have hhead : ∀ x, body = some x → s.definition ≠ x ∧ s.prototype ≠ x := by
    intro x hx
    obtain ⟨b, hb, -⟩ := hbody x hx
    exact ⟨ne_of_found h.definition hb, ne_of_found h.prototype hb⟩
  have hlinks := definitionBlock_links s body t.scriptPosition
  have hrefs : ∀ y, y ∈ (s.definitionBlock body t.scriptPosition).links.refs ↔
      body = some y ∨ y = s.prototype := by
    intro y
    rw [hlinks, Links.mem_refs]
    simp
  refine (linked_prototype hs h ht).add (n := s.definition)
    (l := (s.definitionBlock body t.scriptPosition).links) ?_ ?_ rfl rfl ?_ (fun y hy => ?_)
    (fun slot y hslot _ m hm => ?_) fun x hx hxr => ?_
  · have hnone : (shadows s.prototype s.arguments.entries t.drawn).find?
        (fun b => decide (b.id = s.definition)) = none :=
      List.find?_eq_none.2 fun b hb hid => (h.not_shadow hb).1 (of_decide_eq_true hid)
    simp only [if_neg h.ne, hnone, h.definition]
    rfl
  · rw [Target.links, hlookup, if_pos rfl]
    rfl
  · rw [hlinks]
    cases hb : body with
    | none => simp [Links.refs, Links.children]
    | some head => simpa [Links.refs, Links.children] using Ne.symm (hhead head hb).2
  · obtain hy | rfl := (hrefs y).1 hy
    · obtain ⟨b, hb, hp⟩ := hbody y hy
      obtain ⟨hd, hpr⟩ := hhead y hy
      refine ⟨b.links, ?_, hp, ?_⟩
      · simp only [if_neg hpr, shadows_find?_eq_none ht hb, hb]
        rfl
      · rw [Target.links, hlookup, if_neg hd, if_neg hpr, if_pos hy, hb]
        rfl
    · refine ⟨_, by rw [if_pos rfl], rfl, ?_⟩
      rw [Target.links, hlookup, if_neg (Ne.symm h.ne), if_pos rfl]
      rfl
  · rw [hlinks] at hslot
    obtain ⟨-, rfl⟩ : slot = "custom_block" ∧ y = s.prototype := by simpa using hslot
    rw [if_pos rfl] at hm
    cases hm
    rfl
  · rw [hrefs, not_or] at hxr
    rw [Target.links, hlookup, if_neg (Ne.symm hx), if_neg (Ne.symm hxr.2), if_neg (Ne.symm hxr.2),
      if_neg hxr.1]

/-- What completing a function does to the graph. -/
theorem build_written (hs : s.Proper) (h : s.Pending t) (ht : Sound t)
    (hbody : ∀ x, body = some x → ∃ b, t.block? x = some b ∧ b.parent = none) :
    s.Written body t (s.build body t).2 := by
  have hexists : ∀ x, body = some x → ∃ b, t.block? x = some b :=
    fun x hx => (hbody x hx).imp fun _ hb => hb.1
  have hlookup := block?_build hs h ht hexists
  have hshell : ∃ blocks drawn, t.drawn ≤ drawn ∧ drawn = t.drawn + s.arguments.entries.length ∧
      (s.build body t).2 = { t with blocks, drawn, scripts := t.scripts + 1 } := by
    rw [build_target]
    cases body with
    | none => exact ⟨_, _, Nat.le_add_right _ _, rfl, heads_eq s none t⟩
    | some head =>
      refine ⟨((s.heads (some head) t).adopt s.definition head).blocks, _, Nat.le_add_right _ _, rfl, ?_⟩
      rw [Option.elim_some, Target.adopt, heads_eq]
      rfl
  obtain ⟨blocks, drawn, hle, hdrawn, hshell⟩ := hshell
  have hdrawn' : (s.build body t).2.drawn = t.drawn + s.arguments.entries.length := by
    rw [hshell, hdrawn]
  refine ⟨fun {x b} hx => ?_, fun {x b} hx hn => ?_, ?_, ?_, ?_, ?_, linked_build hs h ht hbody⟩
  · have hd : s.definition ≠ x := ne_of_found h.definition hx
    have hp : s.prototype ≠ x := ne_of_found h.prototype hx
    rw [hlookup, if_neg hd, if_neg hp]
    by_cases hb : body = some x
    · exact ⟨Target.under s.definition b, by rw [if_pos hb, hx]; rfl, rfl, rfl, rfl,
        fun hne => absurd hb hne⟩
    · exact ⟨b, by rw [if_neg hb, shadows_find?_eq_none ht hx, hx]; rfl, rfl, rfl, rfl, fun _ => rfl⟩
  · rw [hlookup] at hx
    by_cases hd : s.definition = x
    · rw [if_pos hd] at hx
      cases hx
      exact .inl ⟨hd.symm, rfl, rfl⟩
    by_cases hp : s.prototype = x
    · rw [if_neg hd, if_pos hp] at hx
      cases hx
      exact .inr (.inl ⟨hp.symm, rfl, rfl⟩)
    have hb : body ≠ some x := by
      intro hb
      obtain ⟨b, hb, -⟩ := hbody x hb
      simp [hn] at hb
    rw [if_neg hd, if_neg hp, if_neg hb, hn, Option.or_none] at hx
    obtain ⟨hmem, hid, -⟩ := find?_shadows hx
    obtain ⟨m, e, hlt, hle', he, rfl⟩ := exists_of_mem_shadows hmem
    exact .inr (.inr ⟨m, e.1, e.2, hid.symm, hlt, by omega, Table.get?_eq_some_iff.2 he, rfl, rfl, rfl⟩)
  · exact ⟨_, by rw [hlookup, if_pos rfl], rfl, rfl⟩
  · omega
  · rw [hshell]
    rfl
  · rw [hshell]

end Signature
end ScriptBlocks
