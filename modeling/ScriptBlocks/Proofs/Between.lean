import ScriptBlocks.Proofs.Procedures
import ScriptBlocks.Proofs.Variables

/-!
# Between statements

The state between two statements at the top of a program: one target receives the scripts and the
other is still blank, the main script is a chain of blocks below its start, and nothing is open.
`Onward` says what every statement keeps of the target.
-/
namespace ScriptBlocks

variable {x : String} {v : View} {D P : String → Prop}

/-- Nothing has been compiled into a target yet. -/
structure Target.Blank (t : Target) : Prop where
  blocks : ∀ x, t.block? x = none
  vars : ∀ x, t.variableNamed? x = none
  functions : ∀ f, t.functionNamed? f = none
  scopes : t.scopes = []
  entry : t.entry = none
  intact : t.intact = true

namespace Target.Blank

variable {t : Target}

theorem proper (h : t.Blank) : t.Proper := by
  constructor <;> simp [h.intact, h.vars, h.functions]

theorem sane (h : t.Blank) : t.Sane := by
  constructor <;> simp [h.functions]

theorem links_eq (h : t.Blank) : t.links = fun _ => none := by
  funext x
  simp [Target.links, h.blocks]

theorem sound (h : t.Blank) : Sound t :=
  ⟨h.links_eq ▸ .empty, fun _ => h.blocks _⟩

end Target.Blank

/-- The blocks of the main script with its start. -/
def Target.mainScript (t : Target) (ids : List String) : List String :=
  t.entry.toList ++ ids

namespace Compilation

variable {ids ids' ids'' : List String} {c c' c'' : Compilation}

/-- The state between two statements at the top of a program. The blocks `ids` follow the start of
the main script. -/
structure Between (ids : List String) (c : Compilation) : Prop where
  function : c.function = none
  depth : c.branchDepth = 0
  good : c.inference.Good
  sound : Sound c.target
  started : ∀ {e}, c.target.entry = some e → Sited c.target ⟨some e, []⟩ [] ids ∧
    ∃ b, c.target.block? e = some b ∧ b.opcode = .flagClicked
  idle : c.target.entry = none → c.target.scopes = [] ∧ ids = []
  definitions : ∀ {f p}, c.target.functionNamed? f = some p →
    ∃ b, c.target.block? p.definition = some b ∧ b.opcode = .definition
  starts : ∀ {x b}, c.target.block? x = some b → b.opcode.startsScript = true →
    c.target.entry = some x ∨ ∃ f p, c.target.functionNamed? f = some p ∧ p.definition = x
  other : c.project.other.Blank

/-- What a statement at the top of a program keeps: old blocks, apart from the wiring of the main
script, and all names. -/
structure Onward (ids ids' : List String) (c c' : Compilation) : Prop where
  old : ∀ {x b}, c.target.block? x = some b → ∃ b', c'.target.block? x = some b' ∧
    Block.Kept False (x ∈ c.target.mainScript ids) False b b'
  fresh : ∀ {x}, x ∈ c'.target.mainScript ids' →
    x ∈ c.target.mainScript ids ∨ c.target.block? x = none
  entry : ∀ {e}, c.target.entry = some e → c'.target.entry = some e
  vars : ∀ {x v}, c.target.variableNamed? x = some v → ∃ v', c'.target.variableNamed? x = some v' ∧
    v'.ref = v.ref ∧ (v.built = true → v'.built = true)
  functions : ∀ {f p}, c.target.functionNamed? f = some p → c'.target.functionNamed? f = some p
  name : ∀ {f p}, c.target.functionNamed? f = some p → c'.target.name = c.target.name
  success : c'.project.success = true → c.project.success = true

/-! ### What is kept -/

namespace Onward

theorem refl (ids : List String) (c : Compilation) : Onward ids ids c c where
  old hx := ⟨_, hx, .refl⟩
  fresh := .inl
  entry := id
  vars hx := ⟨_, hx, rfl, id⟩
  functions := id
  name _ := rfl
  success := id

theorem trans (h : Onward ids ids' c c') (h' : Onward ids' ids'' c' c'') :
    Onward ids ids'' c c'' where
  old {x b} hx := by
    obtain ⟨b', hb', hk⟩ := h.old hx
    obtain ⟨b'', hb'', hk'⟩ := h'.old hb'
    refine ⟨b'', hb'', hk.trans hk' (fun ho => ho.elim id id) (fun hm => hm.elim id fun hm => ?_)
      fun _ => id⟩
    exact (h.fresh hm).resolve_right (by simp [hx])
  fresh {x} hx := by
    rcases h'.fresh hx with hm | hnone
    · exact h.fresh hm
    · refine .inr ?_
      rw [← Option.not_isSome_iff_eq_none, Option.isSome_iff_exists]
      rintro ⟨b, hb⟩
      obtain ⟨b', hb', -⟩ := h.old hb
      simp [hnone] at hb'
  entry he := h'.entry (h.entry he)
  vars {x v} hx := by
    obtain ⟨v', hv', hr, hb⟩ := h.vars hx
    obtain ⟨v'', hv'', hr', hb'⟩ := h'.vars hv'
    exact ⟨v'', hv'', hr'.trans hr, fun hb₀ => hb' (hb hb₀)⟩
  functions hf := h'.functions (h.functions hf)
  name hf := (h'.name (h.functions hf)).trans (h.name hf)
  success hs := h.success (h'.success hs)

/-- Nothing can be lost from a blank target. -/
theorem of_blank (hb : c.target.Blank)
    (hsuccess : c'.project.success = true → c.project.success = true) : Onward [] [] c c' where
  old hx := by simp [hb.blocks] at hx
  fresh {x} _ := .inr (hb.blocks x)
  entry he := by simp [hb.entry] at he
  vars hx := by simp [hb.vars] at hx
  functions hf := by simp [hb.functions] at hf
  name hf := by simp [hb.functions] at hf
  success := hsuccess

theorem built (h : Onward ids ids' c c') {v : Variable} (hx : c.target.builtVariable? x = some v) :
    ∃ v', c'.target.builtVariable? x = some v' ∧ v'.ref = v.ref := by
  obtain ⟨hx, hb⟩ := Target.builtVariable?_eq_some.1 hx
  obtain ⟨v', hv', hr, hb'⟩ := h.vars hx
  exact ⟨v', Target.builtVariable?_eq_some.2 ⟨hv', hb' hb⟩, hr⟩

/-- What is outside of the main script looks the same afterwards. -/
theorem look (h : Onward ids ids' c c') (hx : x ∉ c.target.mainScript ids)
    (hv : c.target.look x = some v) :
    x ∉ c'.target.mainScript ids' ∧ c'.target.look x = some v := by
  obtain ⟨b, hb, rfl⟩ := Option.map_eq_some_iff.1 hv
  obtain ⟨b', hb', hk⟩ := h.old hb
  refine ⟨fun hm => ?_, Option.map_eq_some_iff.2 ⟨b', hb', ?_⟩⟩
  · rcases h.fresh hm with hm | hnone
    · exact hx hm
    · simp [hb] at hnone
  · have hfields : b'.fields = b.fields := (congrArg Block.fields hk.face :)
    have hmutation : b'.mutation = b.mutation := (congrArg Block.mutation hk.face :)
    simp only [Block.view, hfields, hmutation, hk.opcode id, hk.inputs id, hk.next hx]

/-- A block of the main script looks the same up to what follows it. -/
theorem look_sameBlock (h : Onward ids ids' c c') (hv : c.target.look x = some v) :
    ∃ v', c'.target.look x = some v' ∧ v.SameBlock v' := by
  obtain ⟨b, hb, rfl⟩ := Option.map_eq_some_iff.1 hv
  obtain ⟨b', hb', hk⟩ := h.old hb
  refine ⟨b'.view, Option.map_eq_some_iff.2 ⟨b', hb', rfl⟩, hk.opcode id, ?_, ?_, ?_⟩
  · exact congrArg Table.entries (congrArg Block.fields hk.face :)
  · exact (congrArg Block.mutation hk.face :)
  · simp only [Block.view, hk.inputs id]

end Onward

/-! ### Steps that write no blocks -/

theorem good_of_function_none (hf : c.function = none) (hp : c.target.Proper) :
    c.inference.Good where
  tables := hp
  signature hs := by simp [hf] at hs
  tracked hs := by simp [hf] at hs

namespace Between

theorem of_blank (hf : c.function = none) (hd : c.branchDepth = 0) (hb : c.target.Blank)
    (hother : c.project.other.Blank) : Between [] c where
  function := hf
  depth := hd
  good := good_of_function_none hf hb.proper
  sound := hb.sound
  started he := by simp [hb.entry] at he
  idle _ := ⟨hb.scopes, rfl⟩
  definitions hf := by simp [hb.functions] at hf
  starts hx := by simp [hb.blocks] at hx
  other := hother

/-- Contexts play no role. -/
theorem of_eq (h : c.Between ids) (hp : c'.project = c.project) (hf : c'.function = c.function)
    (hd : c'.branchDepth = c.branchDepth) : c'.Between ids := by
  obtain ⟨project, function, branchDepth, contexts⟩ := c
  obtain ⟨project', function', branchDepth', contexts'⟩ := c'
  cases hp
  cases hf
  cases hd
  exact ⟨h.function, h.depth, h.good, h.sound, h.started, h.idle, h.definitions, h.starts, h.other⟩

/-- Before anything has been written the target is blank. -/
theorem blank (h : c.Between ids) (hcontent : c.target.hasContent = false)
    (hentry : c.target.entry = none) : c.target.Blank ∧ ids = [] := by
  have hblocks : c.target.blocks.keys = [] := by
    simp only [Target.hasContent, hentry, Bool.or_eq_false_iff, List.any_eq_false] at hcontent
    exact List.eq_nil_iff_forall_not_mem.2 fun x hx => by simpa using hcontent.2 x hx
  have hnone (x : String) : c.target.block? x = none := by
    rw [Target.block?, Table.get?_eq_none_iff, hblocks]
    exact List.not_mem_nil
  refine ⟨⟨hnone, Target.variableNamed?_of_not_hasContent hcontent, fun f => ?_,
    (h.idle hentry).1, hentry, h.good.tables.intact⟩, (h.idle hentry).2⟩
  rw [← Option.not_isSome_iff_eq_none, Option.isSome_iff_exists]
  rintro ⟨p, hp⟩
  obtain ⟨b, hb, -⟩ := h.definitions hp
  simp [hnone] at hb

/-- Heads of open sequences exist. -/
theorem exists_head (h : c.Between ids) {anchor : Option String} {head : String}
    (hm : .sequence anchor (some head) ∈ c.target.scopes) : ∃ b, c.target.block? head = some b := by
  cases he : c.target.entry with
  | none => simp [(h.idle he).1] at hm
  | some e => exact Emit.exists_head (h.started he).1 hm

/-- Only ids have been drawn and comments added. -/
theorem renamed (h : c.Between ids) (hr : c.target.Renamed c'.target)
    (hvars : c'.target.vars = c.target.vars) (hf : c'.function = none) (hrest : SameRest c c') :
    c'.Between ids ∧ Onward ids ids c c' := by
  have hblock (x : String) : c'.target.block? x = c.target.block? x := by
    rw [Target.block?, hr.blocks]
    rfl
  have hvar (x : String) : c'.target.variableNamed? x = c.target.variableNamed? x := by
    rw [Target.variableNamed?, hvars]
    rfl
  have hlinks : c'.target.links = c.target.links := by
    funext x
    simp only [Target.links, hblock]
  have hsound : Sound c'.target := by
    refine ⟨hlinks ▸ h.sound.linked, fun {n} hn => ?_⟩
    rw [hblock]
    exact h.sound.fresh (Nat.lt_of_le_of_lt hr.drawn hn)
  refine ⟨⟨hf, hrest.depth.trans h.depth, good_of_function_none hf ?_, hsound, fun {e} he => ?_,
    fun he => ?_, fun {f p} hp => ?_, fun {x b} hx hb => ?_, hrest.other ▸ h.other⟩,
    fun {x b} hx => ⟨b, (hblock x).trans hx, .refl⟩, fun {x} hx => ?_, fun he => hr.entry.trans he,
    fun {x v} hx => ⟨v, (hvar x).trans hx, rfl, id⟩, fun {f p} hp => (hr.functionNamed? f).trans hp,
    fun _ => hr.name, hrest.success⟩
  · exact hr.proper h.good.tables fun {x v} hx =>
      ⟨h.good.tables.names (hvar x ▸ hx), h.good.tables.values (hvar x ▸ hx),
        h.good.tables.built (hvar x ▸ hx)⟩
  · obtain ⟨hs, b, hb, hopcode⟩ := h.started (hr.entry ▸ he)
    refine ⟨hs.resite hsound (fun x b hb => ⟨b, (hblock x).trans hb, fun _ => ⟨rfl, rfl⟩⟩)
      fun scopes hscopes => hr.scopes.trans hscopes, b, (hblock e).trans hb, hopcode⟩
  · rw [hr.scopes]
    exact h.idle (hr.entry ▸ he)
  · rw [hblock]
    exact h.definitions (hr.functionNamed? f ▸ hp)
  · rw [hr.entry]
    simp only [hr.functionNamed?]
    exact h.starts (hblock x ▸ hx) hb
  · rw [Target.mainScript, hr.entry] at hx
    exact .inl hx

end Between

theorem Checked.renamed (hc : c.Checked D P) (hp : c.target.Proper)
    (hr : c.target.Renamed c'.target) (hvars : c'.target.vars = c.target.vars)
    (hf : c'.function = c.function) : c'.Checked D P := by
  have hvar (x : String) : c'.target.variableNamed? x = c.target.variableNamed? x := by
    rw [Target.variableNamed?, hvars]
    rfl
  refine hc.rename hp hr.blocks hr.functions ⟨fun {x v} hx _ => ⟨v, (hvar x).trans hx, rfl, rfl⟩,
    fun {f p} hp => (hr.functionNamed? f).trans hp⟩ (fun x v hD hx => ?_)
    (hc.named_later hr.name hr.functions (fun s hs => ⟨s, hf.trans hs, rfl⟩) fun x v hx => ?_)
    fun s hs => ?_
  · exact hc.unbuilt x v hD (hvar x ▸ hx)
  · exact .inl ⟨v, hvar x ▸ hx⟩
  · exact (hc.result s (hf ▸ hs)).later (fun x _ => hvar x) hr.name rfl rfl rfl

/-- In a blank target there is nothing to check. -/
theorem Checked.of_blank (hf : c.function = none) (hb : c.target.Blank) : c.Checked D P where
  sane := hb.sane
  typed x b hx := by simp [hb.blocks] at hx
  unbuilt x v _ hx := by simp [hb.vars] at hx
  named x v hx := by simp [hb.vars] at hx
  result s hs := by simp [hf] at hs

end Compilation

/-! ### The start of the main script -/

namespace Target

variable {t : Target}

/-- The block that starts the main script. -/
def startBlock (t : Target) : Block :=
  { Block.flagClicked (t.freshId "block") with position := some t.scriptPosition }

/-- The start of the main script has been added to a target. -/
structure Begins (t t' : Target) : Prop where
  block? : ∀ x, t'.block? x = if t.freshId "block" = x then some t.startBlock else t.block? x
  entry : t'.entry = some (t.freshId "block")
  scopes : t'.scopes = [.after (some (t.freshId "block"))]
  vars : t'.vars = t.vars
  functions : t'.functions = t.functions
  name : t'.name = t.name
  intact : t'.intact = t.intact
  drawn : t'.drawn = t.drawn + 1

theorem ensureEntry_eq (he : t.entry = none) (hs : t.scopes = []) :
    t.ensureEntry =
      { t with
        blocks := t.blocks.insert (t.freshId "block") t.startBlock
        scopes := [.after (some (t.freshId "block"))]
        drawn := t.drawn + 1
        entry := some (t.freshId "block")
        scripts := t.scripts + 1 } := by
  simp only [ensureEntry, he, drawBlock, addBlock, draw, hs, Scopes.place]
  rfl

theorem ensureEntry_begins (he : t.entry = none) (hs : t.scopes = []) :
    t.Begins t.ensureEntry := by
  rw [ensureEntry_eq he hs]
  exact ⟨fun x => Table.get?_insert _ _ x _, rfl, rfl, rfl, rfl, rfl, rfl, rfl⟩

namespace Begins

variable {t' : Target}

theorem start (h : t.Begins t') : t'.block? (t.freshId "block") = some t.startBlock := by
  rw [h.block?, if_pos rfl]

theorem old (h : t.Begins t') (hs : Sound t) {b : Block} (hx : t.block? x = some b) :
    t'.block? x = some b := by
  rw [h.block?, if_neg, hx]
  rintro rfl
  simp [hs.fresh (Nat.lt_succ_self t.drawn), freshId] at hx

theorem variableNamed? (h : t.Begins t') (x : String) : t'.variableNamed? x = t.variableNamed? x := by
  rw [Target.variableNamed?, h.vars]
  rfl

theorem functionNamed? (h : t.Begins t') (f : String) : t'.functionNamed? f = t.functionNamed? f := by
  rw [Target.functionNamed?, h.functions]
  rfl

theorem grows (h : t.Begins t') : t.Grows t' :=
  ⟨fun {x v} hx _ => ⟨v, (h.variableNamed? x).trans hx, rfl, rfl⟩,
    fun {f _} hf => (h.functionNamed? f).trans hf⟩

theorem proper (h : t.Begins t') (hp : t.Proper) : t'.Proper := by
  constructor <;> simp only [h.intact, h.variableNamed?, h.functionNamed?]
  · exact hp.intact
  · exact hp.names
  · exact hp.values
  · exact hp.built
  · exact hp.procs
  · exact hp.arguments
  · exact hp.results

theorem sound (h : t.Begins t') (hs : Sound t) : Sound t' := by
  constructor
  · refine hs.linked.add (n := t.freshId "block") (l := t.startBlock.links) ?_
      (links_eq_some h.start) rfl rfl ?_ ?_ ?_ ?_
    · simp [links, freshId, hs.fresh (Nat.lt_succ_self t.drawn)]
    · exact List.nodup_nil
    · intro y hy
      cases hy
    · intro slot y hy
      cases hy
    · intro x hx _
      simp [links, h.block?, Ne.symm hx]
  · intro n hn
    rw [h.drawn] at hn
    rw [h.block?, if_neg]
    · exact hs.fresh (by omega)
    · intro hid
      have := idText_injective hid
      omega

/-- The start is a script of its own. -/
theorem sited (h : t.Begins t') (hs : Sound t) :
    Sited t' ⟨some (t.freshId "block"), []⟩ [] [] where
  sound := h.sound hs
  chain := ⟨⟨_, links_eq_some h.start, rfl, rfl⟩, trivial⟩
  nodup := by simp
  scopes := ⟨none, h.scopes, by simp, by simp⟩
  apart hm := by simp at hm

end Begins

end Target

namespace Compilation

variable {ids : List String} {c : Compilation} {t : Target}

theorem Between.begins (h : c.Between []) (he : c.target.entry = none) (hb : c.target.Begins t) :
    (c.setTarget t).Between [] where
  function := h.function
  depth := h.depth
  good := good_of_function_none h.function (by rw [target_setTarget]; exact hb.proper h.good.tables)
  sound := by rw [target_setTarget]; exact hb.sound h.sound
  started {e} hentry := by
    rw [target_setTarget] at hentry ⊢
    obtain rfl := Option.mem_unique hentry hb.entry
    exact ⟨hb.sited h.sound, _, hb.start, rfl⟩
  idle hnone := by simp [hb.entry] at hnone
  definitions {f p} hp := by
    rw [target_setTarget] at hp ⊢
    obtain ⟨b, hx, hopcode⟩ := h.definitions (hb.functionNamed? f ▸ hp)
    exact ⟨b, hb.old h.sound hx, hopcode⟩
  starts {x b} hx hopcode := by
    rw [target_setTarget] at hx ⊢
    simp only [hb.functionNamed?, hb.entry]
    rw [hb.block?] at hx
    by_cases hid : c.target.freshId "block" = x
    · exact .inl (congrArg some hid)
    · rw [if_neg hid] at hx
      exact .inr ((h.starts hx hopcode).resolve_left (by simp [he]))
  other := (SameRest.setTarget c t).other ▸ h.other

theorem Onward.begins (hs : Sound c.target) (he : c.target.entry = none) (hb : c.target.Begins t) :
    Onward [] [] c (c.setTarget t) where
  old hx := by
    rw [target_setTarget]
    exact ⟨_, hb.old hs hx, .refl⟩
  fresh {x} hx := by
    rw [target_setTarget, Target.mainScript, hb.entry] at hx
    obtain rfl : x = c.target.freshId "block" := by simpa using hx
    exact .inr (hs.fresh (Nat.lt_succ_self _))
  entry hsome := by simp [he] at hsome
  vars {x v} hx := by
    rw [target_setTarget, hb.variableNamed?]
    exact ⟨v, hx, rfl, id⟩
  functions {f p} hf := by
    rw [target_setTarget, hb.functionNamed?]
    exact hf
  name _ := by rw [target_setTarget, hb.name]
  success := (SameRest.setTarget c t).success

theorem Checked.begins (h : c.Between []) (hb : c.target.Begins t) (hc : c.Checked D fun _ => False) :
    (c.setTarget t).Checked D fun _ => False := by
  have hsane : t.Sane := hc.sane.grow h.good.tables hb.grows hb.functions
  refine ⟨?_, fun x b hx _ => ?_, fun x v hD hx => ?_, hc.named_later ?_ ?_
    (fun s hs => ⟨s, hs, rfl⟩) fun x v hx => ?_, fun s hs => ?_⟩
  all_goals rw [target_setTarget] at *
  · exact hsane
  · rw [hb.block?] at hx
    by_cases hid : c.target.freshId "block" = x
    · rw [if_pos hid] at hx
      cases hx
      trivial
    · rw [if_neg hid] at hx
      exact (hc.typed x b hx id).mono rfl rfl (.inl rfl) hb.grows
        fun y b' _ hy _ => ⟨b', hb.old h.sound hy, rfl⟩
  · exact hc.unbuilt x v hD (hb.variableNamed? x ▸ hx)
  · exact hb.name
  · exact hb.functions
  · exact .inl ⟨v, hb.variableNamed? x ▸ hx⟩
  · have hnone : c.function = none := h.function
    rw [function_setTarget, hnone] at hs
    cases hs

/-- The main script has a start, which is new or was there before. -/
structure Started (ids : List String) (c c' : Compilation) : Prop where
  between : c'.Between ids
  onward : Onward ids ids c c'
  entry : ∃ e, c'.target.entry = some e
  name : c'.target.name = c.target.name
  functions : c'.target.functions = c.target.functions
  checked : ∀ {D : String → Prop}, c.Checked D (fun _ => False) → c'.Checked D fun _ => False

theorem Between.ensureEntry (h : c.Between ids) :
    Started ids c (c.setTarget c.target.ensureEntry) := by
  cases he : c.target.entry with
  | some e =>
    have hsame : c.target.ensureEntry = c.target := by
      simp only [Target.ensureEntry, he]
    rw [hsame, setTarget_target]
    exact ⟨h, .refl ids c, ⟨e, he⟩, rfl, rfl, id⟩
  | none =>
    obtain ⟨hscopes, rfl⟩ := h.idle he
    have hb := Target.ensureEntry_begins he hscopes
    refine ⟨h.begins he hb, .begins h.sound he hb, ?_, ?_, ?_, .begins h hb⟩
    · exact ⟨_, (congrArg Target.entry (target_setTarget _ _)).trans hb.entry⟩
    · exact (congrArg Target.name (target_setTarget _ _)).trans hb.name
    · exact (congrArg Target.functions (target_setTarget _ _)).trans hb.functions

end Compilation
end ScriptBlocks
