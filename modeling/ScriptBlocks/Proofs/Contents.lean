import ScriptBlocks.Proofs.Assembly
import ScriptBlocks.Proofs.Outcomes

/-!
# What a project consists of in the end

Every block belongs to exactly one script if there are no errors, and the scripts are the main
script and those of the functions. With or without errors, ids are unique, blocks refer to variables
that the target has, and calls have the slots and the signature of the function that they call.
-/
namespace ScriptBlocks

/-! ### The targets in the end -/

/-- Nothing has an id yet. -/
theorem Target.numbered_empty {t : Target} (hb : t.blocks = .empty) (hc : t.comments = .empty)
    (hv : t.vars = .empty) (hf : t.functions = .empty) : t.Numbered where
  blocks x hx := by
    rw [hb] at hx
    cases hx
  comments x hx := by
    rw [hc] at hx
    cases hx
  vars := ⟨[], .nil, by simp, by rw [hv]; rfl⟩
  arguments := ⟨[], .nil, by simp, by rw [hf]; rfl⟩

theorem Compilation.Assembled.new (sprite : String) : Assembled [] { project := .new sprite } where
  between := .new sprite
  arranged := ((Between.new sprite).blank rfl rfl).1.arranged (Target.numbered_empty rfl rfl rfl rfl)
  other := Target.numbered_empty rfl rfl rfl rfl
  held _ x b hx := by cases hx

theorem Program.compiled_assembled (program : Program) (sprite : String) :
    (∃ ids, (program.compiled sprite).Assembled ids) ∧
      (program.compiled sprite).target.entry.isSome = program.statements.any Emit.needsEntry := by
  obtain ⟨ids, h, hentry⟩ := Emit.program_assembled (.new sprite) program.statements
  exact ⟨⟨ids, h⟩, hentry⟩

/-- Every target is arranged in the end. -/
theorem arranged_of_mem_targets {source sprite : String} {t : Target}
    (ht : t ∈ (compile source sprite).targets) : t.Arranged := by
  cases h : Program.ofSource source with
  | ok program =>
    obtain ⟨⟨ids, hassembled⟩, -⟩ := program.compiled_assembled sprite
    rw [compile_eq h] at ht
    obtain rfl | rfl := Project.mem_targets ht
    · exact hassembled.arranged
    · exact hassembled.between.other.arranged hassembled.other
  | error error =>
    have hnew := Compilation.Assembled.new sprite
    simp only [compile, Project.compile, h] at ht
    obtain rfl | rfl := Project.mem_targets ht
    · exact hnew.arranged
    · exact hnew.between.other.arranged hnew.other

namespace Target.Arranged

variable {t : Target} {x : String} {b : Block}

/-- The blocks at the top of scripts. -/
theorem topLevel_iff (h : t.Arranged) (hx : t.block? x = some b) :
    b.topLevel = true ↔
      t.entry = some x ∨ ∃ f p, t.functionNamed? f = some p ∧ p.definition = x := by
  constructor
  · intro htop
    obtain hb | ⟨he, -⟩ | ⟨f, p, hp, ⟨hid, -⟩ | ⟨-, heq⟩ | ⟨a, type, heq⟩⟩ := h.block_cases hx
    · simp [hb.topLevel] at htop
    · exact .inl he
    · exact .inr ⟨f, p, hp, hid.symm⟩
    · cases htop.symm.trans (congrArg Block.topLevel heq :)
    · cases htop.symm.trans (congrArg Block.topLevel heq :)
  · rintro (he | ⟨f, p, hp, rfl⟩)
    · obtain ⟨point, b', hb', heq⟩ := h.entry he
      cases hx.symm.trans hb'
      exact (congrArg Block.topLevel heq :)
    · obtain ⟨point, b', hb', heq⟩ := (h.procedures hp).definition
      cases hx.symm.trans hb'
      exact (congrArg Block.topLevel heq :)

/-- They are the ones with a place on the canvas. -/
theorem position_isSome (h : t.Arranged) (hx : t.block? x = some b) :
    b.position.isSome = b.topLevel := by
  obtain hb | ⟨-, point, heq⟩ | ⟨f, p, -, ⟨-, point, heq⟩ | ⟨-, heq⟩ | ⟨a, type, heq⟩⟩ :=
    h.block_cases hx
  · rw [hb.position, hb.topLevel]
    rfl
  all_goals
    rw [show b.position = _ from (congrArg Block.position heq :),
      show b.topLevel = _ from (congrArg Block.topLevel heq :)]
    rfl

end Target.Arranged

/-! ### Scripts -/

/-- A block leads to the one after it and to those in its slots. -/
def Block.LeadsTo (b : Block) (y : String) : Prop :=
  b.next = some y ∨ ∃ slot input, (slot, input) ∈ b.inputs.entries ∧ input.block? = some y

/-- The second block is reached from the first. -/
inductive Target.Reaches (t : Target) (r : String) : String → Prop
  | refl : t.Reaches r r
  | step {x y : String} {b : Block} : t.Reaches r x → t.block? x = some b → b.LeadsTo y →
    t.Reaches r y

theorem Block.leadsTo_iff {b : Block} {y : String} : b.LeadsTo y ↔ y ∈ b.links.refs := by
  rw [Links.mem_refs]
  simp only [LeadsTo, links, List.mem_map, Prod.mk.injEq, Prod.exists]
  constructor
  · rintro (h | ⟨slot, input, hm, hy⟩)
    · exact .inl h
    · exact .inr ⟨slot, slot, input, hm, rfl, hy⟩
  · rintro (h | ⟨slot, _, input, hm, rfl, hy⟩)
    · exact .inl h
    · exact .inr ⟨_, input, hm, hy⟩

namespace Target

variable {t : Target} {r r' x : String} {b : Block}

/-- On the way up from a block there is one without a parent, from which the block is reached. -/
theorem exists_reaches (h : Linked t.links) (hx : Rooted t.links x) :
    ∃ r b, t.block? r = some b ∧ b.parent = none ∧ t.Reaches r x := by
  induction hx with
  | root hx hparent =>
    obtain ⟨b, hb, rfl⟩ := exists_of_links hx
    exact ⟨_, b, hb, hparent, .refl⟩
  | child hx hparent _ ih =>
    obtain ⟨r, b, hb, hroot, hreach⟩ := ih
    obtain ⟨m, hm, hy⟩ := h.up hx hparent
    obtain ⟨bp, hbp, rfl⟩ := exists_of_links hm
    exact ⟨r, b, hb, hroot, hreach.step hbp (Block.leadsTo_iff.2 hy)⟩

/-- What is reached otherwise than by staying has a parent. -/
theorem parent_of_leadsTo (h : Linked t.links) (hx : t.block? x = some b) {y : String}
    (hy : b.LeadsTo y) : ∃ c, t.block? y = some c ∧ c.parent = some x := by
  obtain ⟨m, hm, hparent⟩ := h.down (links_eq_some hx) (Block.leadsTo_iff.1 hy)
  obtain ⟨c, hc, rfl⟩ := exists_of_links hm
  exact ⟨c, hc, hparent⟩

/-- Only one block without a parent is on the way up. -/
theorem Reaches.unique (h : Linked t.links) {b' : Block} (hr : t.block? r = some b)
    (hroot : b.parent = none) (hr' : t.block? r' = some b') (hroot' : b'.parent = none)
    (hx : t.Reaches r x) (hx' : t.Reaches r' x) : r = r' := by
  induction hx with
  | refl =>
    cases hx' with
    | refl => rfl
    | step hx' hb hy =>
      obtain ⟨c, hc, hparent⟩ := parent_of_leadsTo h hb hy
      cases hr.symm.trans hc
      simp [hroot] at hparent
  | step hx hb hy ih =>
    obtain ⟨c, hc, hparent⟩ := parent_of_leadsTo h hb hy
    cases hx' with
    | refl =>
      cases hr'.symm.trans hc
      simp [hroot'] at hparent
    | step hx' hb' hy' =>
      obtain ⟨c', hc', hparent'⟩ := parent_of_leadsTo h hb' hy'
      cases hc.symm.trans hc'
      cases hparent.symm.trans hparent'
      exact ih hx'

end Target

/-- Whether a statement belongs to the main script. -/
theorem needsEntry_eq_true_iff {s : Statement} : Emit.needsEntry s = true ↔
    (∀ text span, s ≠ .comment text span) ∧ (∀ name span, s ≠ .directive name span) ∧
      ∀ name params body span, s ≠ .function name params body span := by
  cases s <;> simp [Emit.needsEntry]

/-- Without errors every block of the current target is reached from exactly one block at the top of
a script. These blocks are the start of the main script, which is there if a statement at the top of
the program belongs to it, and the definitions of the functions, one for each. They are the blocks
without a parent and the blocks with a place on the canvas, and no two of them share their place
while the places fit in 32 bits. -/
theorem compile_reached {source sprite : String}
    (hsuccess : (compile source sprite).success = true) :
    let t := (compile source sprite).current
    (∀ x b, t.block? x = some b →
      (∃! r, (∃ top, t.block? r = some top ∧ top.topLevel = true) ∧ t.Reaches r x) ∧
      (b.topLevel = true ↔
        t.entry = some x ∨ ∃ f p, t.functionNamed? f = some p ∧ p.definition = x) ∧
      (b.parent = none ↔ b.topLevel = true) ∧ (b.position.isSome ↔ b.topLevel = true)) ∧
    (t.scripts ≤ Target.maxScripts → ∀ x y b c, t.block? x = some b → t.block? y = some c →
      b.position.isSome → b.position = c.position → x = y) ∧
    (∀ e, t.entry = some e → ∃ b, t.block? e = some b ∧ b.opcode = .flagClicked) ∧
    (∃ program, Program.ofSource source = .ok program ∧ (t.entry.isSome ↔
      ∃ s ∈ program.statements, (∀ text span, s ≠ .comment text span) ∧
        (∀ name span, s ≠ .directive name span) ∧
        ∀ name params body span, s ≠ .function name params body span)) ∧
    (∀ f p, t.functionNamed? f = some p →
      ∃ b, t.block? p.definition = some b ∧ b.opcode = .definition) ∧
    ∀ f g p q, t.functionNamed? f = some p → t.functionNamed? g = some q →
      p.definition = q.definition → f = g := by
  intro t
  obtain ⟨program, hprogram⟩ := exists_program_of_success hsuccess
  obtain ⟨⟨ids, hassembled⟩, hentry⟩ := program.compiled_assembled sprite
  have htarget : t = (program.compiled sprite).target :=
    congrArg Project.current (compile_eq hprogram sprite)
  rw [compile_eq hprogram] at hsuccess
  have hheld := hassembled.held hsuccess
  have harr := hassembled.arranged
  have hlinked := hassembled.between.sound.linked
  rw [← htarget] at hheld harr hlinked hentry
  have htop : ∀ {x b}, t.block? x = some b → (b.parent = none ↔ b.topLevel = true) :=
    fun hx => ⟨hheld hx, harr.root hx⟩
  refine ⟨fun x b hx => ⟨?_, harr.topLevel_iff hx, htop hx, ?_⟩,
    fun hmax x y b c hx hy hsome heq => ?_, fun e he => ?_, ⟨program, hprogram, ?_⟩,
    fun f p hp => ?_, fun f g p q hp hq => harr.definitions hp hq⟩
  · obtain ⟨r, top, hr, hroot, hreach⟩ := Target.exists_reaches hlinked
      (hlinked.rooted (Target.links_eq_some hx))
    refine ⟨r, ⟨⟨top, hr, (htop hr).1 hroot⟩, hreach⟩, ?_⟩
    rintro r' ⟨⟨top', hr', htop'⟩, hreach'⟩
    exact Target.Reaches.unique hlinked hr' ((htop hr').2 htop') hr hroot hreach' hreach
  · rw [harr.position_isSome hx]
  · obtain ⟨point, hpoint⟩ := Option.isSome_iff_exists.1 hsome
    exact harr.apart hmax hx hy hpoint (heq ▸ hpoint)
  · obtain ⟨point, b, hb, heq⟩ := harr.entry he
    exact ⟨b, hb, (congrArg Block.opcode heq :)⟩
  · simp only [hentry, List.any_eq_true, needsEntry_eq_true_iff]
  · obtain ⟨point, b, hb, heq⟩ := (harr.procedures hp).definition
    exact ⟨b, hb, (congrArg Block.opcode heq :)⟩

/-- A call in the body of a conditional. -/
theorem compile_reached_conditional :
    let source := "function f(a) \x7b return a + 1 \x7d\nlet x = 1\nif x > 0 \x7b x = f(x) \x7d"
    let t := (compile source "Sprite1").current
    (compile source "Sprite1").success = true ∧ ∃ b, t.block? "block_16" = some b ∧
      b.opcode = .call ∧ b.parent ≠ none ∧ b.position = none ∧
      ∃! r, (∃ top, t.block? r = some top ∧ top.topLevel = true) ∧ t.Reaches r "block_16" := by
  intro source t
  obtain ⟨hsuccess, b, hb, hopcode, htop⟩ : (compile source "Sprite1").success = true ∧
      ∃ b ∈ t.block? "block_16", b.opcode = .call ∧ b.topLevel = false := by
    decide +kernel
  obtain ⟨hreached, -, hparent, hposition⟩ := (compile_reached hsuccess).1 "block_16" b hb
  refine ⟨hsuccess, b, hb, hopcode, fun hnone => ?_, ?_, hreached⟩
  · simp [hparent.1 hnone] at htop
  · simpa [htop] using hposition

end ScriptBlocks
