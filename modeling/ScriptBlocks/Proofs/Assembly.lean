import ScriptBlocks.Proofs.Presentation

/-!
# The targets of a program

One step for each statement at the top of a program, and from it the run of a whole program. After
each statement the target is arranged, and as long as there are no errors every block without a
parent is at the top of a script. The main script has a start as soon as a statement needs one.
-/
namespace ScriptBlocks

/-- An empty target is arranged. -/
theorem Target.Blank.arranged {t : Target} (h : t.Blank) (hn : t.Numbered) : t.Arranged where
  numbered := hn
  returns f p ref hp := by simp [h.functions] at hp
  entry he := by simp [h.entry] at he
  procedures hp := by simp [h.functions] at hp
  definitions hp := by simp [h.functions] at hp
  blocks hx := by simp [h.blocks] at hx
  root hx := by simp [h.blocks] at hx
  placed hx := by simp [h.blocks] at hx
  apart _ := fun hx => by simp [h.blocks] at hx

namespace Compilation

variable {ids ids' : List String} {c c' : Compilation}

/-- Every block without a parent is at the top of a script, unless there has been an error. -/
def Held (c : Compilation) : Prop :=
  c.project.success = true → ∀ ⦃x b⦄, c.target.block? x = some b → b.parent = none →
    b.topLevel = true

/-- What the targets consist of between two statements at the top of a program. -/
structure Assembled (ids : List String) (c : Compilation) : Prop where
  between : c.Between ids
  arranged : c.target.Arranged
  other : c.project.other.Numbered
  held : c.Held

namespace Assembled

/-- Contexts play no role. -/
theorem of_eq (h : c.Assembled ids) (hp : c'.project = c.project)
    (hf : c'.function = c.function) (hd : c'.branchDepth = c.branchDepth) : c'.Assembled ids := by
  obtain ⟨project, function, branchDepth, contexts⟩ := c'
  cases hp
  cases hf
  cases hd
  exact ⟨h.between.of_eq rfl rfl rfl, h.arranged, h.other, h.held⟩

/-- A step that writes no blocks. -/
theorem of_blocks (h : c.Assembled ids) (hb : c'.Between ids) (hblocks : c'.target.blocks = c.target.blocks)
    (hfunctions : c'.target.functions = c.target.functions)
    (hentry : c'.target.entry = c.target.entry)
    (he : c.target.Enlarged (fun _ => False) c'.target) (hrest : SameRest c c') :
    c'.Assembled ids where
  between := hb
  arranged := h.arranged.of_blocks hblocks hfunctions hentry he
  other := by
    rw [hrest.other]
    exact h.other
  held hsuccess x b hx := by
    rw [Target.block?, hblocks] at hx
    exact h.held (hrest.success hsuccess) hx

/-- The start of the main script. -/
theorem ensureEntry (h : c.Assembled ids) :
    (c.setTarget c.target.ensureEntry).Assembled ids where
  between := h.between.ensureEntry.between
  arranged := by
    rw [target_setTarget]
    exact h.arranged.ensureEntry h.between.sound fun he => (h.between.idle he).1
  other := by
    rw [(SameRest.setTarget c _).other]
    exact h.other
  held hsuccess x b hx hparent := by
    have hheld := h.held ((SameRest.setTarget c _).success hsuccess)
    rw [target_setTarget] at hx
    cases he : c.target.entry with
    | some e =>
      rw [show c.target.ensureEntry = c.target by simp only [Target.ensureEntry, he]] at hx
      exact hheld hx hparent
    | none =>
      rw [(Target.ensureEntry_begins he (h.between.idle he).1).block?] at hx
      split at hx
      next =>
        cases hx
        rfl
      next => exact hheld hx hparent

/-- The main script can be extended. -/
theorem poised (h : c.Assembled ids) {e : String} (he : c.target.entry = some e) :
    c.Poised ⟨some e, []⟩ ids where
  good := h.between.good
  sited := (h.between.started he).1
  tidy := h.arranged.tidy
  answered s ref hs := by simp [h.between.function] at hs

end Assembled

end Compilation

namespace Emit

open Compilation

variable {ids : List String} {c : Compilation}

/-! ### Steps -/

/-- A statement of the main script. -/
theorem statement_assembled (h : c.Assembled ids) {e : String} (he : c.target.entry = some e)
    {s : Statement} (hs : needsEntry s = true) :
    ∃ ids', (inContext s.span (statement s) c).2.Assembled ids' := by
  obtain ⟨new, hext, hw, -⟩ := ((statement_inscribes s).inContext s.span) (h.poised he) (.inl hs)
  refine ⟨ids ++ new, extended_between hext h.between he, hw.arranged h.arranged h.between he hext,
    ?_, fun hsuccess x b => hw.held hext hsuccess fun hx => h.held (hext.rest.success hsuccess) hx⟩
  rw [hext.rest.other]
  exact h.other

theorem function_assembled (h : c.Assembled ids) (name : Named) (params : List Named)
    (body : List Statement) (span : Span) :
    (function name params (statements body) c).2.Assembled ids := by
  have hb := h.between
  have hbetween := (function_performs .unknown hb name params body span).between
  obtain ⟨c', hrun, ⟨n, hn, hdrew⟩, hrest, -⟩ | ⟨s, s₂, s₃, new, c₁, c₂, u, c', hrun, hstaged⟩ :=
    function_stages .unknown hb.function hb.depth hb.good hb.sound hb.exists_head name params body
  · rw [hrun] at hbetween ⊢
    refine h.of_blocks hbetween ?_ ?_ ?_ ?_ hrest <;> rw [hdrew]
    exact .of_blocks rfl rfl rfl hn
  · rw [hrun] at hbetween ⊢
    refine ⟨hbetween, hstaged.arranged h.arranged hb.good hb.sound hb.exists_head, ?_,
      fun hsuccess x b => hstaged.held h.arranged.tidy hb.good hb.sound hb.exists_head hsuccess
        fun hx => h.held (hstaged.sameRest.success hsuccess) hx⟩
    rw [hstaged.sameRest.other]
    exact h.other

theorem comment_assembled (h : c.Assembled ids) (text : String) (span : Span) :
    (comment text c).2.Assembled ids := by
  have hrun : (comment text c).2 = c.setTarget (c.target.addComment text).2 := rfl
  have hbetween := (comment_performs .unknown h.between text span).between
  rw [hrun] at hbetween ⊢
  refine h.of_blocks hbetween ?_ ?_ ?_ ?_ (.setTarget c _) <;> rw [target_setTarget]
  · rfl
  · rfl
  · rfl
  · exact Target.addComment_enlarged text

theorem directive_assembled (h : c.Assembled ids) (name : Named) (span : Span) :
    (directive name c).2.Assembled ids := by
  have hbetween := (directive_performs .unknown h.between name span).between
  obtain ⟨htarget, -, hrest⟩ | ⟨hblank, -, hstage, hsprite, -⟩ := directive_cases h.between name rfl
  · refine h.of_blocks hbetween ?_ ?_ ?_ ?_ hrest <;> rw [htarget]
    exact .refl _
  · -- both targets are blank, whichever of them is the current one
    have hboth : (directive name c).2.target.Blank ∧ (directive name c).2.target.Numbered ∧
        (directive name c).2.project.other.Numbered := by
      simp only [Compilation.target]
      obtain ⟨hcurrent, hother⟩ | ⟨hcurrent, hother⟩ := Project.current_or_other hstage hsprite
      · rw [hcurrent, hother]
        exact ⟨hblank, h.arranged.numbered, h.other⟩
      · rw [hcurrent, hother]
        exact ⟨h.between.other, h.other, h.arranged.numbered⟩
    exact ⟨hbetween, hboth.1.arranged hboth.2.1, hboth.2.2,
      fun _ x b hx => by simp [hboth.1.blocks] at hx⟩

theorem inContext_assembled {m : Emit Unit} {span : Span}
    (h : (m { c with contexts := span :: c.contexts }).2.Assembled ids) :
    (inContext span m c).2.Assembled ids :=
  h.of_eq rfl rfl rfl

/-- One statement at the top of a program. -/
theorem visit_assembled (h : c.Assembled ids) (s : Statement) :
    ∃ ids', (inContext s.span (statement s)
      (if needsEntry s then c.setTarget c.target.ensureEntry else c)).2.Assembled ids' := by
  cases hs : needsEntry s with
  | true =>
    obtain ⟨e, he⟩ := h.between.ensureEntry.entry
    exact statement_assembled h.ensureEntry he hs
  | false =>
    have h' : Assembled ids { c with contexts := s.span :: c.contexts } := h.of_eq rfl rfl rfl
    refine ⟨ids, inContext_assembled ?_⟩
    cases s with
    | function name params body span => exact function_assembled h' name params body span
    | directive name span => exact directive_assembled h' name span
    | comment text span => exact comment_assembled h' text span
    | _ => cases hs

/-- Apart from the main script, statements leave its start and the contexts as they are. -/
theorem statement_apart (h : c.Between ids) {s : Statement} (hs : needsEntry s = false) :
    (statement s c).2.target.entry = c.target.entry ∧ (statement s c).2.contexts = c.contexts := by
  cases s with
  | function name params body span =>
    simp only [statement]
    obtain ⟨c', hrun, ⟨n, -, hdrew⟩, hrest, -⟩ | ⟨p, c', hrun, hdef⟩ :=
      function_defines h.function h.depth h.good h.sound h.exists_head name params body
    · rw [hrun, hdrew]
      exact ⟨rfl, hrest.contexts⟩
    · rw [hrun]
      exact ⟨hdef.entry, hdef.rest.contexts⟩
  | directive name span =>
    simp only [statement]
    obtain ⟨htarget, -, hrest⟩ | ⟨hblank, -, hstage, hsprite, -, -, -, hcontexts⟩ :=
      directive_cases h name rfl
    · rw [htarget]
      exact ⟨rfl, hrest.contexts⟩
    · refine ⟨?_, hcontexts⟩
      simp only [Compilation.target]
      obtain ⟨hcurrent, -⟩ | ⟨hcurrent, -⟩ := Project.current_or_other hstage hsprite
      · rw [hcurrent]
      · rw [hcurrent, h.other.entry]
        exact hblank.entry.symm
  | comment text span =>
    refine ⟨?_, rfl⟩
    change (c.setTarget (c.target.addComment text).2).target.entry = _
    rw [target_setTarget]
    rfl
  | _ => cases hs

/-- The main script gets its start with the first statement that needs it. -/
theorem visit_entry (h : c.Between ids) (s : Statement) :
    (inContext s.span (statement s)
      (if needsEntry s then c.setTarget c.target.ensureEntry else c)).2.target.entry.isSome =
      (c.target.entry.isSome || needsEntry s) := by
  cases hs : needsEntry s with
  | true =>
    have hstart := h.ensureEntry
    obtain ⟨e, he⟩ := hstart.entry
    obtain ⟨new, hc⟩ := (statement_compiles .unknown s).inContext s.span hstart.between.good
      (hstart.between.started he).1 (.inl hs)
    simp only [↓reduceIte, hc.extended.persists.entry, he, Option.isSome_some, Bool.or_true]
  | false =>
    have hb : Between ids { c with contexts := s.span :: c.contexts } := h.of_eq rfl rfl rfl
    simp only [Bool.false_eq_true, ↓reduceIte, Bool.or_false]
    exact congrArg Option.isSome (statement_apart hb hs).1

/-! ### Runs -/

theorem program_assembled (h : c.Assembled ids) (body : List Statement) :
    ∃ ids', (program body c).Assembled ids' ∧ (program body c).target.entry.isSome =
      (c.target.entry.isSome || body.any needsEntry) := by
  induction body generalizing c ids with
  | nil => exact ⟨ids, h, by simp [program]⟩
  | cons s rest ih =>
    obtain ⟨ids₁, h₁⟩ := visit_assembled h s
    obtain ⟨ids', h', hentry⟩ := ih h₁
    refine ⟨ids', h', ?_⟩
    rw [visit_entry h.between, Bool.or_assoc] at hentry
    exact hentry

end Emit
end ScriptBlocks
