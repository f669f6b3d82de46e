import ScriptBlocks.Proofs.Owners

/-!
# One target for all code

The stage can be made the target of a program only before anything has been compiled. So at every
point of a compilation at most one of the two targets has got anything, and that is the current one.
-/
namespace ScriptBlocks

theorem Table.entries_eq_nil {α : Type} {t : Table α} (h : ∀ x, t.get? x = none) :
    t.entries = [] := by
  have hkeys : t.keys = [] :=
    List.eq_nil_iff_forall_not_mem.2 fun x => (t.get?_eq_none_iff x).1 (h x)
  exact List.map_eq_nil_iff.1 hkeys

/-- Nothing has been compiled into a target. -/
structure Target.Untouched (t : Target) : Prop where
  blocks : t.blocks.entries = []
  vars : t.vars.entries = []
  functions : t.functions.entries = []
  entry : t.entry = none

theorem Target.Blank.untouched {t : Target} (h : t.Blank) : t.Untouched :=
  ⟨Table.entries_eq_nil h.blocks, Table.entries_eq_nil h.vars, Table.entries_eq_nil h.functions,
    h.entry⟩

theorem Target.Untouched.not_hasContent {t : Target} (h : t.Untouched) : t.hasContent = false := by
  simp [hasContent, Table.isEmpty, Table.keys, h.vars, h.blocks]

namespace Compilation

variable {c c' : Compilation}

/-! ### The name of the stage -/

theorem stage_name_of_current (honStage : c'.project.onStage = c.project.onStage)
    (hother : c'.project.other = c.project.other) (hname : c'.target.name = c.target.name) :
    c'.project.stage.name = c.project.stage.name := by
  simp only [Project.other, target, Project.current, honStage] at hother hname
  cases hs : c.project.onStage with
  | true => simpa [hs] using hname
  | false => simpa [hs] using congrArg Target.name hother

theorem NameStep.stage_name (h : NameStep c c') :
    c'.project.stage.name = c.project.stage.name := by
  have hset (c : Compilation) (t : Target) (ht : t.name = c.target.name) :
      (c.setTarget t).project.stage.name = c.project.stage.name := by
    have hrest := SameRest.setTarget c t
    refine stage_name_of_current hrest.onStage hrest.other ?_
    rw [target_setTarget, ht]
  cases h with
  | same h => exact stage_name_of_current h.onStage h.other h.name
  | declare x f h => exact hset c _ rfl
  | begin s hf hs => rfl
  | @complete c₁ s p hs h hp =>
    have hadd := hset c₁ (c₁.target.addFunction p) rfl
    exact hadd.trans (stage_name_of_current h.onStage h.other h.name)
  | switch hcontent hentry hf hf' hstage hsprite => rw [hstage]

theorem Reached.stage_name {source sprite : String} (h : Reached source sprite c) :
    c.project.stage.name = "Stage" := by
  have hstep {c c' : Compilation} (h : NameStep c c') (hc : c.project.stage.name = "Stage") :
      c'.project.stage.name = "Stage" := h.stage_name.trans hc
  exact h.nameSteps.preserve hstep rfl

/-! ### Directives -/

/-- Nothing that makes a directive come too late. -/
structure Early (c : Compilation) : Prop where
  content : c.target.hasContent = false
  entry : c.target.entry = none
  function : c.function = none
  depth : c.branchDepth = 0

theorem Early.not_inside (h : c.Early) : ¬ c.Inside := by
  rintro (hf | hd)
  · simp [h.function] at hf
  · simp [h.depth] at hd

theorem Early.of_untouched (h : c.target.Untouched) (hf : c.function = none)
    (hd : c.branchDepth = 0) : c.Early :=
  ⟨h.not_hasContent, h.entry, hf, hd⟩

end Compilation

namespace Emit

open Compilation

variable {c : Compilation} {name : Named}

theorem directive_late (h : ¬ c.Early) (name : Named) :
    directive name c = fail .lateDirective name.span c := by
  simp only [directive, bind_apply, get]
  rw [if_pos]
  by_contra hlate
  simp only [Bool.or_eq_true, not_or, Bool.not_eq_true, Option.isSome_eq_false_iff,
    Option.isNone_iff_eq_none, decide_eq_true_eq, Nat.not_lt, Nat.le_zero] at hlate
  obtain ⟨⟨⟨hcontent, hentry⟩, hf⟩, hd⟩ := hlate
  exact h ⟨hcontent, hentry, hf, hd⟩

theorem directive_early (h : c.Early) (name : Named) :
    directive name c =
      if name.name = "stage" then
        (some (), ({ c with project := (c.project.switchTo? "Stage").getD c.project }).log
          (.directed name.name))
      else if name.name = "ignore_errors" then
        (some (), (({ c with project := { c.project with ignoreErrors := true } }).report
          .errorsIgnored (some name.span)).log (.directed name.name))
      else fail (.unknownDirective name.name) name.span c := by
  have hlate : ¬ (c.target.hasContent || c.target.entry.isSome || c.function.isSome ||
      decide (0 < c.branchDepth)) = true := by
    simp [h.content, h.entry, h.function, h.depth]
  simp only [directive, bind_apply, get, if_neg hlate]
  split
  next => rfl
  next => split <;> rfl

end Emit

open Compilation

/-! ### Visits -/

namespace Visit

variable {u v : Visit} {c : Compilation}

/-- Whether the statement is the directive that makes the stage the target. -/
def directsStage (v : Visit) : Bool :=
  match v.statement with
  | .directive name _ => name.name = "stage"
  | _ => false

theorem exists_of_directsStage (h : v.directsStage = true) :
    ∃ name span, v.statement = .directive name span ∧ name.name = "stage" := by
  unfold directsStage at h
  split at h
  next name span hs => exact ⟨name, span, hs, of_decide_eq_true h⟩
  next => cases h

/-- Apart from the main script, nothing comes before a directive that is not too late. -/
theorem Placed.early_iff (h : v.Placed) (hs : Emit.needsEntry v.statement = false) :
    v.start.Early ↔
      v.state.target.Untouched ∧ v.state.function = none ∧ v.state.branchDepth = 0 := by
  constructor
  · intro hearly
    refine ⟨?_, hearly.function, hearly.depth⟩
    cases h with
    | inner hp hin =>
      have hin : v.start.Inside := hin.resolve_left (by simp [hs])
      exact absurd hin hearly.not_inside
    | between h _ => exact (h.between.blank hearly.content hearly.entry).1.untouched
  · rintro ⟨huntouched, hf, hd⟩
    exact .of_untouched huntouched hf hd

/-- The directive succeeds as long as nothing has been compiled, and only then the target changes. -/
theorem Placed.after_directsStage (h : v.Placed) (hv : v.directsStage = true)
    (hname : v.state.project.stage.name = "Stage") :
    (v.abandoned = false ↔
      v.state.target.Untouched ∧ v.state.function = none ∧ v.state.branchDepth = 0) ∧
    v.after.project.onStage = (!v.abandoned || v.state.project.onStage) ∧
    v.after.project.stage = v.state.project.stage ∧
    v.after.project.sprite = v.state.project.sprite := by
  obtain ⟨name, span, hs, hstage⟩ := exists_of_directsStage hv
  have hneeds : Emit.needsEntry v.statement = false := by rw [hs, Emit.needsEntry]
  rw [← h.early_iff hneeds]
  have hhandled : v.handled = Emit.directive name v.start := by rw [handled, hs, Emit.statement]
  have hproject : v.after.project = (Emit.directive name v.start).2.project := by
    rw [← hhandled]
    rfl
  have habandoned : v.abandoned = (Emit.directive name v.start).1.isNone := by
    rw [← hhandled]
    rfl
  rw [hproject, habandoned]
  by_cases hearly : v.start.Early
  · have hswitch : v.start.project.switchTo? "Stage" =
        some ({ v.state.project with onStage := true }.log (.switched "Stage")) :=
      if_pos hname
    rw [Emit.directive_early hearly, if_pos hstage, hswitch]
    exact ⟨⟨fun _ => hearly, fun _ => rfl⟩, rfl, rfl, rfl⟩
  · rw [Emit.directive_late hearly]
    exact ⟨iff_of_false Bool.false_ne_true.symm hearly, rfl, rfl, rfl⟩

/-- No other statement changes the target. -/
theorem Placed.onStage (h : v.Placed) (hv : v.directsStage = false) :
    v.after.project.onStage = v.state.project.onStage := by
  by_cases hs : v.InScript
  · exact (h.owner hs).2.1.onStage
  · cases h with
    | inner _ hin => exact absurd hin hs
    | between h hneeds =>
      have hb : Between _ v.start := h.between.of_eq rfl rfl rfl
      suffices hsame : v.handled.2.project.onStage = v.start.project.onStage from hsame
      obtain ⟨s, c⟩ := v
      cases s with
      | function name params body span =>
        simp only [handled, Emit.statement]
        obtain ⟨c', hrun, -, hrest, -⟩ | ⟨p, c', hrun, hdefines⟩ :=
          Emit.function_defines hb.function hb.depth hb.good hb.sound hb.exists_head name params body
        · rw [hrun]
          exact hrest.onStage
        · rw [hrun]
          exact hdefines.rest.onStage
      | directive name span =>
        have hstage : name.name ≠ "stage" := of_decide_eq_false hv
        simp only [handled, Emit.statement]
        by_cases hearly : Early (start ⟨.directive name span, c⟩)
        · rw [Emit.directive_early hearly, if_neg hstage]
          split <;> rfl
        · rw [Emit.directive_late hearly]
          rfl
      | comment text span => exact (SameRest.setTarget _ _).onStage
      | _ => cases hneeds

/-! ### The other target -/

theorem program_blank {ids : List String} (h : c.Assembled ids) (statements : List Statement) :
    ∀ u ∈ program statements c, u.state.project.other.Blank ∧ u.after.project.other.Blank := by
  induction statements generalizing c ids with
  | nil => simp [program]
  | cons s rest ih =>
    rw [program, List.forall_mem_cons]
    obtain ⟨ids', h'⟩ := Emit.visit_assembled h s
    refine ⟨⟨?_, h'.between.other⟩, ih h'⟩
    simp only
    split
    · rw [(SameRest.setTarget c _).other]
      exact h.between.other
    · exact h.between.other

/-- What is blank at the top of a program is blank everywhere below. -/
theorem Placed.blank_of_mem_all (hu : u.Placed) (hstate : u.state.project.other.Blank)
    (hafter : u.after.project.other.Blank) (hv : v ∈ u.all) (hc : v.Passes c) :
    c.project.other.Blank := by
  by_cases hs : u.InScript
  · rw [(hu.all_owner hs v hv c hc).other]
    exact hstate
  · -- Only a function has statements of its own outside of scripts.
    have hbodies (hin : u.InBodies c) : c.project.other.Blank := by
      obtain ⟨s, c₀⟩ := u
      cases s with
      | function name params body span =>
        rw [(hu.function_owner rfl hin).2.1]
        exact hstate
      | directive | comment => simp [InBodies, entries, Visit.children] at hin
      | _ => exact absurd (.inl rfl) hs
    obtain rfl | ⟨w, hw, hvw⟩ := mem_all.1 hv
    · cases hc with
      | state | start => exact hstate
      | handled | after => exact hafter
      | entry hc => exact hbodies (.inl hc)
      | evaluation hw => exact (evaluations_names hw).other ▸ hstate
      | result hw =>
        exact ((evaluations_names hw).trans (Evaluation.result_names _)).other ▸ hstate
      | filled hw =>
        exact ((evaluations_names hw).trans (Evaluation.filled_names _)).other ▸ hstate
    · exact hbodies (.inr ⟨w, hw, v, hvw, hc⟩)

end Visit

theorem Compilation.Reached.blank {source sprite : String} {c : Compilation}
    (h : Reached source sprite c) : c.project.other.Blank := by
  have hnew : Assembled [] { project := .new sprite } := .new sprite
  cases h with
  | initial => exact hnew.between.other
  | visit hv hc =>
    unfold Visit.ofSource at hv
    split at hv
    next p hp =>
      obtain ⟨u, hu, hvu⟩ := List.mem_flatMap.1 hv
      obtain ⟨hstate, hafter⟩ := Visit.program_blank hnew p.statements u hu
      exact (Visit.program_placed hnew _ u hu).blank_of_mem_all hstate hafter hvu hc
    next => cases hv
  | final hp =>
    obtain ⟨ids, h, -⟩ := Emit.program_assembled hnew _
    exact h.between.other

/-- All code goes to one target. After a compilation, and at every point of it, the other target has no
blocks, no variables, no functions and no entry. The current target is changed by no statement but
the directive for the stage, wherever it stands. That directive succeeds exactly if nothing has been
compiled into the current target, outside of all bodies, and then the stage is the target. -/
theorem compile_one_target (source sprite : String) :
    (compile source sprite).other.Untouched ∧
    (∀ c, Reached source sprite c → c.project.other.Untouched) ∧
    ∀ v ∈ Visit.ofSource source sprite,
      (v.directsStage = false → v.after.project.onStage = v.state.project.onStage) ∧
      (v.directsStage = true →
        (v.abandoned = false ↔
          v.state.target.Untouched ∧ v.state.function = none ∧ v.state.branchDepth = 0) ∧
        v.after.project.onStage = (!v.abandoned || v.state.project.onStage) ∧
        v.after.project.stage = v.state.project.stage ∧
        v.after.project.sprite = v.state.project.sprite) := by
  refine ⟨?_, fun c hc => hc.blank.untouched, fun v hv => ?_⟩
  · have hinitial : Reached source sprite { project := .new sprite } := .initial
    simp only [compile, Project.compile]
    split
    next p hp =>
      have hfinal : Reached source sprite (Emit.program p.statements { project := .new sprite }) :=
        .final hp
      exact hfinal.blank.untouched
    next => exact hinitial.blank.untouched
  · have hplaced := Visit.placed_of_mem_ofSource hv
    have hstate : Reached source sprite v.state := .visit hv .state
    exact ⟨hplaced.onStage, fun hdirects => hplaced.after_directsStage hdirects hstate.stage_name⟩

/-- Of three directives for the stage only the first, before all code, takes effect. -/
theorem compile_one_target_directives :
    let source := "@stage\nlet x = 1\n@stage\nif x == 1 \x7b @stage \x7d"
    ((compile source "Stage").other.Untouched ∧ (compile source "Stage").onStage = true ∧
      (compile source "Stage").current.hasContent = true) ∧
    (∃ c, Reached source "Stage" c ∧ 0 < c.branchDepth ∧ c.project.other.Untouched) ∧
    (∃ v ∈ Visit.ofSource source "Stage", v.directsStage = true ∧ v.abandoned = false ∧
      v.state.target.Untouched ∧ v.after.project.onStage = true) ∧
    (∃ v ∈ Visit.ofSource source "Stage", v.directsStage = true ∧ v.abandoned = true ∧
      v.after.project.onStage = v.state.project.onStage) ∧
    ∃ v ∈ Visit.ofSource source "Stage", v.directsStage = false ∧
      v.after.project.onStage = v.state.project.onStage := by
  intro source
  obtain ⟨hend, hreached, hvisits⟩ := compile_one_target source "Stage"
  refine ⟨⟨hend, by decide +kernel, by decide +kernel⟩, ?_, ?_, ?_, ?_⟩
  · obtain ⟨v, hv, hdepth⟩ : ∃ v ∈ Visit.ofSource source "Stage", 0 < v.state.branchDepth := by
      decide +kernel
    have hstate : Reached source "Stage" v.state := .visit hv .state
    exact ⟨v.state, hstate, hdepth, hreached _ hstate⟩
  · obtain ⟨v, hv, hdirects, hdone⟩ : ∃ v ∈ Visit.ofSource source "Stage",
        v.directsStage = true ∧ v.abandoned = false := by
      decide +kernel
    obtain ⟨hiff, honStage, -⟩ := (hvisits v hv).2 hdirects
    rw [hdone] at honStage
    exact ⟨v, hv, hdirects, hdone, (hiff.1 hdone).1, honStage⟩
  · obtain ⟨v, hv, hdirects, hgiven⟩ : ∃ v ∈ Visit.ofSource source "Stage",
        v.directsStage = true ∧ v.abandoned = true := by
      decide +kernel
    obtain ⟨-, honStage, -⟩ := (hvisits v hv).2 hdirects
    rw [hgiven] at honStage
    exact ⟨v, hv, hdirects, hgiven, honStage⟩
  · obtain ⟨v, hv, hother⟩ : ∃ v ∈ Visit.ofSource source "Stage", v.directsStage = false := by
      decide +kernel
    exact ⟨v, hv, hother, (hvisits v hv).1 hother⟩

end ScriptBlocks
