import ScriptBlocks.Project.Json
import ScriptBlocks.Proofs.Errors
import ScriptBlocks.Proofs.Stage

/-!
# Packaging

A project is refused for its errors unless they are waived. It does not look at its diagnostics for
this, but keeps two flags beside them: whether there has been an error, and whether errors are
ignored. `Accords` says that the flags have changed as the reports demand. Every step keeps to this,
so that in the end the flags can be read off the diagnostics.
-/
namespace ScriptBlocks

/-- The report that errors do not count. -/
def Diagnostic.isWaiver (d : Diagnostic) : Bool :=
  d.code = Problem.errorsIgnored.code

theorem Diagnostic.isWaiver_iff {d : Diagnostic} : d.isWaiver = true ↔ d.code = "W24" :=
  decide_eq_true_iff

theorem Diagnostic.isWaiver_ofProblem (problem : Problem) (span : Option Span) :
    (Diagnostic.ofProblem problem span).isWaiver = decide (problem = .errorsIgnored) := by
  simp only [isWaiver, code_ofProblem]
  cases problem <;> simp [Problem.code]

namespace Compilation

variable {c c' c'' : Compilation} {ds ds' : List Diagnostic} {W : Prop}

/-- What has been reported between two states. The flags of the project have followed. -/
structure Records (ds : List Diagnostic) (c c' : Compilation) : Prop where
  diagnostics : c'.project.diagnostics = c.project.diagnostics ++ ds
  success : c'.project.success = (c.project.success && !ds.any Diagnostic.isError)
  ignoreErrors : c'.project.ignoreErrors = (c.project.ignoreErrors || ds.any Diagnostic.isWaiver)

namespace Records

theorem of_eq (hd : c'.project.diagnostics = c.project.diagnostics)
    (hs : c'.project.success = c.project.success)
    (hi : c'.project.ignoreErrors = c.project.ignoreErrors) : Records [] c c' :=
  ⟨by simp [hd], by simp [hs], by simp [hi]⟩

theorem trans (h : Records ds c c') (h' : Records ds' c' c'') : Records (ds ++ ds') c c'' where
  diagnostics := by rw [h'.diagnostics, h.diagnostics, List.append_assoc]
  success := by rw [h'.success, h.success, List.any_append, Bool.not_or, Bool.and_assoc]
  ignoreErrors := by rw [h'.ignoreErrors, h.ignoreErrors, List.any_append, Bool.or_assoc]

theorem setTarget (c : Compilation) (t : Target) : Records [] c (c.setTarget t) := by
  refine of_eq ?_ ?_ ?_
  all_goals
    simp only [Compilation.setTarget, Project.setCurrent]
    split <;> rfl

theorem setInference (c : Compilation) (i : Inference) : Records [] c (c.setInference i) := by
  obtain ⟨journal, hj⟩ := c.setInference_eq i
  have h := setTarget c i.target
  rw [hj]
  exact ⟨h.diagnostics, h.success, h.ignoreErrors⟩

/-- A report that is no waiver. -/
theorem report {problem : Problem} (h : problem ≠ .errorsIgnored) (c : Compilation)
    (span : Option Span) :
    Records [.ofProblem problem (span.or c.contexts.head?)] c (c.report problem span) where
  diagnostics := rfl
  success := by simp [Compilation.report, Project.report]
  ignoreErrors := by simp [Compilation.report, Project.report, Project.log,
    Diagnostic.isWaiver_ofProblem, h]

end Records

/-- The flags of the project accord with the reports between two states. There is a waiver among
these only if `W`. -/
def Accords (W : Prop) (c c' : Compilation) : Prop :=
  ∃ ds, Records ds c c' ∧ (ds.any Diagnostic.isWaiver = true → W)

namespace Accords

theorem of_records (h : Records [] c c') : Accords W c c' :=
  ⟨[], h, by simp⟩

theorem of_eq (hd : c'.project.diagnostics = c.project.diagnostics)
    (hs : c'.project.success = c.project.success)
    (hi : c'.project.ignoreErrors = c.project.ignoreErrors) : Accords W c c' :=
  of_records (.of_eq hd hs hi)

theorem refl (c : Compilation) : Accords W c c :=
  of_eq rfl rfl rfl

theorem trans (h : Accords W c c') (h' : Accords W c' c'') : Accords W c c'' := by
  obtain ⟨ds, hds, hW⟩ := h
  obtain ⟨ds', hds', hW'⟩ := h'
  refine ⟨ds ++ ds', hds.trans hds', fun h => ?_⟩
  rw [List.any_append, Bool.or_eq_true] at h
  exact h.elim hW hW'

theorem mono {W' : Prop} (h : Accords W c c') (hW : W → W') : Accords W' c c' := by
  obtain ⟨ds, hds, hd⟩ := h
  exact ⟨ds, hds, fun h => hW (hd h)⟩

theorem setTarget (c : Compilation) (t : Target) : Accords W c (c.setTarget t) :=
  of_records (.setTarget c t)

theorem report {problem : Problem} (h : problem ≠ .errorsIgnored) (c : Compilation)
    (span : Option Span) : Accords W c (c.report problem span) :=
  ⟨_, .report h c span, by simp [Diagnostic.isWaiver_ofProblem, h]⟩

end Accords
end Compilation

open Compilation

/-! ### Steps -/

/-- A step that waives nothing and keeps the flags in accord with its reports. -/
def Emit.Accordant {α : Type} (m : Emit α) : Prop :=
  ∀ c, Accords False c (m c).2

namespace Emit.Accordant

theorem follows : Follows (fun _ => True) (fun _ => True) (Accords False) where
  refl := .refl
  trans := .trans
  log _ _ := .of_eq rfl rfl rfl
  report c _ _ h _ _ := .report h c _
  graph _ := .setTarget _ _
  inference _ _ := .of_records (.setInference _ _)
  function _ _ := .of_eq rfl rfl rfl
  depth _ _ := .of_eq rfl rfl rfl

theorem law : StatementLaw (fun _ => True) (fun _ => True) Accordant where
  toLawAt := follows.law
  anyTarget _ _ := .setTarget _ _
  anyFunction _ _ := .of_eq rfl rfl rfl

theorem functionHead (name : Named) (params : List Named) :
    Accordant (Emit.functionHead name params) :=
  law.bind (law.functionSignature trivial fun _ _ => trivial) fun _ _ => .of_eq rfl rfl rfl

theorem functionTail (name : Named) (scope : Scope) : Accordant (Emit.functionTail name scope) := by
  refine law.bind law.get fun c => ?_
  split
  next => exact fun _ => .of_eq rfl rfl rfl
  next signature _ =>
    refine law.bind (fun _ => .of_eq rfl rfl rfl) fun _ => ?_
    exact law.bind (law.settleArguments trivial signature fun _ _ => trivial) fun _ =>
      law.bind (law.anyTarget _) fun _ => law.bind (law.log _) fun _ => law.modifyAny _

end Emit.Accordant

namespace Compilation.Accords

variable {W : Prop}

theorem of_accordant {α : Type} {m : Emit α} (h : Emit.Accordant m) (c : Compilation) :
    Accords W c (m c).2 :=
  (h c).mono False.elim

theorem glue : Visit.Glue (Accords W) where
  refl := refl
  trans := trans
  contexts _ _ := of_eq rfl rfl rfl
  enterBlock c := setTarget c _
  functionHead name params := of_accordant (.functionHead name params)
  closeFunction name c :=
    (setTarget c _).trans (of_accordant (.functionTail name _) _)
  branchHead condition hasElse :=
    of_accordant (Emit.Law.branchHead Emit.Accordant.law.toLawAt condition hasElse)
  closeBranch id slot c :=
    (setTarget c _).trans (of_accordant (Emit.Accordant.law.attachBranch id slot _) _)
  endBranches id c := by
    have hdepth : Accords W c { c with branchDepth := c.branchDepth - 1 } := of_eq rfl rfl rfl
    exact hdepth.trans (setTarget _ _)

end Compilation.Accords

/-! ### Visits -/

namespace Visit

variable {v : Visit}

/-- The directive to ignore errors is visited outside of functions and branches, while the current
target has neither content nor a main script. -/
def Waives (v : Visit) : Prop :=
  ∃ name span, v.statement = .directive name span ∧ name.name = "ignore_errors" ∧ v.state.Early

/-- The directive sets the flag together with its report, and it does so only in time. -/
theorem accords_directive {name : Named} {span : Span} (hs : v.statement = .directive name span) :
    Accords v.Waives v.start (Emit.directive name v.start).2 := by
  by_cases hearly : v.start.Early
  · rw [Emit.directive_early hearly]
    split
    next =>
      refine .of_eq ?_ ?_ ?_
      all_goals
        simp only [Compilation.log, Project.log, Project.switchTo?]
        split
        next => rfl
        next => split <;> rfl
    next =>
      split
      next hname =>
        have hwaives : v.Waives :=
          ⟨name, span, hs, hname, hearly.content, hearly.entry, hearly.function, hearly.depth⟩
        refine ⟨[.ofProblem .errorsIgnored (some name.span)], ⟨rfl, ?_, ?_⟩, fun _ => hwaives⟩
        · simp [Compilation.report, Project.report, Project.log, Compilation.log]
        · simp [Compilation.report, Project.report, Project.log, Compilation.log,
            Diagnostic.isWaiver_ofProblem]
      next => exact .report (by simp) _ _
  · rw [Emit.directive_late hearly]
    exact .report (by simp) _ _

theorem accords_of_not_hasBodies (hb : v.hasBodies = false) :
    Accords v.Waives v.state v.after := by
  have law : Emit.StatementLaw (fun _ => True) (fun _ => True) Emit.Accordant := Emit.Accordant.law
  have hexpr (e : Expr) : Emit.Part.Lawful (fun _ => True) Emit.Accordant (Emit.part e) :=
    law.ofExpr .trivial
  have hhandled : Accords v.Waives v.start v.handled.2 := by
    obtain ⟨s, c⟩ := v
    cases s with
    | declare named value span => exact .of_accordant (law.declare trivial (hexpr value)) _
    | assign named op opSpan value span =>
      exact .of_accordant (law.assign trivial trivial (hexpr value) op) _
    | yield value span => exact .of_accordant (law.yield trivial (hexpr value)) _
    | call name arguments span =>
      have harguments : Emit.Accordant (Emit.expressions arguments) :=
        law.expressions arguments fun _ _ => .trivial
      exact .of_accordant (law.callStatement harguments trivial (fun _ _ => trivial) trivial) _
    | directive name span => exact accords_directive rfl
    | comment text span => exact .of_accordant (law.comment text) _
    | function | branch => cases hb
  exact (Accords.glue.contexts _ _).trans (hhandled.trans (Accords.glue.contexts _ _))

/-- A waiver is reported. -/
theorem Waives.reported (h : v.Waives) :
    ∃ d ∈ v.after.project.diagnostics, d.isWaiver = true := by
  obtain ⟨name, span, hs, hname, hearly⟩ := h
  have hearly : v.start.Early := ⟨hearly.content, hearly.entry, hearly.function, hearly.depth⟩
  have hafter : v.after.project = (Emit.directive name v.start).2.project := by
    rw [after, result, hs, Emit.statement, Emit.inContext, start, hs]
  have hstage : name.name ≠ "stage" := by simp [hname]
  refine ⟨.ofProblem .errorsIgnored (some name.span), ?_,
    by simp [Diagnostic.isWaiver_ofProblem]⟩
  rw [hafter, Emit.directive_early hearly, if_neg hstage, if_pos hname]
  exact List.mem_append_right _ (List.mem_singleton_self _)

end Visit

/-! ### Projects -/

/-- The flags of a project are what its diagnostics say. -/
structure Project.Accordant (p : Project) : Prop where
  success : p.success = !p.diagnostics.any Diagnostic.isError
  ignoreErrors : p.ignoreErrors = p.diagnostics.any Diagnostic.isWaiver

theorem Compilation.Records.accordant {c : Compilation} {ds : List Diagnostic} {sprite : String}
    (h : Records ds { project := .new sprite } c) : c.project.Accordant := by
  have hd : c.project.diagnostics = ds := h.diagnostics
  refine ⟨?_, ?_⟩
  · rw [hd, h.success]
    rfl
  · rw [hd, h.ignoreErrors]
    rfl

/-- The flags after a run, and the waivers among the reports: there is one exactly if a visit waives
errors. -/
theorem Program.run_accordant (statements : List Statement) (sprite : String) :
    (Emit.program statements { project := .new sprite }).project.Accordant ∧
    ((Emit.program statements { project := .new sprite }).project.diagnostics.any
        Diagnostic.isWaiver = true ↔
      ∃ v ∈ (Visit.program statements { project := .new sprite }).flatMap Visit.all, v.Waives) := by
  let visits := (Visit.program statements { project := .new sprite }).flatMap Visit.all
  have hglue : Visit.Glue (Accords (∃ v ∈ visits, v.Waives)) := Accords.glue
  obtain ⟨⟨ds, hds, hwaived⟩, hvisits⟩ := hglue.program (fun c => .setTarget c _)
    fun w hw hb => (Visit.accords_of_not_hasBodies hb).mono fun h => ⟨w, hw, h⟩
  have hd : (Emit.program statements { project := .new sprite }).project.diagnostics = ds :=
    hds.diagnostics
  refine ⟨hds.accordant, ?_, ?_⟩
  · rw [hd]
    exact hwaived
  · rintro ⟨v, hv, h⟩
    obtain ⟨d, hmem, hd⟩ := h.reported
    obtain ⟨-, -, es, hes, -⟩ := hvisits v hv
    rw [hes.diagnostics]
    exact List.any_eq_true.2 ⟨d, List.mem_append_left _ hmem, hd⟩

theorem compile_accordant (source sprite : String) :
    (compile source sprite).Accordant ∧
    ((compile source sprite).diagnostics.any Diagnostic.isWaiver = true ↔
      ∃ v ∈ Visit.ofSource source sprite, v.Waives) := by
  simp only [compile, Project.compile, Visit.ofSource]
  cases Program.ofSource source with
  | ok program => exact Program.run_accordant program.statements sprite
  | error e =>
    have hproblem : Problem.malformedSource e.message ≠ .errorsIgnored := by simp
    have hreport := Records.report hproblem { project := .new sprite } (some e.span)
    refine ⟨hreport.accordant, ?_⟩
    simp [Project.report, Project.new, Diagnostic.isWaiver_ofProblem]

/-- Packaging is refused exactly for errors that are not waived, and the refusal has all the
diagnostics. A project counts as a success exactly if none of them is an error, and errors are waived
exactly if the directive for it is visited in time. -/
theorem compile_refused_iff (source sprite : String) :
    (∀ refusal, (compile source sprite).package = .error refusal ↔
      refusal.diagnostics = (compile source sprite).diagnostics ∧
        (∃ d ∈ (compile source sprite).diagnostics, d.isError = true) ∧
        ∀ d ∈ (compile source sprite).diagnostics, d.code ≠ "W24") ∧
    ((compile source sprite).success = true ↔
      ∀ d ∈ (compile source sprite).diagnostics, d.isError = false) ∧
    ((∃ d ∈ (compile source sprite).diagnostics, d.code = "W24") ↔
      ∃ v ∈ Visit.ofSource source sprite, v.Waives) := by
  obtain ⟨haccordant, hwaived⟩ := compile_accordant source sprite
  generalize compile source sprite = p at haccordant hwaived
  have hcode : p.diagnostics.any Diagnostic.isWaiver = true ↔
      ∃ d ∈ p.diagnostics, d.code = "W24" := by
    simp only [List.any_eq_true, Diagnostic.isWaiver_iff]
  refine ⟨fun refusal => ?_, ?_, hcode.symm.trans hwaived⟩
  · have hpackage : p.canPackage = false ↔
        (∃ d ∈ p.diagnostics, d.isError = true) ∧ ∀ d ∈ p.diagnostics, d.code ≠ "W24" := by
      rw [Project.canPackage, haccordant.success, haccordant.ignoreErrors, Bool.or_eq_false_iff,
        Bool.not_eq_false', List.any_eq_true, ← Bool.not_eq_true, hcode]
      simp only [not_exists, not_and, ne_eq]
    obtain ⟨ds⟩ := refusal
    rw [← hpackage, Project.package]
    cases p.canPackage <;> simp [eq_comm]
  · simp [haccordant.success]

/-- A waiver counts for errors before it too, as long as nothing has been compiled. -/
example : (compile "x = 1" "Sprite1").canPackage = false ∧
    (compile "@wrong\n@ignore_errors\nx = 1" "Sprite1").canPackage = true := by
  decide +kernel

end ScriptBlocks
