import ScriptBlocks.Proofs.Laws
import ScriptBlocks.Proofs.Visits

/-!
# Errors

A step of compilation that gives up has reported exactly one error, and a step that gives a value
has reported none. This is carried from the smallest steps to statements, so that the errors of a
project are counted by the statements whose compilation was given up.
-/
namespace ScriptBlocks

variable {params : List Named} {otherwise : Alternative} {span : Span}
variable {problem : Problem} {v : Visit} {body : List Statement}

/-- The errors among what has been reported. -/
def Project.errors (p : Project) : List Diagnostic :=
  p.diagnostics.filter Diagnostic.isError

theorem Diagnostic.code_ofProblem (problem : Problem) (span : Option Span) :
    (Diagnostic.ofProblem problem span).code = problem.code := by
  simp only [ofProblem, ofCode]
  split <;> rfl

theorem Diagnostic.isError_ofProblem (problem : Problem) (span : Option Span) :
    (Diagnostic.ofProblem problem span).isError = !problem.isWarning := by
  simp only [isError, severity, code_ofProblem]
  cases problem <;> simp [Problem.isWarning, Problem.code, severityOf]

theorem Problem.code_ne_missingOperand (h : problem ≠ .missingOperand) :
    problem.code ≠ Problem.missingOperand.code := by
  cases problem <;> simp_all [code]

theorem Problem.isWarning_of_isAdvice (h : problem.isAdvice = true) : problem.isWarning = true :=
  (Bool.and_eq_true_iff.1 h).1

theorem Problem.isFault_iff :
    problem.isFault = true ↔ problem.isWarning = false ∧ problem ≠ .missingOperand := by
  simp [isFault]

namespace Compilation

variable {c c' c'' : Compilation} {es es' : List Diagnostic}

theorem diagnostics_setTarget (c : Compilation) (t : Target) :
    (c.setTarget t).project.diagnostics = c.project.diagnostics := by
  simp only [setTarget, Project.setCurrent]
  split <;> rfl

/-- Between two states these errors have been reported, besides warnings. None of the reports is
about an operand that failed without a report of its own. -/
def Reports (es : List Diagnostic) (c c' : Compilation) : Prop :=
  ∃ ds, c'.project.diagnostics = c.project.diagnostics ++ ds ∧ ds.filter Diagnostic.isError = es ∧
    ∀ d ∈ ds, d.code ≠ Problem.missingOperand.code

namespace Reports

theorem ofEq (h : c'.project.diagnostics = c.project.diagnostics) : Reports [] c c' :=
  ⟨[], by simp [h], rfl, by simp⟩

theorem trans (h : Reports es c c') (h' : Reports es' c' c'') : Reports (es ++ es') c c'' := by
  obtain ⟨ds, hds, hes, hcode⟩ := h
  obtain ⟨ds', hds', hes', hcode'⟩ := h'
  refine ⟨ds ++ ds', by rw [hds', hds, List.append_assoc], by rw [List.filter_append, hes, hes'], ?_⟩
  intro d hd
  exact (List.mem_append.1 hd).elim (hcode d) (hcode' d)

theorem errors_eq (h : Reports es c c') : c'.project.errors = c.project.errors ++ es := by
  obtain ⟨ds, hds, hes, -⟩ := h
  simp only [Project.errors, hds, List.filter_append, hes]

theorem setTarget (c : Compilation) (t : Target) : Reports [] c (c.setTarget t) :=
  ofEq (diagnostics_setTarget c t)

theorem onto (h : Reports es c c') (t : Target) : Reports es c (c'.setTarget t) := by
  simpa using h.trans (setTarget c' t)

theorem enter {t : Target} (h : Reports es (c.setTarget t) c') : Reports es c c' :=
  (setTarget c t).trans h

theorem log (h : Reports es c c') (event : Event) : Reports es c (c'.log event) := h

theorem setInference (c : Compilation) (i : Inference) : Reports [] c (c.setInference i) := by
  obtain ⟨journal, hj⟩ := c.setInference_eq i
  have h := setTarget c i.target
  rw [hj]
  exact h

theorem report (h : problem ≠ .missingOperand) (c : Compilation) (span : Option Span) :
    Reports (if problem.isWarning then [] else [.ofProblem problem (span.or c.contexts.head?)]) c
      (c.report problem span) := by
  refine ⟨[.ofProblem problem (span.or c.contexts.head?)], rfl, ?_, ?_⟩
  · cases hw : problem.isWarning <;> simp [Diagnostic.isError_ofProblem, hw]
  · intro d hd
    rw [List.mem_singleton.1 hd, Diagnostic.code_ofProblem]
    exact Problem.code_ne_missingOperand h

end Reports

end Compilation

/-- One error has been reported if there is no value, and none otherwise. No function has been started
or ended. -/
structure Emit.Candidly (c : Compilation) (r : Option α × Compilation) : Prop where
  errors : ∃ es, Compilation.Reports es c r.2 ∧ es.length = if r.1.isSome then 0 else 1
  function : r.2.function.isSome = c.function.isSome

/-- A step reports no error when it gives a value and one error when it gives up. -/
def Emit.Candid (m : Emit α) : Prop :=
  ∀ c, Candidly c (m c)

namespace Emit

open Compilation

variable {α β : Type} {m : Emit α} {f : α → Emit β} {c c' : Compilation} {a : α}

namespace Candidly

theorem silent (h : Reports [] c c') (hf : c'.function.isSome = c.function.isSome) :
    Candidly c (some a, c') :=
  ⟨⟨[], h, rfl⟩, hf⟩

theorem value (h : Candidly c (some a, c')) : Reports [] c c' := by
  obtain ⟨es, hes, hlength⟩ := h.errors
  obtain rfl := List.length_eq_zero_iff.1 hlength
  exact hes

theorem once (h : Candidly c ((none, c') : Option α × Compilation)) : ∃ d, Reports [d] c c' := by
  obtain ⟨es, hes, hlength⟩ := h.errors
  obtain ⟨d, rfl⟩ := List.length_eq_one_iff.1 hlength
  exact ⟨d, hes⟩

theorem trans {r : Option β × Compilation} (h : Candidly c (some a, c')) (h' : Candidly c' r) :
    Candidly c r := by
  obtain ⟨es, hes, hlength⟩ := h'.errors
  exact ⟨⟨es, h.value.trans hes, hlength⟩, h'.function.trans h.function⟩

end Candidly

theorem setInference_function (c : Compilation) (i : Inference) :
    (c.setInference i).function = i.function := by
  obtain ⟨journal, hj⟩ := c.setInference_eq i
  rw [hj]

namespace Candid

theorem bind (hm : Candid m) (hf : ∀ a, Candid (f a)) : Candid (m >>= f) := by
  intro c
  have h := hm c
  rw [bind_apply]
  cases hc : m c with
  | mk r c' =>
    rw [hc] at h
    cases r with
    | none => exact ⟨h.errors, h.function⟩
    | some a => exact h.trans (hf a c')

theorem onTarget (g : Target → α × Target) : Candid (Emit.onTarget g) :=
  fun c => .silent (.setTarget c _) rfl

theorem modifyFunction (g : Signature → Signature) :
    Candid (Emit.modify fun c => { c with function := c.function.map g }) :=
  fun _ => .silent (.ofEq rfl) Option.isSome_map

theorem warn (h : problem.isWarning = true) (span : Span) : Candid (Emit.report problem span) := by
  intro c
  have hm : problem ≠ .missingOperand := by
    rintro rfl
    cases h
  have hr := Reports.report hm c (some span)
  rw [if_pos h] at hr
  exact .silent hr rfl

theorem fail (h : problem.isFault = true) (span : Span) :
    Candid (Emit.fail problem span : Emit α) := by
  intro c
  obtain ⟨hw, hm⟩ := Problem.isFault_iff.1 h
  have hr := Reports.report hm c (some span)
  rw [hw] at hr
  exact ⟨⟨_, hr, rfl⟩, rfl⟩

theorem within (hm : Candid m) (scope : Scope) : Candid (Emit.within scope m) := by
  intro c
  obtain ⟨⟨es, hes, hlength⟩, hf⟩ := hm (c.setTarget (c.target.enter scope))
  exact ⟨⟨es, hes.enter.onto _, hlength⟩, hf⟩

theorem assertType (type : ValueType) (operands : List Operand) :
    Candid (Emit.assertType type operands) := by
  intro c
  refine .silent (.setInference c _) ?_
  rw [setInference_function]
  exact Inference.isSome_of_outline (c.inference.outline_assert type operands)

theorem hintType (type : ValueType) (operands : List Operand) :
    Candid (Emit.hintType type operands) := by
  intro c
  refine .silent (.setInference c _) ?_
  rw [setInference_function]
  exact Inference.isSome_of_outline (c.inference.outline_hint type operands)

/-- What fails as an operand has reported why, so that nothing is added. -/
theorem operand {m : Emit Operand} (hm : Candid m) (span : Span) :
    Candid (Emit.operand span m) := by
  intro c
  have h := hm c
  simp only [Emit.operand]
  cases hc : m c with
  | mk r c₁ =>
    rw [hc] at h
    cases r with
    | some a => exact h.trans (.silent (.setTarget c₁ _) rfl)
    | none =>
      obtain ⟨d, ds, hds, hes, -⟩ := h.once
      have hne : c₁.project.diagnostics.length ≠ c.project.diagnostics.length := by
        have hpos : 0 < ds.length := List.length_pos_iff_exists_mem.2
          ⟨d, (List.mem_filter.1 (hes ▸ List.mem_singleton_self d)).1⟩
        rw [hds, List.length_append]
        omega
      simp only [if_neg hne]
      exact h

theorem law : Emit.Law Candid where
  pure _ _ := .silent (.ofEq rfl) rfl
  bind := bind
  get _ := .silent (.ofEq rfl) rfl
  target _ := .silent (.ofEq rfl) rfl
  log _ _ := .silent (.ofEq rfl) rfl
  warn h _ _ _ := warn (Problem.isWarning_of_isAdvice h) _
  fail h _ _ _ := fail h _
  expectedType _ _ := .silent (.ofEq rfl) rfl
  assertType := assertType
  hintType := hintType
  onGraph _ := onTarget _
  track _ _ := modifyFunction _
  trackCopies copies c := by
    have h := congrArg Option.isSome (trackCopies_function copies c).1
    rw [Option.isSome_map, Option.isSome_map] at h
    exact .silent (.ofEq rfl) h
  depth _ _ := .silent (.ofEq rfl) rfl
  within := within
  operand h _ _ := operand h _

theorem directiveLaw : Emit.DirectiveLaw (fun _ => True) (fun _ => True) Candid where
  toLawAt := law
  anyTarget := onTarget
  anyFunction _ := modifyFunction _
  project h _ := .silent (.ofEq (h _)) rfl
  waive _ := warn rfl _

end Candid

/-! ### Statements with bodies -/

/-- Functions do not nest. -/
theorem functionSignature_function {name : Named} {signature : Signature}
    (h : functionSignature name params c = (some signature, c')) : c.function = none := by
  cases hf : c.function with
  | none => rfl
  | some _ =>
    have hs : ((c.log (.defining name.name)).function.isSome ||
        decide (0 < (c.log (.defining name.name)).branchDepth)) = true := by
      simp [Compilation.log, hf]
    simp only [functionSignature, bind_apply, log, modify, get, if_pos hs] at h
    cases h

theorem settleArguments_eq (signature : Signature) (span : Span) (names : List String)
    (c : Compilation) :
    ∃ settled c', settleArguments signature span names c = (some settled, c') := by
  induction names generalizing signature c with
  | nil => exact ⟨signature, c, rfl⟩
  | cons argument rest ih =>
    rw [settleArguments_cons]
    simp only
    split
    next => exact ih _ _
    next => exact ih _ _

/-- The end of a function always succeeds. -/
theorem finishFunction_reports (name : Named) (signature : Signature) (scope : Scope)
    (c : Compilation) :
    ∃ c', finishFunction name signature scope c = (some (), c') ∧ Reports [] c c' ∧
      c'.function.isSome = c.function.isSome := by
  obtain ⟨settled, c', hsettle⟩ := settleArguments_eq signature name.span
    signature.unresolvedArguments c
  have hcandid := Candid.law.settleArguments signature name.span signature.unresolvedArguments c
  rw [hsettle] at hcandid
  simp only [finishFunction, bind_apply, hsettle, onTarget, log, modify, modifyTarget]
  exact ⟨_, rfl, ((hcandid.value.onto _).log _).onto _, hcandid.function⟩

theorem closeFunction_reports (name : Named) (h : c.function.isSome) :
    ∃ c', closeFunction name c = (some (), c') ∧ Reports [] c c' ∧ c'.function = none := by
  obtain ⟨signature, hs⟩ := Option.isSome_iff_exists.1 h
  obtain ⟨c', hc', hr, hf⟩ := finishFunction_reports name signature
    (c.target.exit.1.getD (.after none)) { c.setTarget c.target.exit.2 with function := none }
  refine ⟨c', (closeFunction_some hs name).trans hc', (Reports.setTarget c _).trans hr, ?_⟩
  simpa using hf

theorem closeBranch_reports (id slot : String) (c : Compilation) :
    Reports [] c (closeBranch id slot c) :=
  (Reports.setTarget c _).onto _

theorem endBranches_reports (id : String) (c : Compilation) : Reports [] c (endBranches id c) :=
  Reports.setTarget { c with branchDepth := c.branchDepth - 1 } _

end Emit

namespace Visit

open Compilation

/-- The errors that a visit reports. -/
def errors (v : Visit) : List Diagnostic :=
  v.after.project.errors.drop v.state.project.errors.length

theorem errors_of_reports {es : List Diagnostic} (h : Reports es v.state v.after) :
    v.errors = es := by
  rw [errors, h.errors_eq, List.drop_left]

/-- The errors of a visit are one of its own when it is abandoned, and then no statement of its
bodies has been visited; otherwise they are those of its bodies. -/
structure Accounted (v : Visit) : Prop where
  function : v.after.function.isSome = v.state.function.isSome
  once : v.abandoned = true → v.children = [] ∧ ∃ d, Reports [d] v.state v.after
  bodies : v.abandoned = false → Reports (v.children.flatMap errors) v.state v.after

theorem Accounted.reports (h : Accounted v) : Reports v.errors v.state v.after := by
  cases ha : v.abandoned with
  | false =>
    rw [errors_of_reports (h.bodies ha)]
    exact h.bodies ha
  | true =>
    obtain ⟨-, d, hd⟩ := h.once ha
    rw [errors_of_reports hd]
    exact hd

/-- The handler of a statement decides how its visit is accounted for. -/
theorem accounted_of_handler {r : Option Unit} {c : Compilation}
    (hm : Emit.statement v.statement v.start = (r, c))
    (hf : c.function.isSome = v.start.function.isSome)
    (hn : r = none → v.children = [] ∧ ∃ d, Reports [d] v.start c)
    (hs : r = some () → Reports (v.children.flatMap errors) v.start c) : Accounted v := by
  have hresult : v.result = (r, { c with contexts := c.contexts.tail }) := by
    simp only [start] at hm
    simp only [result, Emit.inContext, hm]
  have hafter : v.after = { c with contexts := c.contexts.tail } := by rw [after, hresult]
  refine ⟨?_, fun ha => ?_, fun ha => ?_⟩
  · rw [hafter]
    exact hf
  · cases r with
    | some a => simp [abandoned, hresult] at ha
    | none =>
      rw [hafter]
      exact hn rfl
  · cases r with
    | none => simp [abandoned, hresult] at ha
    | some a =>
      rw [hafter]
      exact hs rfl

/-- A statement without bodies. -/
theorem accounted_of_candid (h : Emit.Candid (Emit.statement v.statement)) (hc : v.children = []) :
    Accounted v := by
  have h := h v.start
  cases hm : Emit.statement v.statement v.start with
  | mk r c =>
    rw [hm] at h
    refine accounted_of_handler hm h.function (fun hr => ⟨hc, ?_⟩) fun hr => ?_
    · subst hr
      exact h.once
    · subst hr
      rw [hc]
      exact h.value

theorem sequence_reports {c : Compilation} (h : ∀ w ∈ sequence body c, Accounted w) :
    Reports ((sequence body c).flatMap errors) c (Emit.statements body c) ∧
      (Emit.statements body c).function.isSome = c.function.isSome := by
  induction body generalizing c with
  | nil => exact ⟨.ofEq rfl, rfl⟩
  | cons s rest ih =>
    obtain ⟨hs, hrest⟩ := List.forall_mem_cons.1 h
    obtain ⟨hr, hf⟩ := ih hrest
    exact ⟨hs.reports.trans hr, hf.trans hs.function⟩

theorem alternative_reports {run : Compilation → Compilation} {c : Compilation}
    (hrun : Emit.alternative otherwise = some run)
    (h : ∀ w ∈ ofAlternative otherwise c, Accounted w) :
    Reports ((ofAlternative otherwise c).flatMap errors) c (run c) ∧
      (run c).function.isSome = c.function.isSome := by
  cases otherwise with
  | none => simp [Emit.alternative] at hrun
  | block body =>
    simp only [Emit.alternative] at hrun
    cases hrun
    exact sequence_reports h
  | branch condition body otherwise span =>
    rw [alternative_branch] at hrun
    cases hrun
    have hv := h _ (List.mem_singleton_self _)
    simp only [ofAlternative, List.flatMap_cons, List.flatMap_nil, List.append_nil]
    exact ⟨hv.reports, hv.function⟩

theorem accounted_function {name : Named} {c : Compilation}
    (ih : ∀ w ∈ children ⟨.function name params body span, c⟩, Accounted w) :
    Accounted ⟨.function name params body span, c⟩ := by
  let v : Visit := ⟨.function name params body span, c⟩
  have hcandid := Emit.Candid.law.functionSignature name params v.start
  cases hs : Emit.functionSignature name params v.start with
  | mk r c₁ =>
    rw [hs] at hcandid
    have hkeep := hcandid.function
    cases r with
    | none =>
      have hhead : Emit.functionHead name params v.start = (none, c₁) := by
        rw [Emit.functionHead, Emit.bind_apply, hs]
      have hchildren : v.children = [] := by
        simp only [v, children]
        rw [hhead]
      have hm : Emit.statement v.statement v.start = (none, c₁) := by
        simp only [v, Emit.statement]
        rw [Emit.function_apply, hhead]
      exact accounted_of_handler hm hkeep (fun _ => ⟨hchildren, hcandid.once⟩) (by simp)
    | some signature =>
      let c₂ : Compilation := { c₁ with function := some signature }
      have hhead : Emit.functionHead name params v.start = (some (), c₂) := by
        rw [Emit.functionHead, Emit.bind_apply, hs]
        rfl
      have hchildren : v.children = sequence body (Emit.enterBlock c₂) := by
        simp only [v, children]
        rw [hhead]
      obtain ⟨hbody, hfunction⟩ := sequence_reports (hchildren ▸ ih)
      obtain ⟨c₃, hclose, hend, hnone⟩ := Emit.closeFunction_reports name hfunction
      have hm : Emit.statement v.statement v.start = (some (), c₃) := by
        simp only [v, Emit.statement]
        rw [Emit.function_apply, hhead]
        exact hclose
      refine accounted_of_handler hm ?_ (by simp) fun _ => ?_
      · rw [hnone, Emit.functionSignature_function hs]
      · rw [hchildren]
        have hstart : Reports [] v.start c₁ := hcandid.value
        have hrun := hbody.enter.trans hend
        rw [List.append_nil] at hrun
        exact hstart.trans hrun

theorem accounted_branch {condition : Expr} {c : Compilation}
    (ih : ∀ w ∈ children ⟨.branch condition body otherwise span, c⟩, Accounted w) :
    Accounted ⟨.branch condition body otherwise span, c⟩ := by
  let v : Visit := ⟨.branch condition body otherwise span, c⟩
  have hcandid := Emit.Candid.law.branchHead condition (Emit.alternative otherwise).isSome v.start
  cases hs : Emit.branchHead (Emit.part condition) (Emit.alternative otherwise).isSome v.start with
  | mk r c₁ =>
    rw [hs] at hcandid
    have hkeep := hcandid.function
    cases r with
    | none =>
      have hchildren : v.children = [] := by
        simp only [v, children]
        rw [hs]
      have hm : Emit.statement v.statement v.start = (none, c₁) := by
        simp only [v, Emit.statement]
        rw [Emit.branch_apply, hs]
      exact accounted_of_handler hm hkeep (fun _ => ⟨hchildren, hcandid.once⟩) (by simp)
    | some id =>
      let c₂ := Emit.closeBranch id "SUBSTACK" (Emit.statements body (Emit.enterBlock c₁))
      have hchildren : v.children =
          sequence body (Emit.enterBlock c₁) ++ ofAlternative otherwise (Emit.enterBlock c₂) := by
        simp only [v, children]
        rw [hs]
      have ih : ∀ w ∈ v.children, Accounted w := ih
      rw [hchildren] at ih
      obtain ⟨ihbody, ihelse⟩ := List.forall_mem_append.1 ih
      obtain ⟨hbody, hfunction⟩ := sequence_reports ihbody
      have hfirst := (hcandid.value).trans
        (hbody.enter.trans (Emit.closeBranch_reports id "SUBSTACK" _))
      rw [List.append_nil, List.nil_append] at hfirst
      cases hrun : Emit.alternative otherwise with
      | none =>
        have helse : ofAlternative otherwise (Emit.enterBlock c₂) = [] := by
          cases otherwise <;> simp_all [Emit.alternative, ofAlternative]
        have hm : Emit.statement v.statement v.start = (some (), Emit.endBranches id c₂) := by
          simp only [v, Emit.statement]
          rw [Emit.branch_apply, hs, hrun]
        refine accounted_of_handler hm (hfunction.trans hkeep) (by simp) fun _ => ?_
        rw [hchildren, helse, List.flatMap_append]
        exact hfirst.trans (Emit.endBranches_reports id c₂)
      | some run =>
        obtain ⟨helse, hfelse⟩ := alternative_reports hrun ihelse
        let c₃ := Emit.closeBranch id "SUBSTACK2" (run (Emit.enterBlock c₂))
        have hm : Emit.statement v.statement v.start = (some (), Emit.endBranches id c₃) := by
          simp only [v, Emit.statement]
          rw [Emit.branch_apply, hs, hrun]
        refine accounted_of_handler hm (hfelse.trans (hfunction.trans hkeep)) (by simp) fun _ => ?_
        rw [hchildren, List.flatMap_append]
        have hsecond := (helse.enter.trans (Emit.closeBranch_reports id "SUBSTACK2" _)).trans
          (Emit.endBranches_reports id c₃)
        rw [List.append_nil, List.append_nil] at hsecond
        exact hfirst.trans hsecond

/-- The errors of every visit are accounted for. -/
theorem accounted (v : Visit) : Accounted v := by
  have law := Emit.Candid.law
  have directiveLaw := Emit.Candid.directiveLaw
  induction v using Visit.induction with
  | h v ih =>
    obtain ⟨s, c⟩ := v
    cases s with
    | declare named value span =>
      exact accounted_of_candid
        (directiveLaw.declare trivial ⟨trivial, law.expression value⟩) rfl
    | assign named op opSpan value span =>
      exact accounted_of_candid (law.assign (law.expression value) named op opSpan) rfl
    | yield value span =>
      exact accounted_of_candid
        (directiveLaw.yield trivial ⟨trivial, law.expression value⟩) rfl
    | call name arguments span =>
      exact accounted_of_candid (law.callStatement (law.expressions arguments) name span _) rfl
    | directive name span => exact accounted_of_candid (directiveLaw.directive trivial) rfl
    | comment text span => exact accounted_of_candid (directiveLaw.comment text) rfl
    | function name params body span => exact accounted_function ih
    | branch condition body otherwise span => exact accounted_branch ih

theorem length_errors (v : Visit) : v.errors.length = v.all.countP abandoned := by
  induction v using Visit.induction with
  | h v ih =>
    rw [all_eq, List.countP_cons, List.countP_flatMap]
    cases ha : v.abandoned with
    | true =>
      obtain ⟨hchildren, d, hd⟩ := (accounted v).once ha
      simp [errors_of_reports hd, hchildren]
    | false =>
      rw [errors_of_reports ((accounted v).bodies ha), List.length_flatMap]
      simp only [Bool.false_eq_true, if_false, Nat.add_zero]
      exact congrArg List.sum (List.map_congr_left fun w hw => ih w hw)

theorem program_reports (statements : List Statement) (c : Compilation) :
    Reports ((program statements c).flatMap errors) c (Emit.program statements c) := by
  induction statements generalizing c with
  | nil => exact .ofEq rfl
  | cons s rest ih =>
    let c₁ := if Emit.needsEntry s then c.setTarget c.target.ensureEntry else c
    have hentry : Reports [] c c₁ := by
      simp only [c₁]
      split
      · exact .setTarget c _
      · exact .ofEq rfl
    exact hentry.trans ((accounted ⟨s, c₁⟩).reports.trans (ih _))

theorem length_flatMap_errors (visits : List Visit) :
    (visits.flatMap errors).length = (visits.flatMap all).countP abandoned := by
  rw [List.length_flatMap, List.countP_flatMap]
  exact congrArg List.sum (List.map_congr_left fun v _ => length_errors v)

/-- A statement is abandoned with exactly one error of its own, and then none of the statements in
its bodies has been visited; otherwise it reports no error besides theirs. The errors of a program
are thus as many as its abandoned statements, and no operand fails silently. -/
theorem error_per_abandoned_visit (source sprite : String) :
    (∀ v ∈ ofSource source sprite,
      v.after.project.errors = v.state.project.errors ++ v.errors ∧
      (v.abandoned = true → (∃ d, v.errors = [d]) ∧ v.children = []) ∧
      (v.abandoned = false → v.errors = v.children.flatMap errors) ∧
      (v.hasBodies = false → v.children = [])) ∧
    (∀ p, Program.ofSource source = .ok p →
      (compile source sprite).errors.length = (ofSource source sprite).countP abandoned) ∧
    ∀ d ∈ (compile source sprite).diagnostics, d.code ≠ "E2" := by
  refine ⟨fun v _ => ?_, fun p hp => ?_, ?_⟩
  · have h := accounted v
    refine ⟨h.reports.errors_eq, fun ha => ?_, fun ha => errors_of_reports (h.bodies ha),
      children_of_not_hasBodies⟩
    obtain ⟨hchildren, d, hd⟩ := h.once ha
    exact ⟨⟨d, errors_of_reports hd⟩, hchildren⟩
  · have hr := program_reports p.statements { project := .new sprite }
    have herrors : (compile source sprite).errors =
        (program p.statements { project := .new sprite }).flatMap errors := by
      simpa [compile, Project.compile, hp, Project.new, Project.errors] using hr.errors_eq
    rw [herrors, length_flatMap_errors]
    simp only [ofSource, hp]
  · cases hp : Program.ofSource source with
    | error e =>
      intro d hd
      simp only [compile, Project.compile, hp, Project.report, Project.new, List.nil_append] at hd
      rw [List.mem_singleton.1 hd, Diagnostic.code_ofProblem]
      exact Problem.code_ne_missingOperand (by simp)
    | ok p =>
      obtain ⟨ds, hds, -, hcode⟩ := program_reports p.statements { project := .new sprite }
      simp only [compile, Project.compile, hp]
      rw [hds]
      exact hcode

/-- The condition is a number, so that the conditional is abandoned before its body. -/
theorem error_per_abandoned_visit_conditional :
    (∃ v ∈ ofSource "if 1 \x7b y = 2 \x7d" "Sprite1", v.abandoned = true ∧
      (∃ d, v.errors = [d]) ∧ v.children = []) ∧
    (compile "if 1 \x7b y = 2 \x7d" "Sprite1").errors.length = 1 := by
  obtain ⟨hvisits, hcount, -⟩ := error_per_abandoned_visit "if 1 \x7b y = 2 \x7d" "Sprite1"
  constructor
  · obtain ⟨v, hv, ha⟩ : ∃ v ∈ ofSource "if 1 \x7b y = 2 \x7d" "Sprite1", v.abandoned = true := by
      decide +kernel
    exact ⟨v, hv, ha, (hvisits v hv).2.1 ha⟩
  · obtain ⟨p, hp, -⟩ : ∃ p ∈ (Program.ofSource "if 1 \x7b y = 2 \x7d").toOption, True := by
      decide +kernel
    rw [hcount p (Program.ofSource_eq_ok hp)]
    decide +kernel

end Visit

end ScriptBlocks
