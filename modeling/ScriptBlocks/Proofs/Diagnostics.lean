import ScriptBlocks.Proofs.Errors
import ScriptBlocks.Proofs.NameSteps
import ScriptBlocks.Proofs.Places

/-!
# Places of diagnostics

Whatever is reported while a program is compiled is reported at a place of the program: the range of
a name, an operator, an expression or a statement. So what all ranges of a program have in common
holds of the places of its diagnostics, and these lie in the source. In the same way what all names of
a program have in common holds of those that are quoted.
-/
namespace ScriptBlocks

variable {Q : Span → Prop} {N : String → Prop}

/-- Every diagnostic of the project reports a problem at a place with the one property, and quotes names
with the other. -/
def Project.ReportedAt (Q : Span → Prop) (N : String → Prop) (p : Project) : Prop :=
  ∀ d ∈ p.diagnostics, ∃ problem span, d = .ofProblem problem (some span) ∧ Q span ∧
    problem.Quotes N

theorem Diagnostic.span_ofProblem (problem : Problem) (span : Option Span) :
    (Diagnostic.ofProblem problem span).span = span := by
  simp only [ofProblem, ofCode]
  split <;> rfl

theorem Project.ReportedAt.report {p : Project} (h : p.ReportedAt Q N) {span : Span} (hs : Q span)
    {problem : Problem} (hq : problem.Quotes N) :
    (p.report (.ofProblem problem (some span))).ReportedAt Q N := by
  intro d hd
  rcases List.mem_append.1 hd with hd | hd
  · exact h d hd
  · exact ⟨problem, span, List.mem_singleton.1 hd, hs, hq⟩

/-- The arguments of the function being compiled may be quoted later. -/
structure Compilation.Reporting (Q : Span → Prop) (N : String → Prop) (c : Compilation) : Prop where
  reported : c.project.ReportedAt Q N
  arguments : ∀ {s}, c.function = some s → ∀ x ∈ s.arguments.keys, N x

namespace Compilation.Reporting

variable {c : Compilation}

theorem names (h : c.Reporting Q N) {f : Option Signature}
    (hf : f.map Signature.names = c.function.map Signature.names) :
    { c with function := f }.Reporting Q N := by
  refine ⟨h.reported, fun {s} hs x hx => ?_⟩
  obtain rfl : f = some s := hs
  obtain ⟨s', hs', hnames⟩ := Option.map_eq_some_iff.1 hf.symm
  have hkeys : s'.arguments.keys = s.arguments.keys := (congrArg Prod.snd hnames :)
  exact h.arguments hs' x (hkeys ▸ hx)

theorem setTarget (h : c.Reporting Q N) (t : Target) : (c.setTarget t).Reporting Q N := by
  refine ⟨?_, h.arguments⟩
  rw [Project.ReportedAt, Compilation.diagnostics_setTarget]
  exact h.reported

end Compilation.Reporting

/-- A step that reports at places with the one property only, and quotes names with the other. -/
def Emit.ReportsAt (Q : Span → Prop) (N : String → Prop) {α : Type} (m : Emit α) : Prop :=
  ∀ c, c.Reporting Q N → (m c).2.Reporting Q N

namespace Emit.ReportsAt

variable {α : Type} {m : Emit α}

theorem follows : Follows Q N fun c c' => c.Reporting Q N → c'.Reporting Q N where
  refl _ := id
  trans h h' hc := h' (h hc)
  log _ _ hc := ⟨hc.reported, hc.arguments⟩
  report _ _ _ _ hs hq hc := ⟨hc.reported.report hs hq, hc.arguments⟩
  graph _ hc := hc.setTarget _
  inference {c i} _ hn hc := by
    obtain ⟨journal, hj⟩ := c.setInference_eq i
    have hfunction := (hc.setTarget i.target).names (congrArg Prod.snd hn)
    rw [hj]
    exact ⟨hfunction.reported, hfunction.arguments⟩
  function _ hn hc := hc.names hn
  depth _ _ hc := ⟨hc.reported, hc.arguments⟩

theorem law : DirectiveLaw Q N (ReportsAt Q N) where
  toLawAt := follows.law
  anyTarget _ _ hc := hc.setTarget _
  anyFunction hf c hc := hc.names (by cases c.function <;> simp [hf])
  project h c hc := ⟨fun d hd => hc.reported d (h c.project ▸ hd), hc.arguments⟩
  waive hs _ hc := ⟨hc.reported.report hs (List.forall_mem_nil _), hc.arguments⟩

/-- Statements that report and quote in this way only. -/
def Body (Q : Span → Prop) (N : String → Prop) (body : Compilation → Compilation) : Prop :=
  ∀ c, c.Reporting Q N → (body c).Reporting Q N

variable {body : Compilation → Compilation}

theorem block (h : Body Q N body) : ReportsAt Q N (Emit.block body) :=
  fun _ hc => (h _ (hc.setTarget _)).setTarget _

theorem closeFunction {name : Named} (hn : Q name.span) : ReportsAt Q N (Emit.closeFunction name) := by
  have law : DirectiveLaw Q N (ReportsAt Q N) := law
  intro c hc
  cases hf : c.function with
  | none =>
    rw [closeFunction_none hf]
    exact hc.setTarget _
  | some signature =>
    have hunresolved : ∀ x ∈ signature.unresolvedArguments, N x := fun x hx =>
      hc.arguments hf x ((List.filter_sublist.map _).subset hx)
    rw [closeFunction_some hf]
    refine law.bind (law.settleArguments hn signature hunresolved) (fun _ =>
      law.bind (law.anyTarget _) fun _ => law.bind (law.log _) fun _ => law.modifyAny _) _ ?_
    exact ⟨(hc.setTarget _).reported, by simp⟩

/-- The arguments of a function are those that its head names. -/
theorem function {name : Named} {params : List Named} (hn : Q name.span)
    (hp : ∀ p ∈ params, Q p.span ∧ N p.name) (h : Body Q N body) :
    ReportsAt Q N (Emit.function name params body) := by
  have law : DirectiveLaw Q N (ReportsAt Q N) := law
  intro c hc
  have hhead := law.functionSignature hn (fun p hm => (hp p hm).1) c hc
  rw [function_apply, functionHead, bind_apply]
  cases hs : functionSignature name params c with
  | mk r c₁ =>
    rw [hs] at hhead
    cases r with
    | none => exact hhead
    | some signature =>
      have hkeys : signature.arguments.keys = params.map Named.name :=
        (congrArg Prod.snd (functionSignature_clear hs).2.2 :)
      have hstart : { c₁ with function := some signature }.Reporting Q N := by
        refine ⟨hhead.reported, fun {s} hs x hx => ?_⟩
        cases hs
        obtain ⟨p, hm, rfl⟩ := List.mem_map.1 (hkeys ▸ hx)
        exact (hp p hm).2
      exact closeFunction hn _ (h _ (hstart.setTarget _))

theorem branch {condition : Part} {otherwise : Option (Compilation → Compilation)}
    (hcondition : condition.Lawful Q (ReportsAt Q N)) (h : Body Q N body)
    (helse : ∀ run ∈ otherwise, Body Q N run) :
    ReportsAt Q N (Emit.branch condition body otherwise) := by
  have law : DirectiveLaw Q N (ReportsAt Q N) := law
  have hend (id : String) : ReportsAt Q N (branchTail id) :=
    law.bind (law.depth (· - 1)) fun _ => law.modifyAny _
  cases otherwise with
  | none =>
    rw [branch_none]
    exact law.bind (law.branchHead hcondition _) fun _ => law.bind (block h) fun _ =>
      law.bind (law.attachBranch _ _ _) fun _ => hend _
  | some run =>
    rw [branch_some]
    exact law.bind (law.branchHead hcondition _) fun _ => law.bind (block h) fun _ =>
      law.bind (law.attachBranch _ _ _) fun _ => law.bind (block (helse run rfl)) fun _ =>
        law.bind (law.attachBranch _ _ _) fun _ => hend _

theorem inContext (hm : ReportsAt Q N m) (span : Span) : ReportsAt Q N (Emit.inContext span m) := by
  intro c hc
  have h := hm { c with contexts := span :: c.contexts } ⟨hc.reported, hc.arguments⟩
  exact ⟨h.reported, h.arguments⟩

mutual

theorem statement : ∀ s : Statement, s.Everywhere Q N → ReportsAt Q N (Emit.statement s)
  | .declare named value span, h => law.declare h.declare.1 (law.ofExpr h.declare.2)
  | .assign named op opSpan value span, h => by
    obtain ⟨hn, ho, hv⟩ := h.assign
    exact law.assign hn ho (law.ofExpr hv) op
  | .yield value span, h => law.yield h.yield.1 (law.ofExpr h.yield.2)
  | .function name params body span, h => by
    obtain ⟨hn, hp, hbody⟩ := h.function
    exact function hn hp (statements body hbody)
  | .call name arguments span, h => by
    obtain ⟨hspan, hn, ha⟩ := h.call
    exact law.callStatement (law.expressions arguments ha) hspan (Expr.Everywhere.spans ha) hn
  | .branch condition body otherwise span, h => by
    obtain ⟨hcondition, hbody, helse⟩ := h.branch
    exact branch (law.ofExpr hcondition) (statements body hbody) (alternative otherwise helse)
  | .directive name span, h => law.directive h.directive
  | .comment text span, _ => law.comment text

theorem statements : ∀ body : List Statement, (∀ s ∈ body, s.Everywhere Q N) →
    Body Q N (Emit.statements body)
  | [], _ => fun _ hc => hc
  | s :: rest, h => by
    obtain ⟨hs, hrest⟩ := List.forall_mem_cons.1 h
    exact fun c hc => statements rest hrest _ (inContext (statement s hs) s.span c hc)

theorem alternative : ∀ a : Alternative, a.Everywhere Q N →
    ∀ run ∈ Emit.alternative a, Body Q N run
  | .none, _ => by simp [Emit.alternative]
  | .block body, h => by
    rintro run ⟨⟩
    exact statements body h.block
  | .branch condition body otherwise span, h => by
    obtain ⟨hcondition, hbody, helse⟩ := h.branch.branch
    rintro run ⟨⟩
    exact inContext (branch (law.ofExpr hcondition) (statements body hbody)
      (alternative otherwise helse)) span

end

theorem program {body : List Statement} (h : ∀ s ∈ body, s.Everywhere Q N) :
    Body Q N (Emit.program body) := by
  induction body with
  | nil => exact fun _ hc => hc
  | cons s rest ih =>
    obtain ⟨hs, hrest⟩ := List.forall_mem_cons.1 h
    intro c hc
    refine ih hrest _ (inContext (statement s hs) s.span _ ?_)
    split
    next => exact hc.setTarget _
    next => exact hc

end Emit.ReportsAt

/-- What holds of the ranges and of the names of a program holds of its diagnostics. -/
theorem compile_reportedAt (source sprite : String)
    (hrange : ∀ {program}, Program.ofSource source = .ok program →
      ∀ n ∈ program.nodes, n.Everywhere Q)
    (herror : ∀ {e}, Program.ofSource source = .error e → Q e.span)
    (hname : ∀ {program}, Program.ofSource source = .ok program →
      ∀ x, .name x ∈ program.lexemes → N x) : (compile source sprite).ReportedAt Q N := by
  have hnew : (Project.new sprite).ReportedAt Q N := by
    simp [Project.ReportedAt, Project.new]
  rw [compile, Project.compile]
  split
  next program h =>
    have hbody := Statement.Everywhere.all (List.forall_mem_cons.1 (hrange h)).2 fun x hx =>
      hname h x (by simpa [Program.lexemes] using hx)
    exact (Emit.ReportsAt.program hbody _ ⟨hnew, by simp⟩).reported
  next e h => exact hnew.report (herror h) (List.forall_mem_nil _)

/-- Places are consistent. In the program of a source every range lies in the source and has the line
and the column of its start, and the parts of every node lie inside it, one after the other. Every
diagnostic stands at such a range too, and a source without a program has one, at the place of its
error. -/
theorem compile_inSource (source sprite : String) :
    (∀ program, Program.ofSource source = .ok program →
      ∀ n ∈ program.nodes, n.Tidy (Span.InSource source.toList)) ∧
    (∀ e, Program.ofSource source = .error e → (compile source sprite).diagnostics =
      [.ofProblem (.malformedSource e.message) (some e.span)]) ∧
    ∀ d ∈ (compile source sprite).diagnostics,
      ∃ span, d.span = some span ∧ span.InSource source.toList := by
  have hreported := compile_reportedAt (N := fun _ => True) source sprite
    (fun h n hn => (Program.nodes_tidy h n hn).everywhere) Program.inSource_of_error
    fun _ _ _ => trivial
  refine ⟨fun program h => Program.nodes_tidy h, fun e h => ?_, fun d hd => ?_⟩
  · simp [compile, Project.compile, h, Project.report, Project.new]
  · obtain ⟨problem, span, rfl, hspan, -⟩ := hreported d hd
    exact ⟨span, Diagnostic.span_ofProblem _ _, hspan⟩

/-- A comparison inside a conditional, an unknown name in it, and an expression that ends with the
file. -/
theorem compile_inSource_comparison :
    let source := "let x = 1\nif x + 1 > y \x7b\n  x = 2\n\x7d"
    let comparison : Node :=
      ⟨⟨2, 4, 13, 9⟩, [⟨2, 4, 13, 5⟩, ⟨2, 10, 19, 1⟩, ⟨2, 12, 21, 1⟩]⟩
    (∃ program, Program.ofSource source = .ok program ∧ comparison ∈ program.nodes ∧
      comparison.Tidy (Span.InSource source.toList)) ∧
    (∃ d ∈ (compile source "Sprite1").diagnostics, d.code = "E9" ∧
      ∃ span, d.span = some span ∧ span.InSource source.toList) ∧
    ∃ e, Program.ofSource "x = (1 +" = .error e ∧ e.span = ⟨1, 9, 8, 1⟩ ∧
      (compile "x = (1 +" "Sprite1").diagnostics =
        [.ofProblem (.malformedSource e.message) (some e.span)] := by
  intro source comparison
  obtain ⟨hnodes, -, hplaces⟩ := compile_inSource source "Sprite1"
  refine ⟨?_, ?_, ?_⟩
  · obtain ⟨program, h, hmem⟩ : ∃ program ∈ (Program.ofSource source).toOption,
        comparison ∈ program.nodes := by
      decide +kernel
    have hok := Program.ofSource_eq_ok h
    exact ⟨program, hok, hmem, hnodes program hok comparison hmem⟩
  · obtain ⟨d, hd, hcode⟩ : ∃ d ∈ (compile source "Sprite1").diagnostics, d.code = "E9" := by
      decide +kernel
    exact ⟨d, hd, hcode, hplaces d hd⟩
  · have hnone : (Program.ofSource "x = (1 +").toOption.isNone = true := by
      decide +kernel
    have hspan : (compile "x = (1 +" "Sprite1").diagnostics.map Diagnostic.span =
        [some ⟨1, 9, 8, 1⟩] := by
      decide +kernel
    cases h : Program.ofSource "x = (1 +" with
    | ok program => simp [h, Except.toOption] at hnone
    | error e =>
      have hreport := (compile_inSource "x = (1 +" "Sprite1").2.1 e h
      rw [hreport, List.map_singleton, Diagnostic.span_ofProblem] at hspan
      exact ⟨e, rfl, by simpa using hspan, hreport⟩

end ScriptBlocks
