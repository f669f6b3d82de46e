import ScriptBlocks.Proofs.Evaluations
import ScriptBlocks.Proofs.Laws

/-!
# Points of a compilation

The states that the compilation of a program passes: where the visit of a statement starts and ends,
where the statements of its bodies start, and where its expressions start and end. While the
expressions of a statement are compiled no name changes what it stands for, so that most of these
states know the same names.
-/
namespace ScriptBlocks

namespace Compilation

variable {c c' c'' : Compilation}

/-- A step after which every name stands for what it stood for: the declared variables, the functions
and the function being compiled have the same names, and the target is the same. -/
structure SameNames (c c' : Compilation) : Prop where
  onStage : c'.project.onStage = c.project.onStage
  other : c'.project.other = c.project.other
  name : c'.target.name = c.target.name
  built : ∀ x, (c'.target.builtVariable? x).isSome = (c.target.builtVariable? x).isSome
  functions : c'.target.functions.keys = c.target.functions.keys
  function : c'.function.map Signature.names = c.function.map Signature.names

namespace SameNames

theorem refl (c : Compilation) : SameNames c c :=
  ⟨rfl, rfl, rfl, fun _ => rfl, rfl, rfl⟩

theorem trans (h : SameNames c c') (h' : SameNames c' c'') : SameNames c c'' where
  onStage := h'.onStage.trans h.onStage
  other := h'.other.trans h.other
  name := h'.name.trans h.name
  built x := (h'.built x).trans (h.built x)
  functions := h'.functions.trans h.functions
  function := h'.function.trans h.function

/-- The targets and the names of the function being compiled are the same. -/
theorem of_targets (hstage : c'.project.stage = c.project.stage)
    (hsprite : c'.project.sprite = c.project.sprite)
    (honStage : c'.project.onStage = c.project.onStage)
    (hf : c'.function.map Signature.names = c.function.map Signature.names) : SameNames c c' := by
  have htarget : c'.target = c.target := by
    simp only [target, Project.current, hstage, hsprite, honStage]
  refine ⟨honStage, ?_, by rw [htarget], fun x => by rw [htarget], by rw [htarget], hf⟩
  simp only [Project.other, hstage, hsprite, honStage]

/-- The current target is exchanged for one that knows the same names. -/
theorem setTarget {t : Target} (hname : t.name = c.target.name)
    (hb : ∀ x, (t.builtVariable? x).isSome = (c.target.builtVariable? x).isSome)
    (hf : t.functions.keys = c.target.functions.keys) : SameNames c (c.setTarget t) := by
  have hrest := SameRest.setTarget c t
  refine ⟨hrest.onStage, hrest.other, ?_, fun x => ?_, ?_, rfl⟩
  · rw [target_setTarget, hname]
  · rw [target_setTarget, hb]
  · rw [target_setTarget, hf]

theorem of_vars {t : Target} (hname : t.name = c.target.name) (hvars : t.vars = c.target.vars)
    (hf : t.functions.keys = c.target.functions.keys) : SameNames c (c.setTarget t) := by
  refine setTarget hname (fun x => ?_) hf
  rw [Target.builtVariable?, Target.variableNamed?, hvars]
  rfl

theorem of_tables {t : Target} (h : t.tables = c.target.tables) : SameNames c (c.setTarget t) := by
  have hfunctions : t.functions = c.target.functions := (congrArg Target.functions h :)
  exact of_vars (congrArg Target.name h :) (congrArg Target.vars h :) (by rw [hfunctions])

theorem setInference {i : Inference} (houtline : i.outline = c.inference.outline)
    (hnames : i.names = c.inference.names) : SameNames c (c.setInference i) := by
  obtain ⟨journal, hj⟩ := c.setInference_eq i
  have hname : i.target.name = c.target.name := (congrArg Prod.fst houtline :)
  have hvars : i.target.vars = c.target.vars := (congrArg (·.2.1) houtline :)
  have hsame : SameNames c (c.setTarget i.target) :=
    of_vars hname hvars (congrArg Prod.fst hnames :)
  rw [hj]
  exact ⟨hsame.onStage, hsame.other, hsame.name, hsame.built, hsame.functions,
    (congrArg Prod.snd hnames :)⟩

theorem functionNamed?_eq_none (h : SameNames c c') {x : String} :
    c'.target.functionNamed? x = none ↔ c.target.functionNamed? x = none := by
  simp only [Target.functionNamed?, Table.get?_eq_none_iff, h.functions]

theorem builtVariable?_eq_none (h : SameNames c c') {x : String} :
    c'.target.builtVariable? x = none ↔ c.target.builtVariable? x = none := by
  rw [← Option.isNone_iff_eq_none, ← Option.isNone_iff_eq_none, ← Option.not_isSome,
    ← Option.not_isSome, h.built]

/-- The function being compiled and its arguments have had their names before. -/
theorem exists_of_some (h : SameNames c c') {s' : Signature} (hs : c'.function = some s') :
    ∃ s, c.function = some s ∧ s'.names = s.names := by
  have hf := h.function
  rw [hs] at hf
  obtain ⟨s, hs, hnames⟩ := Option.map_eq_some_iff.1 hf.symm
  exact ⟨s, hs, hnames.symm⟩

end SameNames
end Compilation

namespace Emit

open Compilation

/-- Steps that change no name in any state. -/
def KeepsNames {α : Type} (m : Emit α) : Prop :=
  ∀ c, SameNames c (m c).2

namespace KeepsNames

theorem modifyFunction {g : Signature → Signature} (hg : ∀ s, (g s).names = s.names) :
    KeepsNames (modify fun c => { c with function := c.function.map g }) := by
  intro c
  refine .of_targets rfl rfl rfl ?_
  show (c.function.map g).map Signature.names = _
  rw [Option.map_map]
  exact congrArg (fun h => c.function.map h) (funext hg)

theorem follows : Follows (fun _ => True) (fun _ => True) SameNames where
  refl := .refl
  trans := .trans
  log _ _ := .of_targets rfl rfl rfl rfl
  report _ _ _ _ _ _ := .of_targets rfl rfl rfl rfl
  graph := .of_tables
  inference := .setInference
  function _ hn := .of_targets rfl rfl rfl hn
  depth _ _ := .of_targets rfl rfl rfl rfl

/-- Nothing in an expression changes a name. -/
theorem law : Law KeepsNames := follows.law

/-- A variable that is created is not declared yet. -/
theorem createVariable (x : String) (type : ValueType) :
    KeepsNames (onTarget (·.createVariable x type)) := by
  intro c
  show SameNames c (c.setTarget (c.target.createVariable x type).2)
  simp only [Target.createVariable]
  split
  next => exact .of_tables rfl
  next hnone =>
    refine .setTarget rfl (fun y => ?_) rfl
    rw [Target.variableNamed?] at hnone
    simp only [Target.builtVariable?, Target.variableNamed?, Table.get?_insert]
    split
    next hxy => simp [← hxy, hnone]
    next => rfl

/-- A variable stays declared or undeclared. -/
theorem modifyVariable (x : String) {f : Variable → Variable} (hf : ∀ v, (f v).built = v.built) :
    KeepsNames (modifyTarget (·.modifyVariable x f)) := by
  intro c
  refine .setTarget rfl (fun y => ?_) rfl
  simp only [Target.builtVariable?, Target.variableNamed?, Target.modifyVariable, Table.get?_modify]
  split
  next => cases c.target.vars.get? y <;> simp [Option.filter, hf, apply_ite]
  next => rfl

theorem returnVariable (signature : Signature) : KeepsNames (returnVariable signature) := by
  simp only [Emit.returnVariable]
  split
  next => exact law.pure _
  next =>
    exact law.bind law.target fun _ => law.bind (createVariable _ _) fun _ =>
      law.bind (modifyFunction fun _ => rfl) fun _ => law.pure _

end KeepsNames

/-! ### Before the operands -/

namespace Law

variable {P : {α : Type} → Emit α → Prop}

theorem openInputs (h : Law P) (id : String) (start : Nat) : P (openInputs id start) :=
  h.modifyGraph fun _ => rfl

theorem placing (h : Law P) {α : Type} (make : String → Block) (start : Nat)
    (frame : String → Frame α) : P (placing make start frame) :=
  h.bind (h.place make) fun _ => h.bind (h.openInputs _ _) fun _ => h.pure _

theorem inclusiveOpening (h : Law P) (make : String → SlotValue → SlotValue → Block) :
    P (inclusiveOpening make) :=
  h.bind (h.register _) fun _ => h.bind (h.register _) fun _ => h.bind (h.place _) fun _ =>
    h.bind (h.openInputs _ _) fun _ => h.pure _

theorem binaryOpening (h : Law P) (op : BinaryOp) (opSpan right : Span) :
    P (binaryOpening op opSpan right) := by
  cases op with
  | arithmetic op => exact h.placing _ _ _
  | logic op => exact h.placing _ _ _
  | comparison op =>
    cases op with
    | equal => exact h.placing _ _ _
    | notEqual =>
      exact h.bind (h.register _) fun _ => h.bind (h.place _) fun _ =>
        h.bind (h.openInputs _ _) fun _ => h.pure _
    | less => exact h.placing _ _ _
    | greater => exact h.placing _ _ _
    | lessOrEqual => exact h.inclusiveOpening _
    | greaterOrEqual => exact h.inclusiveOpening _

theorem callOpening (h : Law P) (name : String) (span : Span) (spans : List Span) :
    P (callOpening name span spans) := by
  refine h.bind (h.callee _ _ _) fun p => ?_
  split
  next => exact h.fail rfl span
  next =>
    exact h.bind (h.log _) fun _ => h.bind (h.register _) fun _ =>
      h.bind (h.openInputs _ _) fun _ => h.pure _

/-- What holds of the primitive steps holds of what an operator or a call does first. -/
theorem opening (h : Law P) {e : Expr} (he : e.isComposite = true) : P e.opening := by
  cases e with
  | unary op opSpan e span => cases op <;> exact h.placing _ _ _
  | binary op opSpan left right span => exact h.binaryOpening _ _ _
  | call f arguments span => exact h.callOpening _ _ _
  | literal | name | paren => cases he

theorem assignOpening (h : Law P) (named : Named) (op : Option ArithmeticOp) (opSpan span : Span) :
    P (assignOpening named op opSpan span) := by
  refine h.bind (h.log _) fun _ => h.bind h.target fun t => ?_
  split
  next => exact h.fail rfl _
  next v _ =>
    refine h.bind (h.place _) fun id => ?_
    cases op with
    | none => exact h.bind (h.openInputs _ _) fun _ => h.pure _
    | some op =>
      simp only [combinedOpening]
      split
      next => exact h.fail rfl _
      next =>
        exact h.bind (h.onGraph fun _ => rfl) fun _ => h.bind (h.openInputs _ _) fun _ =>
          h.bind (h.modifyGraph fun t => t.tables_addBlock _) fun _ =>
            h.bind (h.openInputs _ _) fun _ => h.pure _

theorem callStatementOpening (h : Law P) (name : String) (span : Span) (spans : List Span) :
    P (callStatementOpening name span spans) :=
  h.bind (h.callee _ _ _) fun _ => h.bind (h.log _) fun _ => h.placing _ _ _

theorem branchOpening (h : Law P) (hasElse : Bool) (span : Span) : P (branchOpening hasElse span) :=
  h.bind (h.log _) fun _ => h.placing _ _ _

end Law

namespace KeepsNames

theorem declareOpening (named : Named) (span : Span) : KeepsNames (declareOpening named span) := by
  refine law.bind (law.log _) fun _ => law.bind law.get fun c => ?_
  split
  next => exact law.fail rfl _
  next =>
    split
    next => exact law.fail rfl _
    next => exact law.bind (createVariable _ _) fun _ => law.placing _ _ _

theorem yieldOpening (span valueSpan : Span) : KeepsNames (yieldOpening span valueSpan) := by
  refine law.bind law.get fun c => ?_
  split
  next => exact law.fail rfl _
  next =>
    exact law.bind (law.log _) fun _ => law.bind (returnVariable _) fun _ => law.placing _ _ _

theorem prepare (s : Statement) : KeepsNames s.prepare := by
  cases s with
  | declare named value span => exact law.bind (declareOpening _ _) fun _ => law.pure _
  | assign named op opSpan value span => exact law.bind (law.assignOpening _ _ _ _) fun _ => law.pure _
  | yield value span => exact law.bind (yieldOpening _ _) fun _ => law.pure _
  | call f arguments span => exact law.bind (law.callStatementOpening _ _ _) fun _ => law.pure _
  | branch condition body otherwise span =>
    exact law.bind (law.branchOpening _ _) fun _ => law.pure _
  | function | directive | comment => exact fun c => .refl c

end KeepsNames
end Emit

open Compilation

/-! ### Evaluations -/

namespace Evaluation

variable {v w : Evaluation}

theorem result_names (w : Evaluation) : SameNames w.state w.result.2 :=
  Emit.KeepsNames.law.expression w.expr w.state

theorem filled_names (w : Evaluation) : SameNames w.state w.filled.2 :=
  Emit.KeepsNames.law.operand (Emit.KeepsNames.law.expression w.expr) w.expr.span w.state

theorem sequence_names (es : List Expr) (c : Compilation) :
    ∀ w ∈ sequence es c, SameNames c w.state := by
  induction es generalizing c with
  | nil => simp [sequence]
  | cons e es ih =>
    have hfirst := filled_names ⟨e, c⟩
    rw [sequence, List.forall_mem_cons]
    refine ⟨.refl c, ?_⟩
    split
    next c' hfilled =>
      rw [hfilled] at hfirst
      exact fun w hw => hfirst.trans (ih c' w hw)
    next => simp

theorem children_names (h : w ∈ v.children) : SameNames v.state w.state := by
  obtain ⟨e, c⟩ := v
  unfold children at h
  split at h
  next inner span he =>
    obtain rfl := List.mem_singleton.1 h
    exact .refl _
  next hparen =>
    have hopening : SameNames c (e.opening c).2 := by
      cases he : e.isComposite with
      | true => exact Emit.KeepsNames.law.opening he c
      | false =>
        cases e with
        | unary | binary | call => cases he
        | literal | name | paren => exact .refl c
    split at h
    next frame c' hopen =>
      rw [hopen] at hopening
      exact hopening.trans (sequence_names _ _ w h)
    next => cases h

theorem all_names : ∀ w ∈ v.all, SameNames v.state w.state :=
  forall_mem_all (P := fun w => SameNames v.state w.state)
    (fun _ hw _ hu => hw.trans (children_names hu)) (.refl _)

end Evaluation

/-! ### Visits -/

namespace Visit

/-- While the expressions of a statement are compiled every name stands for what it stood for. -/
theorem evaluations_names {v : Visit} {w : Evaluation} (h : w ∈ v.evaluations) :
    SameNames v.state w.state := by
  have hstart : SameNames v.state v.start := .of_targets rfl rfl rfl rfl
  have hprepare := Emit.KeepsNames.prepare v.statement v.start
  unfold evaluations at h
  split at h
  next c hc =>
    rw [hc] at hprepare
    obtain ⟨u, hu, hwu⟩ := List.mem_flatMap.1 h
    exact ((hstart.trans hprepare).trans (Evaluation.sequence_names _ _ u hu)).trans
      (Evaluation.all_names w hwu)
  next => cases h

/-- The states in which the statements of the bodies start. -/
def entries (v : Visit) : List Compilation :=
  match v.statement with
  | .function name params _ _ =>
    match Emit.functionHead name params v.start with
    | (some _, c) => [Emit.enterBlock c]
    | (none, _) => []
  | .branch condition body otherwise _ =>
    match Emit.branchHead (Emit.part condition) (Emit.alternative otherwise).isSome v.start with
    | (some id, c) =>
      let between := Emit.closeBranch id "SUBSTACK" (Emit.statements body (Emit.enterBlock c))
      [Emit.enterBlock c, Emit.enterBlock between]
    | (none, _) => []
  | _ => []

/-- The states that a visit passes on its own, those of the visits in its bodies apart. -/
inductive Passes (v : Visit) : Compilation → Prop
  | state : v.Passes v.state
  | start : v.Passes v.start
  | entry {c : Compilation} (h : c ∈ v.entries) : v.Passes c
  | handled : v.Passes v.handled.2
  | after : v.Passes v.after
  | evaluation {w : Evaluation} (h : w ∈ v.evaluations) : v.Passes w.state
  | result {w : Evaluation} (h : w ∈ v.evaluations) : v.Passes w.result.2
  | filled {w : Evaluation} (h : w ∈ v.evaluations) : v.Passes w.filled.2

end Visit

/-- The states that the compilation of a source text passes. -/
inductive Compilation.Reached (source sprite : String) : Compilation → Prop
  | initial : Reached source sprite { project := .new sprite }
  | visit {v : Visit} {c : Compilation} (hv : v ∈ Visit.ofSource source sprite) (h : v.Passes c) :
      Reached source sprite c
  | final {p : Program} (h : Program.ofSource source = .ok p) :
      Reached source sprite (Emit.program p.statements { project := .new sprite })

end ScriptBlocks
