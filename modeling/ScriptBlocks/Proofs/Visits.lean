import ScriptBlocks.Compile.Statement

/-!
# Visits of statements

Compiling a program visits its statements one after the other. A conditional or a function first
compiles its own head, and only if that succeeds are the statements of its bodies visited. The
visits of a program are thus a forest: every visit has the visits of its bodies below it.
-/
namespace ScriptBlocks

variable {signature : Signature} {body : List Statement} {otherwise : Alternative}
variable {P : Visit → Prop}

theorem Program.ofSource_eq_ok {source : String} {program : Program}
    (h : program ∈ (ofSource source).toOption) : ofSource source = .ok program := by
  cases hsource : ofSource source with
  | error e => simp [hsource, Except.toOption] at h
  | ok p =>
    rw [hsource] at h
    cases h
    rfl

variable {c c' c'' : Compilation} {w v : Visit} {ws : List Visit}

/-- A statement and the state in which it is compiled. -/
structure Visit where
  statement : Statement
  state : Compilation

namespace Emit

/-- The state in which the first statement of a block is visited. -/
def enterBlock (c : Compilation) : Compilation :=
  c.setTarget (c.target.enter (.after none))

/-- The signature with which the body of a function is compiled. -/
def functionSignature (name : Named) (params : List Named) : Emit Signature := do
  log (.defining name.name)
  let c ← get
  if c.function.isSome || 0 < c.branchDepth then fail .nestedFunction name.span
  else if (c.target.variableNamed? name.name).isSome then
    fail (.functionNamedLikeVariable name.name) name.span
  else if (c.target.functionNamed? name.name).isSome then
    fail (.functionRedefined name.name) name.span
  else parameters (← onTarget (Signature.start name.name)) params

/-- What a function compiles before its body. -/
def functionHead (name : Named) (params : List Named) : Emit Unit := do
  let signature ← functionSignature name params
  modify ({ · with function := some signature })

/-- Completes a function whose body has been compiled into a sequence. -/
def finishFunction (name : Named) (signature : Signature) (scope : Scope) : Emit Unit := do
  let signature ← settleArguments signature name.span signature.unresolvedArguments
  let procedure ← onTarget (signature.build scope.head?)
  log (.defined name.name procedure.returnType)
  modifyTarget (·.addFunction procedure)

/-- What a function compiles after its body. -/
def functionTail (name : Named) (scope : Scope) : Emit Unit := do
  let c ← get
  match c.function with
  | none => giveUp
  | some signature =>
    modify ({ · with function := none })
    finishFunction name signature scope

/-- What a `return` compiles when the variable for the result is known. -/
def yieldInto (function : String) (ref : VariableRef) (value : Part) : Emit Unit := do
  let id ← place fun id => .setVariable id ref .empty
  let operand ← within (.inputs id 0) value.operand
  storeResult function ref operand value.span

/-- What a conditional compiles before its bodies. The result is its block. -/
def branchHead (condition : Part) (hasElse : Bool) : Emit String := do
  log .branching
  let id ← place fun id => if hasElse then .branchElse id .empty else .branch id .empty
  let operand ← within (.inputs id 0) condition.operand
  expectType .boolean [operand] condition.span
  modify fun c => { c with branchDepth := c.branchDepth + 1 }
  pure id

/-- What is done after the statements of a body of a conditional. -/
def closeBranch (id slot : String) (c : Compilation) : Compilation :=
  (attachBranch id slot (c.target.exit.1.getD (.after none)) (c.setTarget c.target.exit.2)).2

/-- What is done after both bodies of a conditional. -/
def endBranches (id : String) (c : Compilation) : Compilation :=
  { c with branchDepth := c.branchDepth - 1 }.setTarget (c.target.setNext id none)

/-- What is done after the statements of the body of a function. -/
def closeFunction (name : Named) (c : Compilation) : Option Unit × Compilation :=
  functionTail name (c.target.exit.1.getD (.after none)) (c.setTarget c.target.exit.2)

theorem bind_assoc (m : Emit α) (f : α → Emit β) (g : β → Emit γ) :
    m >>= f >>= g = m >>= fun a => f a >>= g := by
  funext c
  simp only [bind_apply]
  obtain ⟨_ | a, c'⟩ := m c <;> rfl

theorem ite_bind {p : Prop} [Decidable p] (m m' : Emit α) (f : α → Emit β) :
    ite p m m' >>= f = ite p (m >>= f) (m' >>= f) := by
  split <;> rfl

theorem fail_bind (problem : Problem) (span : Span) (f : α → Emit β) :
    fail problem span >>= f = fail problem span := rfl

theorem parameters_cons (signature : Signature) (parameter : Named) (rest : List Named)
    (c : Compilation) :
    parameters signature (parameter :: rest) c =
      if parameter.name = signature.name then fail .argumentNamedLikeFunction parameter.span c
      else if (c.target.variableNamed? parameter.name).isSome then
        fail .argumentNamedLikeVariable parameter.span c
      else if signature.hasArgument parameter.name then
        fail (.argumentRepeated parameter.name) parameter.span c
      else
        let added : Parameter := ⟨c.target.freshId "argument", .unresolved, []⟩
        parameters
          { signature with arguments := signature.arguments.insert parameter.name added } rest
          (c.setTarget c.target.draw) := by
  simp only [parameters, bind_apply, target, Signature.addArgument?]
  split
  next => rfl
  next =>
    split
    next => rfl
    next => split <;> rfl

theorem settleArguments_cons (signature : Signature) (span : Span) (argument : String)
    (rest : List String) (c : Compilation) :
    settleArguments signature span (argument :: rest) c =
      let c := c.report (.untypedArgument argument signature.name) (some span)
      match signature.settle argument .string c.target with
      | .ok (settled, t) =>
        settleArguments settled span rest
          ((c.setTarget t).log (.settled argument signature.name .string))
      | .error _ => settleArguments signature span rest c := by
  simp only [settleArguments, bind_apply, report, modify, target]
  cases signature.settle argument .string
    (c.report (.untypedArgument argument signature.name) (some span)).target <;> rfl

theorem yield_apply (h : c.function = some signature) (span : Span) (value : Part) :
    yield span value c =
      (returnVariable signature >>= fun ref => yieldInto signature.name ref value)
        (c.log (.returning signature.name)) := by
  simp only [yield, bind_apply, get, h]
  rfl

theorem function_eq (name : Named) (params : List Named) (body : Compilation → Compilation) :
    function name params body =
      functionHead name params >>= fun _ => block body >>= functionTail name := by
  simp only [function, functionHead, functionSignature, bind_assoc, ite_bind, fail_bind]
  rfl

theorem function_apply (name : Named) (params : List Named) (body : Compilation → Compilation)
    (c : Compilation) :
    function name params body c =
      match functionHead name params c with
      | (some _, c) => closeFunction name (body (enterBlock c))
      | (none, c) => (none, c) := by
  rw [function_eq, bind_apply]
  obtain ⟨_ | _, c'⟩ := functionHead name params c <;> rfl

theorem closeFunction_none (h : c.function = none) (name : Named) :
    closeFunction name c = (none, c.setTarget c.target.exit.2) := by
  have h' : (c.setTarget c.target.exit.2).function = none := h
  simp only [closeFunction, functionTail, bind_apply, get, h']
  rfl

theorem closeFunction_some (h : c.function = some signature) (name : Named) : closeFunction name c =
      finishFunction name signature (c.target.exit.1.getD (.after none))
        { c.setTarget c.target.exit.2 with function := none } := by
  have h' : (c.setTarget c.target.exit.2).function = some signature := h
  simp only [closeFunction, functionTail, bind_apply, get, h']
  rfl

/-- What a conditional does at its end. -/
def branchTail (id : String) : Emit Unit := do
  modify fun c => { c with branchDepth := c.branchDepth - 1 }
  modifyTarget (·.setNext id none)

theorem branch_none (condition : Part) (body : Compilation → Compilation) :
    branch condition body none = branchHead condition false >>= fun id =>
      block body >>= fun scope => attachBranch id "SUBSTACK" scope >>= fun _ => branchTail id := by
  simp only [branch, branchHead, bind_assoc]
  rfl

theorem branch_some (condition : Part) (body run : Compilation → Compilation) :
    branch condition body (some run) = branchHead condition true >>= fun id =>
      block body >>= fun scope => attachBranch id "SUBSTACK" scope >>= fun _ =>
        block run >>= fun scope => attachBranch id "SUBSTACK2" scope >>= fun _ =>
          branchTail id := by
  simp only [branch, branchHead, bind_assoc]
  rfl

theorem branch_apply (condition : Part) (body : Compilation → Compilation)
    (otherwise : Option (Compilation → Compilation)) (c : Compilation) :
    branch condition body otherwise c =
      match branchHead condition otherwise.isSome c with
      | (some id, c) =>
        let between := closeBranch id "SUBSTACK" (body (enterBlock c))
        match otherwise with
        | some run =>
          (some (), endBranches id (closeBranch id "SUBSTACK2" (run (enterBlock between))))
        | none => (some (), endBranches id between)
      | (none, c) => (none, c) := by
  cases otherwise with
  | none =>
    rw [branch_none, bind_apply]
    simp only [Option.isSome_none]
    obtain ⟨_ | id, c'⟩ := branchHead condition false c <;> rfl
  | some run =>
    rw [branch_some, bind_apply]
    simp only [Option.isSome_some]
    obtain ⟨_ | id, c'⟩ := branchHead condition true c <;> rfl

end Emit

namespace Visit

/-- The state in which the handler of the statement starts. -/
def start (v : Visit) : Compilation :=
  { v.state with contexts := v.statement.span :: v.state.contexts }

/-- What the visit results in. -/
def result (v : Visit) : Option Unit × Compilation :=
  Emit.inContext v.statement.span (Emit.statement v.statement) v.state

/-- What the handler of the statement results in. -/
def handled (v : Visit) : Option Unit × Compilation :=
  Emit.statement v.statement v.start

/-- The state after the visit. -/
def after (v : Visit) : Compilation :=
  v.result.2

/-- Whether the compilation of the statement was given up. -/
def abandoned (v : Visit) : Bool :=
  v.result.1.isNone

theorem alternative_branch (condition : Expr) (body : List Statement) (otherwise : Alternative)
    (span : Span) :
    Emit.alternative (.branch condition body otherwise span) =
      some fun c => after ⟨.branch condition body otherwise span, c⟩ := by
  simp only [Emit.alternative, after, result, Emit.statement, Statement.span]

/-- The visits of statements that follow each other. -/
def sequence : List Statement → Compilation → List Visit
  | [], _ => []
  | s :: rest, c => ⟨s, c⟩ :: sequence rest (after ⟨s, c⟩)

/-- The visits in what follows the first branch of a conditional. A further conditional is visited
like a statement. -/
def ofAlternative : Alternative → Compilation → List Visit
  | .none, _ => []
  | .block body, c => sequence body c
  | .branch condition body otherwise span, c => [⟨.branch condition body otherwise span, c⟩]

/-- The visits of the statements that stand in the bodies of this one. -/
def children (v : Visit) : List Visit :=
  match v.statement with
  | .function name params body _ =>
    match Emit.functionHead name params v.start with
    | (some _, c) => sequence body (Emit.enterBlock c)
    | (none, _) => []
  | .branch condition body otherwise _ =>
    match Emit.branchHead (Emit.part condition) (Emit.alternative otherwise).isSome v.start with
    | (some id, c) =>
      let between := Emit.closeBranch id "SUBSTACK" (Emit.statements body (Emit.enterBlock c))
      sequence body (Emit.enterBlock c) ++ ofAlternative otherwise (Emit.enterBlock between)
    | (none, _) => []
  | _ => []

theorem mem_of_mem_sequence (h : w ∈ sequence body c) : w.statement ∈ body := by
  induction body generalizing c with
  | nil => simp [sequence] at h
  | cons s rest ih =>
    obtain rfl | h := List.mem_cons.1 h
    · exact List.mem_cons_self
    · exact List.mem_cons_of_mem s (ih h)

theorem sizeOf_lt_of_mem_sequence (h : w ∈ sequence body c) : sizeOf w.statement < sizeOf body :=
  List.sizeOf_lt_of_mem (mem_of_mem_sequence h)

theorem sizeOf_le_of_mem_ofAlternative (h : w ∈ ofAlternative otherwise c) :
    sizeOf w.statement ≤ sizeOf otherwise := by
  cases otherwise with
  | none => simp [ofAlternative] at h
  | block body =>
    have := sizeOf_lt_of_mem_sequence h
    simp only [Alternative.block.sizeOf_spec]
    omega
  | branch condition body otherwise span =>
    obtain rfl := List.mem_singleton.1 h
    simp

/-- Visits go down the tree of the program. -/
theorem sizeOf_lt_of_mem_children (h : w ∈ v.children) :
    sizeOf w.statement < sizeOf v.statement := by
  unfold children at h
  split at h
  next name params body span hs =>
    rw [hs]
    split at h
    next c _ =>
      have := sizeOf_lt_of_mem_sequence h
      simp only [Statement.function.sizeOf_spec]
      omega
    next => simp at h
  next condition body otherwise span hs =>
    rw [hs]
    split at h
    next id c _ =>
      simp only [Statement.branch.sizeOf_spec]
      obtain h | h := List.mem_append.1 h
      · have := sizeOf_lt_of_mem_sequence h
        omega
      · have := sizeOf_le_of_mem_ofAlternative h
        omega
    next => simp at h
  next => simp at h

/-- What holds of a visit whenever it holds of those in its bodies holds of all visits. -/
theorem induction (h : ∀ v, (∀ w ∈ v.children, P w) → P v) (v : Visit) : P v :=
  h v fun w _ => induction h w
termination_by sizeOf v.statement
decreasing_by exact sizeOf_lt_of_mem_children ‹_›

/-- The visit itself and all visits below it, in their order. -/
def all (v : Visit) : List Visit :=
  v :: v.children.attach.flatMap fun w => w.1.all
termination_by sizeOf v.statement
decreasing_by exact sizeOf_lt_of_mem_children w.2

theorem all_eq (v : Visit) : v.all = v :: v.children.flatMap all := by
  rw [all, List.flatMap_subtype (g := all) (by simp), List.unattach_attach]

/-- The visits of the statements of a program, from a state on. -/
def program : List Statement → Compilation → List Visit
  | [], _ => []
  | s :: rest, c =>
    let v : Visit := ⟨s, if Emit.needsEntry s then c.setTarget c.target.ensureEntry else c⟩
    v :: program rest v.after

/-- All visits in the compilation of a source text. A text that is no program has none. -/
def ofSource (source sprite : String) : List Visit :=
  match Program.ofSource source with
  | .ok p => (program p.statements { project := .new sprite }).flatMap all
  | .error _ => []

/-- Whether a statement has bodies with statements of their own. -/
def hasBodies (v : Visit) : Bool :=
  match v.statement with
  | .function _ _ _ _ => true
  | .branch _ _ _ _ => true
  | _ => false

theorem children_of_not_hasBodies (h : v.hasBodies = false) : v.children = [] := by
  obtain ⟨s, c⟩ := v
  cases s <;> first | rfl | cases h

theorem mem_all : w ∈ v.all ↔ w = v ∨ ∃ u ∈ v.children, w ∈ u.all := by
  rw [all_eq, List.mem_cons, List.mem_flatMap]

/-- What passes from a visit to those in its bodies holds of all of them. -/
theorem forall_mem_all (h : ∀ v, P v → ∀ w ∈ v.children, P w) (hv : P v) : ∀ w ∈ v.all, P w := by
  induction v using Visit.induction with
  | h v ih =>
    intro w hw
    obtain rfl | ⟨u, hu, hwu⟩ := mem_all.1 hw
    · exact hv
    · exact ih u hu (h v hv u hu) w hwu

/-! ### Relations that run through a compilation -/

variable {R : Compilation → Compilation → Prop}

/-- The relation leads from one state to another past visits: up to the first of them, from each to
the next, and on from the last. -/
def Past (R : Compilation → Compilation → Prop) (c : Compilation) :
    List Visit → Compilation → Prop
  | [], c' => R c c'
  | w :: ws, c' => R c w.state ∧ Past R w.after ws c'

/-- The relation holds of all steps between the visits of statements. -/
structure Glue (R : Compilation → Compilation → Prop) : Prop where
  refl : ∀ c, R c c
  trans : ∀ {c c' c''}, R c c' → R c' c'' → R c c''
  contexts : ∀ c spans, R c { c with contexts := spans }
  enterBlock : ∀ c, R c (Emit.enterBlock c)
  functionHead : ∀ name params c, R c (Emit.functionHead name params c).2
  closeFunction : ∀ name c, R c (Emit.closeFunction name c).2
  branchHead : ∀ condition hasElse c, R c (Emit.branchHead (Emit.part condition) hasElse c).2
  closeBranch : ∀ id slot c, R c (Emit.closeBranch id slot c)
  endBranches : ∀ id c, R c (Emit.endBranches id c)

namespace Glue

theorem before (h : Glue R) (hc : R c c') (hw : Past R c' ws c'') : Past R c ws c'' := by
  cases ws with
  | nil => exact h.trans hc hw
  | cons w ws => exact ⟨h.trans hc hw.1, hw.2⟩

theorem append (h : Glue R) {ws' : List Visit} (hw : Past R c ws c') (hw' : Past R c' ws' c'') :
    Past R c (ws ++ ws') c'' := by
  induction ws generalizing c with
  | nil => exact h.before hw hw'
  | cons w ws ih => exact ⟨hw.1, ih hw.2⟩

theorem after (h : Glue R) (hw : Past R c ws c') (hc : R c' c'') : Past R c ws c'' := by
  rw [← List.append_nil ws]
  exact h.append hw hc

theorem sequence (h : Glue R) (body : List Statement) (c : Compilation) :
    Past R c (sequence body c) (Emit.statements body c) := by
  induction body generalizing c with
  | nil => exact h.refl c
  | cons s rest ih => exact ⟨h.refl c, ih _⟩

theorem alternative (h : Glue R) {run : Compilation → Compilation}
    (hrun : Emit.alternative otherwise = some run) (c : Compilation) :
    Past R c (ofAlternative otherwise c) (run c) := by
  cases otherwise with
  | none => simp [Emit.alternative] at hrun
  | block body =>
    simp only [Emit.alternative] at hrun
    cases hrun
    exact h.sequence body c
  | branch condition body otherwise span =>
    rw [alternative_branch] at hrun
    cases hrun
    exact ⟨h.refl c, h.refl _⟩

theorem handled_function (h : Glue R) (name : Named) (params : List Named) (body : List Statement)
    (span : Span) (c : Compilation) :
    let v : Visit := ⟨.function name params body span, c⟩
    Past R v.start v.children v.handled.2 := by
  intro v
  have hhead := h.functionHead name params v.start
  simp only [v, Visit.children, handled, Emit.statement, Emit.function_apply]
  cases hc : Emit.functionHead name params v.start with
  | mk r c₁ =>
    rw [hc] at hhead
    cases r with
    | none => exact hhead
    | some _ =>
      refine h.before (h.trans hhead (h.enterBlock c₁)) ?_
      exact h.after (h.sequence body _) (h.closeFunction name _)

theorem handled_branch (h : Glue R) (condition : Expr) (body : List Statement)
    (otherwise : Alternative) (span : Span) (c : Compilation) :
    let v : Visit := ⟨.branch condition body otherwise span, c⟩
    Past R v.start v.children v.handled.2 := by
  intro v
  have hhead := h.branchHead condition (Emit.alternative otherwise).isSome v.start
  simp only [v, Visit.children, handled, Emit.statement, Emit.branch_apply]
  cases hc : Emit.branchHead (Emit.part condition) (Emit.alternative otherwise).isSome v.start with
  | mk r c₁ =>
    rw [hc] at hhead
    cases r with
    | none => exact hhead
    | some id =>
      refine h.before (h.trans hhead (h.enterBlock c₁)) ?_
      refine h.append (h.after (h.sequence body _) (h.closeBranch id "SUBSTACK" _)) ?_
      cases hrun : Emit.alternative otherwise with
      | none =>
        have hnone : otherwise = .none := by
          cases otherwise <;> simp_all [Emit.alternative]
        rw [hnone]
        exact h.endBranches id _
      | some run =>
        refine h.before (h.enterBlock _) (h.after (h.alternative hrun _) ?_)
        exact h.trans (h.closeBranch id "SUBSTACK2" _) (h.endBranches id _)

/-- It leads past the visits in the bodies of a statement. -/
theorem children (h : Glue R) (hb : v.hasBodies = true) : Past R v.state v.children v.after := by
  have hhandled : Past R v.start v.children v.handled.2 := by
    obtain ⟨s, c⟩ := v
    cases s with
    | function name params body span => exact h.handled_function name params body span c
    | branch condition body otherwise span => exact h.handled_branch condition body otherwise span c
    | _ => cases hb
  exact h.after (h.before (h.contexts _ _) hhandled) (h.contexts _ _)

/-- If it holds of the visits on its way, it holds of the states between them. -/
theorem through (h : Glue R) (hp : Past R c ws c') (hw : ∀ w ∈ ws, R w.state w.after) :
    R c c' ∧ ∀ w ∈ ws, R c w.state ∧ R w.after c' := by
  induction ws generalizing c with
  | nil => exact ⟨hp, by simp⟩
  | cons w ws ih =>
    obtain ⟨hfirst, hrest⟩ := List.forall_mem_cons.1 hw
    obtain ⟨hend, hbetween⟩ := ih hp.2 hrest
    have hover : R c w.after := h.trans hp.1 hfirst
    refine ⟨h.trans hover hend, List.forall_mem_cons.2 ⟨⟨hp.1, hend⟩, fun u hu => ?_⟩⟩
    exact ⟨h.trans hover (hbetween u hu).1, (hbetween u hu).2⟩

/-- If it holds of the visits without bodies, it holds of every visit, and leads to and on from
every visit below. -/
theorem visit (h : Glue R) (hw : ∀ w ∈ v.all, w.hasBodies = false → R w.state w.after) :
    ∀ w ∈ v.all, R v.state w.state ∧ R w.state w.after ∧ R w.after v.after := by
  induction v using Visit.induction with
  | h v ih =>
    have ih : ∀ u ∈ v.children,
        ∀ w ∈ u.all, R u.state w.state ∧ R w.state w.after ∧ R w.after u.after :=
      fun u hu => ih u hu fun w hwu => hw w (mem_all.2 (.inr ⟨u, hu, hwu⟩))
    have hpast : Past R v.state v.children v.after := by
      cases hb : v.hasBodies with
      | true => exact h.children hb
      | false =>
        rw [children_of_not_hasBodies hb]
        exact hw v (mem_all.2 (.inl rfl)) hb
    obtain ⟨hover, hbetween⟩ := h.through hpast fun u hu => (ih u hu u (mem_all.2 (.inl rfl))).2.1
    intro w hwv
    obtain rfl | ⟨u, hu, hwu⟩ := mem_all.1 hwv
    · exact ⟨h.refl _, hover, h.refl _⟩
    · obtain ⟨hto, hfrom⟩ := hbetween u hu
      obtain ⟨hto', hself, hfrom'⟩ := ih u hu w hwu
      exact ⟨h.trans hto hto', hself, h.trans hfrom' hfrom⟩

/-- The same for a whole program, when it also holds of the start of the main script. -/
theorem program (h : Glue R) (hentry : ∀ c, R c (c.setTarget c.target.ensureEntry))
    {statements : List Statement}
    (hw : ∀ w ∈ (program statements c).flatMap all, w.hasBodies = false → R w.state w.after) :
    R c (Emit.program statements c) ∧
      ∀ w ∈ (Visit.program statements c).flatMap all,
        R c w.state ∧ R w.state w.after ∧ R w.after (Emit.program statements c) := by
  have hpast : Past R c (Visit.program statements c) (Emit.program statements c) := by
    clear hw
    induction statements generalizing c with
    | nil => exact h.refl c
    | cons s rest ih =>
      refine ⟨?_, ih⟩
      simp only
      split
      · exact hentry c
      · exact h.refl c
  have hvisit : ∀ v ∈ Visit.program statements c,
      ∀ w ∈ v.all, R v.state w.state ∧ R w.state w.after ∧ R w.after v.after :=
    fun v hv => h.visit fun w hwv => hw w (List.mem_flatMap.2 ⟨v, hv, hwv⟩)
  obtain ⟨hover, hbetween⟩ := h.through hpast
    fun v hv => (hvisit v hv v (mem_all.2 (.inl rfl))).2.1
  refine ⟨hover, fun w hwp => ?_⟩
  obtain ⟨v, hv, hwv⟩ := List.mem_flatMap.1 hwp
  obtain ⟨hto, hfrom⟩ := hbetween v hv
  obtain ⟨hto', hself, hfrom'⟩ := hvisit v hv w hwv
  exact ⟨h.trans hto hto', hself, h.trans hfrom' hfrom⟩

end Glue

end Visit
end ScriptBlocks
