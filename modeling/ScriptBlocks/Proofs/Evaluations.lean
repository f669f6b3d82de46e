import ScriptBlocks.Proofs.Visits

/-!
# Evaluations of expressions

An operator or a call writes its block and opens a scope for the slots of that block before its
operands are compiled. Afterwards it closes the scope, also when an operand was given up, and ends
with its checks. Statements do the same with their expressions. Operands are compiled from left to
right up to the first one that is given up, so the evaluations of an expression are a tree: every
evaluation has those of its operands below it.
-/
namespace ScriptBlocks

variable {e : Expr} {w v : Evaluation} {P : Evaluation → Prop}

namespace Emit

/-- How compilation goes on after operands: the input scopes to be closed, and the steps that then
follow. -/
structure Frame (α : Type) where
  scopes : Nat
  close : List Operand → Emit α

/-- What follows one operand in one scope. -/
def Frame.one (close : Operand → Emit α) : Frame α where
  scopes := 1
  close values :=
    match values with
    | [value] => close value
    | _ => giveUp

/-- What follows two operands in one scope. -/
def Frame.two (close : Operand → Operand → Emit α) : Frame α where
  scopes := 1
  close values :=
    match values with
    | [left, right] => close left right
    | _ => giveUp

/-- Opens a scope for the slots of a block. -/
def openInputs (id : String) (start : Nat) : Emit Unit :=
  modifyTarget (·.enter (.inputs id start))

/-- Closes the innermost scopes. -/
def leave : Nat → Compilation → Compilation
  | 0, c => c
  | scopes + 1, c => leave scopes (c.setTarget c.target.exit.2)

/-- Compiles operands between what comes before and what comes after them. -/
def around (opening : Emit (Frame α)) (operands : Emit (List Operand)) : Emit α :=
  fun c =>
    match opening c with
    | (none, c) => (none, c)
    | (some frame, c) =>
      match operands c with
      | (none, c) => (none, leave frame.scopes c)
      | (some values, c) => frame.close values (leave frame.scopes c)

theorem around_bind (m : Emit β) (f : β → Emit (Frame α)) (operands : Emit (List Operand)) :
    around (m >>= f) operands = m >>= fun b => around (f b) operands := by
  funext c
  simp only [around, bind_apply]
  obtain ⟨_ | b, c'⟩ := m c <;> rfl

theorem around_fail (problem : Problem) (span : Span) (operands : Emit (List Operand)) :
    around (fail problem span : Emit (Frame α)) operands = fail problem span := rfl

theorem around_ite {p : Prop} [Decidable p] (m m' : Emit (Frame α))
    (operands : Emit (List Operand)) :
    around (ite p m m') operands = ite p (around m operands) (around m' operands) := by
  split <;> rfl

section

variable (id : String) (start : Nat)

/-- Operands in one scope. -/
theorem within_all (operands : Emit (List Operand)) (close : List Operand → Emit α) :
    within (.inputs id start) operands >>= close =
      around (openInputs id start >>= fun _ => pure ⟨1, close⟩) operands := by
  funext c
  simp only [around, bind_apply, within, openInputs, modifyTarget, modify, pure_apply]
  obtain ⟨_ | values, c'⟩ := operands (c.setTarget (c.target.enter (.inputs id start))) <;> rfl

theorem within_one (e : Expr) (close : Operand → Emit α) :
    within (.inputs id start) (part e).operand >>= close =
      around (openInputs id start >>= fun _ => pure (.one close)) (expressions [e]) := by
  funext c
  simp only [around, bind_apply, within, openInputs, modifyTarget, modify, pure_apply, expressions,
    part, Part.operand]
  obtain ⟨_ | value, c'⟩ :=
    operand e.span (expression e) (c.setTarget (c.target.enter (.inputs id start))) <;> rfl

theorem operands_two (left right : Expr) (close : Operand × Operand → Emit α) :
    operands id (part left) (part right) >>= close =
      around (openInputs id 0 >>= fun _ => pure (.two fun l r => close (l, r)))
        (expressions [left, right]) := by
  funext c
  simp only [around, bind_apply, operands, within, openInputs, modifyTarget, modify, pure_apply,
    expressions, part, Part.operand]
  obtain ⟨_ | l, c₁⟩ :=
    operand left.span (expression left) (c.setTarget (c.target.enter (.inputs id 0)))
  · rfl
  · simp only
    obtain ⟨_ | r, c₂⟩ := operand right.span (expression right) c₁ <;> rfl

end

/-- What an operator does before its operands: it places its block and opens the scope for them. -/
def placing (make : String → Block) (start : Nat) (frame : String → Frame α) : Emit (Frame α) := do
  let id ← place make
  openInputs id start
  pure (frame id)

def signOpening (symbol : String) (span : Span) : Emit (Frame Operand) :=
  placing (.join · (.payload (.text symbol)) .empty) 1 fun id => .one fun value => do
    expectType .number [value] span
    modifyTarget (·.modifyBlock id ({ · with inferred := .number }))
    pure (.block id)

/-- What an operator with one operand does before it. -/
def unaryOpening (op : UnaryOp) (opSpan span : Span) : Emit (Frame Operand) :=
  match op with
  | .not =>
    placing (.negation · .empty) 0 fun id => .one fun value => do
      expectType .boolean [value] opSpan
      pure (.block id)
  | .plus => signOpening "+" span
  | .minus => signOpening "-" span

def strictOpening (make : String → SlotValue → SlotValue → Block) : Emit (Frame Operand) :=
  placing (make · .empty .empty) 0 fun id => .two fun l r => do
    hintType .number [l, r]
    pure (.block id)

/-- The operands of an inequality go into the equality that it negates. -/
def inequalityOpening : Emit (Frame Operand) := do
  let equals ← register fun id => .equals id .empty .empty
  let id ← place fun id => .negation id (.block equals)
  openInputs equals 0
  pure (.two fun l r => do
    hintEqual l r
    pure (.block id))

/-- The operands go into the strict comparison, from where they are copied in the end. -/
def inclusiveOpening (make : String → SlotValue → SlotValue → Block) : Emit (Frame Operand) := do
  let primary ← register fun id => make id .empty .empty
  let equals ← register fun id => .equals id .empty .empty
  let id ← place fun id => .logic id .or (.block primary) (.block equals)
  openInputs primary 0
  pure (.two fun l r => do
    hintType .number [l, r]
    let t ← target
    copySlots equals (((t.block? primary).map (·.inputs.entries)).getD [])
    pure (.block id))

/-- What an operator with two operands does before them. -/
def binaryOpening (op : BinaryOp) (opSpan right : Span) : Emit (Frame Operand) :=
  match op with
  | .arithmetic op =>
    placing (.arithmetic · op .empty .empty) 0 fun id => .two fun l r => do
      warnDivisionByZero op r right
      expectType .number [l, r] opSpan
      pure (.block id)
  | .logic op =>
    placing (.logic · op .empty .empty) 0 fun id => .two fun l r => do
      expectType .boolean [l, r] opSpan
      pure (.block id)
  | .comparison .equal =>
    placing (.equals · .empty .empty) 0 fun id => .two fun l r => do
      hintEqual l r
      pure (.block id)
  | .comparison .notEqual => inequalityOpening
  | .comparison .less => strictOpening .less
  | .comparison .greater => strictOpening .greater
  | .comparison .lessOrEqual => inclusiveOpening .less
  | .comparison .greaterOrEqual => inclusiveOpening .greater

/-- What a call inside an expression does before its arguments. -/
def callOpening (name : String) (span : Span) (spans : List Span) : Emit (Frame Operand) := do
  let p ← callee name spans.length span
  if p.returnType = .void then fail (.typeMismatch "value" "void") span
  else
    log (.calling name)
    let id ← register p.callBlock
    openInputs id 0
    pure ⟨1, fun values => do
      expectArguments values p.arguments.values spans
      modifyTarget (runBefore · id)
      pure (.call name p.returnVariable)⟩

end Emit

namespace Expr

/-- The expressions whose values go into the slots of the block of an expression. -/
def operands : Expr → List Expr
  | .unary _ _ e _ => [e]
  | .binary _ _ left right _ => [left, right]
  | .call _ arguments _ => arguments
  | .literal _ _ => []
  | .name _ _ => []
  | .paren _ _ => []

/-- What an expression compiles before its operands. Those without operands have no such part. -/
def opening : Expr → Emit (Emit.Frame Operand)
  | .unary op opSpan e _ => Emit.unaryOpening op opSpan e.span
  | .binary op opSpan _ right _ => Emit.binaryOpening op opSpan right.span
  | .call f arguments span => Emit.callOpening f span (arguments.map Expr.span)
  | .literal _ _ => Emit.giveUp
  | .name _ _ => Emit.giveUp
  | .paren _ _ => Emit.giveUp

/-- Whether an expression is an operator or a call. -/
def isComposite : Expr → Bool
  | .unary _ _ _ _ => true
  | .binary _ _ _ _ _ => true
  | .call _ _ _ => true
  | .literal _ _ => false
  | .name _ _ => false
  | .paren _ _ => false

end Expr

namespace Emit

theorem placing_one (make : String → Block) (start : Nat) (e : Expr)
    (close : String → Operand → Emit α) :
    (place make >>= fun id => within (.inputs id start) (part e).operand >>= close id) =
      around (placing make start fun id => .one (close id)) (expressions [e]) := by
  rw [placing, around_bind]
  simp only [within_one]

theorem placing_two (make : String → Block) (left right : Expr)
    (close : String → Operand × Operand → Emit α) :
    (place make >>= fun id => operands id (part left) (part right) >>= close id) =
      around (placing make 0 fun id => .two fun l r => close id (l, r))
        (expressions [left, right]) := by
  rw [placing, around_bind]
  simp only [operands_two]

theorem unary_eq (op : UnaryOp) (opSpan : Span) (e : Expr) :
    unary op opSpan (part e) = around (unaryOpening op opSpan e.span) (expressions [e]) := by
  cases op with
  | not => exact placing_one _ 0 e _
  | plus => exact placing_one _ 1 e _
  | minus => exact placing_one _ 1 e _

theorem inequality_eq (left right : Expr) :
    inequality (part left) (part right) =
      around inequalityOpening (expressions [left, right]) := by
  rw [inequality, inequalityOpening, around_bind]
  refine congrArg (register _ >>= ·) (funext fun equals => ?_)
  rw [around_bind]
  exact congrArg (place _ >>= ·) (funext fun id => operands_two equals left right _)

theorem inclusive_eq (make : String → SlotValue → SlotValue → Block) (left right : Expr) :
    inclusive make (part left) (part right) =
      around (inclusiveOpening make) (expressions [left, right]) := by
  rw [inclusive, inclusiveOpening, around_bind]
  refine congrArg (register _ >>= ·) (funext fun primary => ?_)
  rw [around_bind]
  refine congrArg (register _ >>= ·) (funext fun equals => ?_)
  rw [around_bind]
  exact congrArg (place _ >>= ·) (funext fun id => operands_two primary left right _)

theorem binary_eq (op : BinaryOp) (opSpan : Span) (left right : Expr) :
    binary op opSpan (part left) (part right) =
      around (binaryOpening op opSpan right.span) (expressions [left, right]) := by
  cases op with
  | arithmetic op => exact placing_two _ left right _
  | logic op => exact placing_two _ left right _
  | comparison op =>
    cases op with
    | equal => exact placing_two _ left right _
    | notEqual => exact inequality_eq left right
    | less => exact placing_two _ left right _
    | greater => exact placing_two _ left right _
    | lessOrEqual => exact inclusive_eq .less left right
    | greaterOrEqual => exact inclusive_eq .greater left right

theorem call_eq (name : String) (span : Span) (arguments : Emit (List Operand))
    (spans : List Span) :
    call name span arguments spans = around (callOpening name span spans) arguments := by
  rw [call, callOpening, around_bind]
  refine congrArg (callee _ _ _ >>= ·) (funext fun p => ?_)
  rw [around_ite, around_fail]
  congr 1
  rw [around_bind]
  refine congrArg (log _ >>= ·) (funext fun _ => ?_)
  rw [around_bind]
  refine congrArg (register _ >>= ·) (funext fun id => ?_)
  rw [callArguments, bind_assoc]
  exact within_all id 0 arguments _

/-- An operator or a call compiles its operands between its opening and its end. -/
theorem expression_eq (h : e.isComposite = true) :
    expression e = around e.opening (expressions e.operands) := by
  cases e with
  | unary op opSpan e span =>
    rw [expression]
    exact unary_eq op opSpan e
  | binary op opSpan left right span =>
    rw [expression]
    exact binary_eq op opSpan left right
  | call name arguments span =>
    rw [expression]
    exact call_eq name span _ _
  | literal value span => cases h
  | name x span => cases h
  | paren inner span => cases h

/-! ### Statements -/

/-- What a declaration does before its value is compiled. -/
def declareOpening (named : Named) (span : Span) : Emit (Frame Unit) := do
  log (.declaring named.name)
  let c ← get
  if (c.target.builtVariable? named.name).isSome || c.isArgument named.name then
    fail (.variableRedeclared named.name) named.span
  else if isFunctionName c named.name then
    fail (.variableNamedLikeFunction named.name) named.span
  else
    let ref ← onTarget (·.createVariable named.name .unresolved)
    placing (.setVariable · ref .empty) 0 fun _ => .one (settleVariable named.name · span)

/-- The end of a plain assignment. -/
def checkAssigned (v : Variable) (span : Span) (operand : Operand) : Emit Unit := do
  match ← assertType v.type [operand] with
  | none => pure ()
  | some mismatch => fail (.wrongAssignment mismatch.found.name v.type.name) span

/-- An assignment that combines values opens two scopes, one inside of the other. -/
def combinedOpening (v : Variable) (id : String) (op : ArithmeticOp) (opSpan span : Span) :
    Emit (Frame Unit) := do
  if v.type ≠ .number then fail (.wrongAssignment "number" v.type.name) opSpan
  else
    let inner ← onTarget (·.drawBlock)
    openInputs id 0
    modifyTarget (·.addBlock (.arithmetic inner op (.payload (.variable v.ref)) .empty))
    openInputs inner 0
    let close (operand : Operand) : Emit Unit := do
      warnDivisionByZero op operand span
      expectType .number [operand] span
    pure { Frame.one close with scopes := 2 }

/-- What an assignment does before its value is compiled. -/
def assignOpening (named : Named) (op : Option ArithmeticOp) (opSpan span : Span) :
    Emit (Frame Unit) := do
  log (.assigning named.name op)
  let t ← target
  match t.builtVariable? named.name with
  | none => fail (.undefinedVariable named.name) named.span
  | some v =>
    let id ← place fun id => .setVariable id v.ref .empty
    match op with
    | none => do
      openInputs id 0
      pure (.one (checkAssigned v span))
    | some op => combinedOpening v id op opSpan span

/-- What a `return` does before its value is compiled. -/
def yieldOpening (span valueSpan : Span) : Emit (Frame Unit) := do
  let c ← get
  match c.function with
  | none => fail .strayReturn span
  | some signature =>
    log (.returning signature.name)
    let ref ← returnVariable signature
    placing (.setVariable · ref .empty) 0 fun _ =>
      .one (storeResult signature.name ref · valueSpan)

/-- What a call does before its arguments are compiled. -/
def callStatementOpening (name : String) (span : Span) (spans : List Span) : Emit (Frame Unit) := do
  let p ← callee name spans.length span
  log (.calling name)
  placing p.callBlock 0 fun _ => ⟨1, fun values => expectArguments values p.arguments.values spans⟩

/-- What a conditional does before its condition is compiled. -/
def branchOpening (hasElse : Bool) (span : Span) : Emit (Frame String) := do
  log .branching
  placing (fun id => if hasElse then .branchElse id .empty else .branch id .empty) 0 fun id =>
    .one fun operand => do
      expectType .boolean [operand] span
      pure id

theorem declare_eq (named : Named) (e : Expr) :
    declare named (part e) = around (declareOpening named e.span) (expressions [e]) := by
  rw [declare, declareOpening, around_bind]
  refine congrArg (log _ >>= ·) (funext fun _ => ?_)
  rw [around_bind]
  refine congrArg (get >>= ·) (funext fun c => ?_)
  simp only [around_ite, around_fail]
  rw [around_bind]
  exact congrArg (fun m => ite _ _ (ite _ _ (onTarget _ >>= m))) (funext fun ref => placing_one _ 0 e _)

theorem combined_eq (v : Variable) (id : String) (op : ArithmeticOp) (opSpan : Span) (e : Expr) :
    assignCombined v id op opSpan (part e) =
      around (combinedOpening v id op opSpan e.span) (expressions [e]) := by
  rw [assignCombined, combinedOpening, around_ite, around_fail]
  congr 1
  rw [around_bind]
  refine congrArg (onTarget _ >>= ·) (funext fun inner => ?_)
  funext c
  simp only [around, bind_apply, within, openInputs, modifyTarget, modify, pure_apply, expressions,
    part, Part.operand, leave]
  generalize operand e.span (expression e) _ = r
  obtain ⟨_ | value, c'⟩ := r <;> rfl

theorem assign_eq (named : Named) (op : Option ArithmeticOp) (opSpan : Span) (e : Expr) :
    assign named op opSpan (part e) =
      around (assignOpening named op opSpan e.span) (expressions [e]) := by
  rw [assign, assignOpening, around_bind]
  refine congrArg (log _ >>= ·) (funext fun _ => ?_)
  rw [around_bind]
  refine congrArg (target >>= ·) (funext fun t => ?_)
  cases t.builtVariable? named.name with
  | none => rfl
  | some v =>
    simp only
    rw [around_bind]
    refine congrArg (place _ >>= ·) (funext fun id => ?_)
    cases op with
    | none => exact within_one id 0 e _
    | some op => exact combined_eq v id op opSpan e

theorem yield_eq (span : Span) (e : Expr) :
    yield span (part e) = around (yieldOpening span e.span) (expressions [e]) := by
  rw [yield, yieldOpening, around_bind]
  refine congrArg (get >>= ·) (funext fun c => ?_)
  cases c.function with
  | none => rfl
  | some signature =>
    simp only
    rw [around_bind]
    refine congrArg (log _ >>= ·) (funext fun _ => ?_)
    rw [around_bind]
    exact congrArg (returnVariable signature >>= ·) (funext fun ref => placing_one _ 0 e _)

theorem callStatement_eq (name : String) (span : Span) (arguments : Emit (List Operand))
    (spans : List Span) :
    callStatement name span arguments spans =
      around (callStatementOpening name span spans) arguments := by
  rw [callStatement, callStatementOpening, around_bind]
  refine congrArg (callee _ _ _ >>= ·) (funext fun p => ?_)
  rw [around_bind]
  refine congrArg (log _ >>= ·) (funext fun _ => ?_)
  rw [placing, around_bind]
  exact congrArg (place _ >>= ·) (funext fun id => within_all id 0 arguments _)

theorem branchHead_eq (e : Expr) (hasElse : Bool) :
    branchHead (part e) hasElse =
      (around (branchOpening hasElse e.span) (expressions [e]) >>= fun id => do
        modify fun c => { c with branchDepth := c.branchDepth + 1 }
        pure id) := by
  rw [branchHead, branchOpening, around_bind, bind_assoc]
  refine congrArg (log _ >>= ·) (funext fun _ => ?_)
  rw [← placing_one, bind_assoc]
  refine congrArg (place _ >>= ·) (funext fun id => ?_)
  rw [bind_assoc]
  refine congrArg (within _ _ >>= ·) (funext fun operand => ?_)
  rw [bind_assoc]
  rfl

end Emit

/-- An expression and the state in which it is compiled. -/
structure Evaluation where
  expr : Expr
  state : Compilation

namespace Evaluation

/-- What compiling the expression results in. -/
def result (v : Evaluation) : Option Operand × Compilation :=
  Emit.expression v.expr v.state

/-- What compiling the expression into the next slot results in. -/
def filled (v : Evaluation) : Option Operand × Compilation :=
  Emit.operand v.expr.span (Emit.expression v.expr) v.state

/-- The evaluations of operands, up to the first one that is given up. -/
def sequence : List Expr → Compilation → List Evaluation
  | [], _ => []
  | e :: es, c =>
    ⟨e, c⟩ ::
      match filled ⟨e, c⟩ with
      | (some _, c) => sequence es c
      | (none, _) => []

/-- The evaluations directly inside of this one. -/
def children (v : Evaluation) : List Evaluation :=
  match v.expr with
  | .paren inner _ => [⟨inner, v.state⟩]
  | e =>
    match e.opening v.state with
    | (some _, c) => sequence e.operands c
    | (none, _) => []

theorem mem_of_mem_sequence {es : List Expr} {c : Compilation} (h : w ∈ sequence es c) :
    w.expr ∈ es := by
  induction es generalizing c with
  | nil => simp [sequence] at h
  | cons e es ih =>
    obtain rfl | h := List.mem_cons.1 h
    · exact List.mem_cons_self
    · split at h
      · exact List.mem_cons_of_mem e (ih h)
      · simp at h

theorem sizeOf_lt_of_mem_operands {e' : Expr} (h : e' ∈ e.operands) : sizeOf e' < sizeOf e := by
  cases e with
  | unary op opSpan e span =>
    obtain rfl := List.mem_singleton.1 h
    simp
    omega
  | binary op opSpan left right span =>
    obtain rfl | h := List.mem_cons.1 h
    · simp
      omega
    · obtain rfl := List.mem_singleton.1 h
      simp
      omega
  | call name arguments span =>
    have : sizeOf e' < sizeOf arguments := List.sizeOf_lt_of_mem h
    simp only [Expr.call.sizeOf_spec]
    omega
  | literal value span => simp [Expr.operands] at h
  | name x span => simp [Expr.operands] at h
  | paren inner span => simp [Expr.operands] at h

/-- Evaluations go down the tree of the expression. -/
theorem sizeOf_lt_of_mem_children (h : w ∈ v.children) : sizeOf w.expr < sizeOf v.expr := by
  unfold children at h
  split at h
  next inner span hv =>
    obtain rfl := List.mem_singleton.1 h
    rw [hv]
    simp
    omega
  next e hne =>
    split at h
    next => exact sizeOf_lt_of_mem_operands (mem_of_mem_sequence h)
    next => simp at h

/-- What holds of an evaluation whenever it holds of those inside of it holds of all. -/
theorem induction (h : ∀ v, (∀ w ∈ v.children, P w) → P v) (v : Evaluation) : P v :=
  h v fun w _ => induction h w
termination_by sizeOf v.expr
decreasing_by exact sizeOf_lt_of_mem_children ‹_›

/-- The evaluation itself and all those inside of it. -/
def all (v : Evaluation) : List Evaluation :=
  v :: v.children.attach.flatMap fun w => w.1.all
termination_by sizeOf v.expr
decreasing_by exact sizeOf_lt_of_mem_children w.2

theorem mem_all : w ∈ v.all ↔ w = v ∨ ∃ u ∈ v.children, w ∈ u.all := by
  rw [all, List.flatMap_subtype (g := all) (by simp), List.unattach_attach, List.mem_cons,
    List.mem_flatMap]

/-- What passes from an evaluation to those inside of it holds of all of them. -/
theorem forall_mem_all (h : ∀ v, P v → ∀ w ∈ v.children, P w) (hv : P v) : ∀ w ∈ v.all, P w := by
  induction v using induction with
  | h v ih =>
    intro w hw
    obtain rfl | ⟨u, hu, hwu⟩ := mem_all.1 hw
    · exact hv
    · exact ih u hu (h v hv u hu) w hwu

end Evaluation

/-- The expressions whose values the block of a statement reads. -/
def Statement.operands : Statement → List Expr
  | .declare _ value _ => [value]
  | .assign _ _ _ value _ => [value]
  | .yield value _ => [value]
  | .call _ arguments _ => arguments
  | .branch condition _ _ _ => [condition]
  | .function _ _ _ _ => []
  | .directive _ _ => []
  | .comment _ _ => []

/-- What a statement does before these expressions are compiled. -/
def Statement.prepare : Statement → Emit Unit
  | .declare named value _ => do
    let _ ← Emit.declareOpening named value.span
  | .assign named op opSpan value _ => do
    let _ ← Emit.assignOpening named op opSpan value.span
  | .yield value span => do
    let _ ← Emit.yieldOpening span value.span
  | .call f arguments span => do
    let _ ← Emit.callStatementOpening f span (arguments.map Expr.span)
  | .branch condition _ otherwise _ => do
    let _ ← Emit.branchOpening (Emit.alternative otherwise).isSome condition.span
  | .function _ _ _ _ => Emit.giveUp
  | .directive _ _ => Emit.giveUp
  | .comment _ _ => Emit.giveUp

/-- The evaluations of the expressions of a statement, with those inside of them. -/
def Visit.evaluations (v : Visit) : List Evaluation :=
  match v.statement.prepare v.start with
  | (some _, c) => (Evaluation.sequence v.statement.operands c).flatMap Evaluation.all
  | (none, _) => []

/-- All evaluations in the compilation of a source text. -/
def Evaluation.ofSource (source sprite : String) : List Evaluation :=
  (Visit.ofSource source sprite).flatMap Visit.evaluations

end ScriptBlocks
