import ScriptBlocks.Compile.Statement
import ScriptBlocks.Proofs.Nodes
import ScriptBlocks.Proofs.Steps
import ScriptBlocks.Proofs.Visits

/-!
# Laws of compilation steps

A property of steps that passes through `bind` and holds of the primitive steps holds of every
expression. Here the primitive steps are listed once, and the induction over expressions is made
once for all such properties. A property may depend on where something is reported: then it need
hold only of the places in a set, and of the expressions that lie there.
-/
namespace ScriptBlocks

variable {s s' : Signature} {t t' : Target} {m : Emit Operand} {e : Expr} {named : Named}
variable {params : List Named}

/-- What of the function being compiled its body decides only by `return`. -/
def Signature.outline (s : Signature) : String × Option VariableRef :=
  (s.name, s.returnVariable)

theorem Signature.settle_outline {name : String} {type : ValueType}
    (h : s.settle name type t = .ok (s', t')) :
    s'.outline = s.outline ∧ t'.tables = (t.note type).tables := by
  obtain ⟨rfl, rfl, -⟩ | ⟨p, -, -, rfl, rfl⟩ := settle_cases h
  · exact ⟨rfl, rfl⟩
  · refine ⟨rfl, ?_⟩
    rw [Target.foldl_modifyBlock_eq]
    rfl

/-- The names that belong to a function: its own and those of its arguments. -/
def Signature.names (s : Signature) : String × List String :=
  (s.name, s.arguments.keys)

theorem Signature.settle_names {name : String} {type : ValueType}
    (h : s.settle name type t = .ok (s', t')) : s'.names = s.names := by
  obtain ⟨rfl, -, -⟩ | ⟨p, -, -, rfl, -⟩ := settle_cases h
  · rfl
  · simp [names]

namespace Inference

/-- What inference leaves as it is. -/
def outline (i : Inference) : String × Table Variable × Option (String × Option VariableRef) :=
  (i.target.name, i.target.vars, i.function.map Signature.outline)

theorem outline_assertOperand {i i' : Inference} {type : ValueType} {operand : Operand}
    (h : i.assertOperand type operand = .ok i') : i'.outline = i.outline := by
  obtain rfl | ⟨id, rfl⟩ | ⟨f, rfl⟩ | ⟨argument, s, s', t', hs, hsettle, rfl⟩ :=
    assertOperand_cases h
  · rfl
  · rfl
  · rfl
  · obtain ⟨houtline, htables⟩ := Signature.settle_outline hsettle
    have hname : t'.name = i.target.name := (congrArg Target.name htables :)
    have hvars : t'.vars = i.target.vars := (congrArg Target.vars htables :)
    simp only [outline, hname, hvars, hs, Option.map_some, houtline]

theorem outline_assert (i : Inference) (type : ValueType) (operands : List Operand) :
    (i.assert type operands).2.outline = i.outline :=
  assert_preserves (P := fun i' => i'.outline = i.outline)
    (fun h ha => (outline_assertOperand ha).trans h) id rfl operands

theorem outline_hint (i : Inference) (type : ValueType) (operands : List Operand) :
    (i.hint type operands).outline = i.outline :=
  hint_preserves (P := fun i' => i'.outline = i.outline)
    (fun h ha => (outline_assertOperand ha).trans h) rfl operands

theorem isSome_of_outline {i i' : Inference} (h : i'.outline = i.outline) :
    i'.function.isSome = i.function.isSome := by
  have hf := congrArg (fun o => o.2.2.isSome) h
  simpa [outline] using hf

/-- The names of functions, and those of the function being compiled. -/
def names (i : Inference) : List String × Option (String × List String) :=
  (i.target.functions.keys, i.function.map Signature.names)

variable {i i' : Inference} {type : ValueType} {operand : Operand}

theorem names_assertOperand (h : i.assertOperand type operand = .ok i') : i'.names = i.names := by
  obtain rfl | ⟨id, rfl⟩ | ⟨f, rfl⟩ | ⟨argument, s, s', t', hs, hsettle, rfl⟩ :=
    assertOperand_cases h
  · rfl
  · rfl
  · simp [names, Target.modifyFunction]
  · have htables := (Signature.settle_outline hsettle).2
    have hfunctions : t'.functions = i.target.functions := (congrArg Target.functions htables :)
    simp [names, hs, hfunctions, Signature.settle_names hsettle]

theorem names_assert (i : Inference) (type : ValueType) (operands : List Operand) :
    (i.assert type operands).2.names = i.names :=
  assert_preserves (P := fun i' => i'.names = i.names)
    (fun h ha => (names_assertOperand ha).trans h) id rfl operands

theorem names_hint (i : Inference) (type : ValueType) (operands : List Operand) :
    (i.hint type operands).names = i.names :=
  hint_preserves (P := fun i' => i'.names = i.names)
    (fun h ha => (names_assertOperand ha).trans h) rfl operands

end Inference

@[simp] theorem Emit.tables_runBefore (t : Target) (call : String) :
    (runBefore t call).tables = t.tables := by
  simp only [runBefore]
  split
  next => exact t.tables_insertBefore _ call
  next => rfl

/-- Errors that are reported for what they are. -/
def Problem.isFault (problem : Problem) : Bool :=
  !problem.isWarning && problem ≠ .missingOperand

/-- Warnings about code. The other one says that errors do not count. -/
def Problem.isAdvice (problem : Problem) : Bool :=
  problem.isWarning && problem ≠ .errorsIgnored

/-- Gives an argument that no use has given a type the type of strings, if it still can. -/
def Signature.settleString? (s : Signature) (argument : String) (t : Target) :
    Option Signature × Target :=
  match s.settle argument .string t with
  | .ok (settled, t') => (some settled, t')
  | .error _ => (none, t)

theorem Signature.tables_settleString? (s : Signature) (argument : String) (t : Target) :
    (s.settleString? argument t).2.tables = t.tables := by
  simp only [settleString?]
  split
  next h => rw [(settle_outline h).2, t.note_eq (by decide)]
  next => rfl

namespace Emit

theorem parameters_eq (signature : Signature) (parameter : Named) (rest : List Named) :
    parameters signature (parameter :: rest) = (do
      let t ← target
      if parameter.name = signature.name then fail .argumentNamedLikeFunction parameter.span
      else if (t.variableNamed? parameter.name).isSome then
        fail .argumentNamedLikeVariable parameter.span
      else if signature.hasArgument parameter.name then
        fail (.argumentRepeated parameter.name) parameter.span
      else
        let id ← onTarget fun t => (t.freshId "argument", t.draw)
        parameters
          { signature with
            arguments := signature.arguments.insert parameter.name ⟨id, .unresolved, []⟩ }
          rest) := by
  funext c
  rw [parameters_cons]
  simp only [bind_apply, target]
  split
  next => rfl
  next =>
    split
    next => rfl
    next => split <;> rfl

/-- How arguments are settled after the first. -/
def settleRest (signature : Signature) (span : Span) (argument : String) (rest : List String) :
    Option Signature → Emit Signature
  | some settled => do
    log (.settled argument signature.name .string)
    settleArguments settled span rest
  | none => settleArguments signature span rest

theorem settleArguments_eq_bind (signature : Signature) (span : Span) (argument : String)
    (rest : List String) :
    settleArguments signature span (argument :: rest) = (do
      report (.untypedArgument argument signature.name) span
      let settled? ← onTarget (signature.settleString? argument)
      settleRest signature span argument rest settled?) := by
  funext c
  rw [settleArguments_cons]
  simp only [bind_apply, report, modify, onTarget, Signature.settleString?]
  cases signature.settle argument .string
      (c.report (.untypedArgument argument signature.name) (some span)).target with
  | ok settled => rfl
  | error _ =>
    simp only [Compilation.setTarget_target]
    rfl

end Emit

/-- A text that is put into a wording before another one is a name from the source, or has no braces. -/
def Problem.Quotes (N : String → Prop) (problem : Problem) : Prop :=
  ∀ text ∈ problem.arguments.dropLast, N text ∨ '\x7b' ∉ text.toList

theorem ValueType.quotes_name {N : String → Prop} (type : ValueType) (found : String) :
    (Problem.typeMismatch type.name found).Quotes N := by
  simp only [Problem.Quotes, Problem.arguments]
  cases type <;> simp [ValueType.name]

/-- A property that the steps of expressions have which report at places in `Q` only, and which quote
names in `N` only. -/
structure Emit.LawAt (Q : Span → Prop) (N : String → Prop) (P : {α : Type} → Emit α → Prop) :
    Prop where
  pure : ∀ {α : Type} (a : α), P (pure a : Emit α)
  bind : ∀ {α β : Type} {m : Emit α} {f : α → Emit β}, P m → (∀ a, P (f a)) → P (m >>= f)
  get : P get
  target : P target
  log : ∀ event, P (log event)
  warn : ∀ {problem : Problem}, problem.isAdvice = true → ∀ {span}, Q span →
    (hq : problem.Quotes N := by exact List.forall_mem_nil _) → P (report problem span)
  fail : ∀ {α : Type} {problem : Problem}, problem.isFault = true → ∀ {span}, Q span →
    (hq : problem.Quotes N := by exact List.forall_mem_nil _) → P (fail problem span : Emit α)
  expectedType : ∀ operand, P (expectedType operand)
  assertType : ∀ type operands, P (assertType type operands)
  hintType : ∀ type operands, P (hintType type operands)
  /-- Blocks are placed, wired or copied. -/
  onGraph : ∀ {α : Type} {f : Target → α × Target}, (∀ t, (f t).2.tables = t.tables) →
    P (onTarget f)
  track : ∀ name id, P (modify fun c => { c with function := c.function.map (·.track name id) })
  trackCopies : ∀ copies, P (trackCopies copies)
  depth : ∀ f : Nat → Nat, P (modify fun c => { c with branchDepth := f c.branchDepth })
  within : ∀ {α : Type} {m : Emit α}, P m → ∀ scope, P (within scope m)
  operand : ∀ {m : Emit Operand}, P m → ∀ {span}, Q span → P (operand span m)

theorem Emit.trackCopies_function (copies : List String) (c : Compilation) :
    (trackCopies copies c).2.function.map Signature.outline = c.function.map Signature.outline ∧
      (trackCopies copies c).2.function.map Signature.names = c.function.map Signature.names := by
  simp only [trackCopies, modify]
  generalize c.function = function
  induction copies generalizing function with
  | nil => exact ⟨rfl, rfl⟩
  | cons id copies ih =>
    rw [List.foldl_cons, (ih _).1, (ih _).2]
    split
    next => cases function <;> simp [Signature.outline, Signature.names, Signature.track]
    next => exact ⟨rfl, rfl⟩

/-- A relation to which expressions keep, whatever they do to the state. -/
structure Emit.Follows (Q : Span → Prop) (N : String → Prop)
    (R : Compilation → Compilation → Prop) : Prop where
  refl : ∀ c, R c c
  trans : ∀ {c c' c''}, R c c' → R c' c'' → R c c''
  log : ∀ c event, R c (c.log event)
  report : ∀ c {problem span}, problem ≠ .errorsIgnored → Q span → problem.Quotes N →
    R c (c.report problem (some span))
  graph : ∀ {c t}, t.tables = c.target.tables → R c (c.setTarget t)
  inference : ∀ {c i}, i.outline = c.inference.outline → i.names = c.inference.names →
    R c (c.setInference i)
  function : ∀ {c f}, f.map Signature.outline = c.function.map Signature.outline →
    f.map Signature.names = c.function.map Signature.names → R c { c with function := f }
  depth : ∀ c n, R c { c with branchDepth := n }

namespace Emit.Follows

variable {Q : Span → Prop} {N : String → Prop} {R : Compilation → Compilation → Prop}
variable {α β : Type}

theorem bind (h : Follows Q N R) {m : Emit α} {f : α → Emit β} (hm : ∀ c, R c (m c).2)
    (hf : ∀ a c, R c (f a c).2) (c : Compilation) : R c ((m >>= f) c).2 := by
  have hfirst := hm c
  rw [bind_apply]
  cases hc : m c with
  | mk r c' =>
    rw [hc] at hfirst
    cases r with
    | none => exact hfirst
    | some a => exact h.trans hfirst (hf a c')

theorem modifyFunction (h : Follows Q N R) {g : Signature → Signature}
    (ho : ∀ s, (g s).outline = s.outline) (hn : ∀ s, (g s).names = s.names) (c : Compilation) :
    R c { c with function := c.function.map g } := by
  refine h.function ?_ ?_ <;> cases c.function <;> simp [ho, hn]

theorem trackCopies (h : Follows Q N R) (copies : List String) (c : Compilation) :
    R c (trackCopies copies c).2 :=
  h.function (trackCopies_function copies c).1 (trackCopies_function copies c).2

theorem operand (h : Follows Q N R) (hm : ∀ c, R c (m c).2) {span : Span} (hs : Q span)
    (c : Compilation) : R c (operand span m c).2 := by
  have hfirst := hm c
  simp only [Emit.operand]
  cases hc : m c with
  | mk r c' =>
    rw [hc] at hfirst
    cases r with
    | some value => exact h.trans hfirst (h.graph (c'.target.tables_assign value))
    | none =>
      simp only
      split
      next => exact h.trans hfirst (h.report c' (by simp) hs (List.forall_mem_nil _))
      next => exact hfirst

/-- What steps do to the state is a property that passes through `bind`. -/
theorem law (h : Follows Q N R) : LawAt Q N fun m => ∀ c, R c (m c).2 where
  pure _ := h.refl
  bind := h.bind
  get := h.refl
  target := h.refl
  log event c := h.log c event
  warn ha _ hs hq c := h.report c (by rintro rfl; cases ha) hs hq
  fail hf _ hs hq c := h.report c (by rintro rfl; cases hf) hs hq
  expectedType _ := h.refl
  assertType type operands c :=
    h.inference (c.inference.outline_assert type operands) (c.inference.names_assert type operands)
  hintType type operands c :=
    h.inference (c.inference.outline_hint type operands) (c.inference.names_hint type operands)
  onGraph hf c := h.graph (hf c.target)
  track _ _ := h.modifyFunction (fun _ => rfl) fun _ => by simp [Signature.names, Signature.track]
  trackCopies := h.trackCopies
  depth _ c := h.depth c _
  within hm scope c := by
    have henter : R c (c.setTarget (c.target.enter scope)) := h.graph rfl
    exact h.trans (h.trans henter (hm _)) (h.graph rfl)
  operand hm _ hs := h.operand hm hs

end Emit.Follows

/-- The steps of a part have the property, and the part lies where they may report. -/
def Emit.Part.Lawful (Q : Span → Prop) (P : {α : Type} → Emit α → Prop) (part : Part) : Prop :=
  Q part.span ∧ P part.emit

namespace Emit.LawAt

variable {Q : Span → Prop} {N : String → Prop} {P : {α : Type} → Emit α → Prop}
variable {part left right : Part} {span opSpan : Span}

theorem modifyGraph (h : LawAt Q N P) {f : Target → Target} (hf : ∀ t, (f t).tables = t.tables) :
    P (modifyTarget f) :=
  h.onGraph (f := fun t => ((), f t)) hf

theorem place (h : LawAt Q N P) (make : String → Block) : P (place make) :=
  h.onGraph fun t => t.draw.tables_addBlock _

theorem register (h : LawAt Q N P) (make : String → Block) : P (register make) :=
  h.onGraph fun t => t.draw.tables_register _

theorem expectType (h : LawAt Q N P) (hs : Q span) (type : ValueType) (operands : List Operand) :
    P (expectType type operands span) := by
  refine h.bind (h.assertType type operands) fun mismatch => ?_
  cases mismatch with
  | none => exact h.pure ()
  | some mismatch => exact h.fail rfl hs (mismatch.expected.quotes_name _)

theorem name (h : LawAt Q N P) (hs : Q span) (n : String) : P (name n span) := by
  rw [name_eq_place]
  refine h.bind h.get fun c => ?_
  split
  next => exact h.pure _
  next => exact h.bind (h.place _) fun id => h.bind (h.track n id) fun _ => h.pure _
  next => exact h.fail rfl hs

theorem warnDivisionByZero (h : LawAt Q N P) (hs : Q span) (op : ArithmeticOp) (divisor : Operand) :
    P (warnDivisionByZero op divisor span) := by
  simp only [Emit.warnDivisionByZero]
  split
  next =>
    split
    next => exact h.warn rfl hs
    next => exact h.pure ()
  next => exact h.pure ()

theorem operands (h : LawAt Q N P) (hl : Part.Lawful Q P left) (hr : Part.Lawful Q P right)
    (anchor : String) : P (operands anchor left right) := by
  refine h.within ?_ _
  exact h.bind (h.operand hl.2 hl.1) fun _ => h.bind (h.operand hr.2 hr.1) fun _ => h.pure _

theorem slot (h : LawAt Q N P) (hp : Part.Lawful Q P part) (scope : Scope) :
    P (Emit.within scope part.operand) :=
  h.within (h.operand hp.2 hp.1) scope

theorem negation (h : LawAt Q N P) (ho : Q opSpan) (hp : Part.Lawful Q P part) : P (negation opSpan part) :=
  h.bind (h.place _) fun _ => h.bind (h.slot hp _) fun _ =>
    h.bind (h.expectType ho _ _) fun _ => h.pure _

theorem sign (h : LawAt Q N P) (hp : Part.Lawful Q P part) (symbol : String) : P (sign symbol part) :=
  h.bind (h.place _) fun _ => h.bind (h.slot hp _) fun _ =>
    h.bind (h.expectType hp.1 _ _) fun _ => h.bind (h.modifyGraph fun _ => rfl) fun _ => h.pure _

theorem unary (h : LawAt Q N P) (ho : Q opSpan) (hp : Part.Lawful Q P part) (op : UnaryOp) :
    P (unary op opSpan part) := by
  cases op with
  | plus => exact h.sign hp "+"
  | minus => exact h.sign hp "-"
  | not => exact h.negation ho hp

theorem arithmetic (h : LawAt Q N P) (ho : Q opSpan) (hl : Part.Lawful Q P left) (hr : Part.Lawful Q P right)
    (op : ArithmeticOp) : P (arithmetic op opSpan left right) :=
  h.bind (h.place _) fun _ => h.bind (h.operands hl hr _) fun _ =>
    h.bind (h.warnDivisionByZero hr.1 _ _) fun _ => h.bind (h.expectType ho _ _) fun _ => h.pure _

theorem logic (h : LawAt Q N P) (ho : Q opSpan) (hl : Part.Lawful Q P left) (hr : Part.Lawful Q P right)
    (op : LogicOp) : P (logic op opSpan left right) :=
  h.bind (h.place _) fun _ => h.bind (h.operands hl hr _) fun _ =>
    h.bind (h.expectType ho _ _) fun _ => h.pure _

theorem hintEqual (h : LawAt Q N P) (l r : Operand) : P (hintEqual l r) :=
  h.bind (h.expectedType l) fun _ => h.bind (h.expectedType r) fun _ =>
    h.bind (h.hintType _ _) fun _ => h.hintType _ _

theorem equality (h : LawAt Q N P) (hl : Part.Lawful Q P left) (hr : Part.Lawful Q P right) :
    P (equality left right) :=
  h.bind (h.place _) fun _ => h.bind (h.operands hl hr _) fun _ =>
    h.bind (h.hintEqual _ _) fun _ => h.pure _

theorem inequality (h : LawAt Q N P) (hl : Part.Lawful Q P left) (hr : Part.Lawful Q P right) :
    P (inequality left right) :=
  h.bind (h.register _) fun _ => h.bind (h.place _) fun _ => h.bind (h.operands hl hr _) fun _ =>
    h.bind (h.hintEqual _ _) fun _ => h.pure _

theorem strict (h : LawAt Q N P) (hl : Part.Lawful Q P left) (hr : Part.Lawful Q P right)
    (make : String → SlotValue → SlotValue → Block) : P (strict make left right) :=
  h.bind (h.place _) fun _ => h.bind (h.operands hl hr _) fun _ =>
    h.bind (h.hintType _ _) fun _ => h.pure _

theorem copySlot (h : LawAt Q N P) (twin slot : String) (input : Input) :
    P (copySlot twin slot input) := by
  simp only [Emit.copySlot]
  split
  next => exact h.modifyGraph fun _ => rfl
  next child _ =>
    refine h.bind (h.onGraph fun t => t.tables_duplicate child twin) fun copies => ?_
    refine h.bind (h.trackCopies copies) fun _ => ?_
    split
    next => exact h.modifyGraph fun _ => rfl
    next => exact h.pure ()

theorem copySlots (h : LawAt Q N P) (twin : String) (slots : List (String × Input)) :
    P (copySlots twin slots) := by
  induction slots with
  | nil => exact h.pure ()
  | cons slot slots ih => exact h.bind (h.copySlot twin slot.1 slot.2) fun _ => ih

theorem inclusive (h : LawAt Q N P) (hl : Part.Lawful Q P left) (hr : Part.Lawful Q P right)
    (make : String → SlotValue → SlotValue → Block) : P (inclusive make left right) :=
  h.bind (h.register _) fun _ => h.bind (h.register _) fun _ => h.bind (h.place _) fun _ =>
    h.bind (h.operands hl hr _) fun _ => h.bind (h.hintType _ _) fun _ =>
      h.bind h.target fun _ => h.bind (h.copySlots _ _) fun _ => h.pure _

theorem binary (h : LawAt Q N P) (ho : Q opSpan) (hl : Part.Lawful Q P left) (hr : Part.Lawful Q P right)
    (op : BinaryOp) : P (binary op opSpan left right) := by
  cases op with
  | arithmetic op => exact h.arithmetic ho hl hr op
  | logic op => exact h.logic ho hl hr op
  | comparison op =>
    cases op with
    | equal => exact h.equality hl hr
    | notEqual => exact h.inequality hl hr
    | less => exact h.strict hl hr _
    | greater => exact h.strict hl hr _
    | lessOrEqual => exact h.inclusive hl hr _
    | greaterOrEqual => exact h.inclusive hl hr _

theorem expectArguments (h : LawAt Q N P) (values : List Operand) (arguments : List Argument)
    (spans : List Span) (hs : ∀ s ∈ spans, Q s) : P (expectArguments values arguments spans) := by
  fun_induction Emit.expectArguments values arguments spans with
  | case1 value values argument arguments span spans ih =>
    obtain ⟨hfirst, hrest⟩ := List.forall_mem_cons.1 hs
    exact h.bind (h.expectType hfirst _ _) fun _ => ih hrest
  | case2 => exact h.pure ()

theorem callee (h : LawAt Q N P) (hs : Q span) {name : String} (hn : N name) (given : Nat) :
    P (callee name given span) := by
  refine h.bind h.target fun t => ?_
  split
  next => exact h.fail rfl hs
  next p _ =>
    split
    next => exact h.pure _
    next =>
      have hdigits : '\x7b' ∉ Nat.toDigits 10 p.arguments.size := fun hd =>
        absurd (Nat.isDigit_of_mem_toDigits (by decide) (by decide) hd) (by decide)
      exact h.fail rfl hs (by simp [Problem.Quotes, Problem.arguments, hn, hdigits])

section Calls

variable {arguments : Emit (List Operand)} {spans : List Span}

theorem callArguments (h : LawAt Q N P) (ha : P arguments) (hs : ∀ s ∈ spans, Q s) (p : Procedure)
    (id : String) : P (callArguments p id arguments spans) :=
  h.bind (h.within ha _) fun _ => h.expectArguments _ _ _ hs

theorem callStatement (h : LawAt Q N P) (ha : P arguments) (hspan : Q span) (hs : ∀ s ∈ spans, Q s)
    {name : String} (hn : N name) : P (callStatement name span arguments spans) :=
  h.bind (h.callee hspan hn _) fun _ => h.bind (h.log _) fun _ => h.bind (h.place _) fun _ =>
    h.callArguments ha hs _ _

theorem call (h : LawAt Q N P) (ha : P arguments) (hspan : Q span) (hs : ∀ s ∈ spans, Q s)
    {name : String} (hn : N name) : P (call name span arguments spans) := by
  refine h.bind (h.callee hspan hn _) fun p => ?_
  split
  next => exact h.fail rfl hspan (by simp [Problem.Quotes, Problem.arguments])
  next =>
    refine h.bind (h.log _) fun _ => h.bind (h.register _) fun id => ?_
    refine h.bind (h.callArguments ha hs _ _) fun _ => ?_
    exact h.bind (h.modifyGraph fun t => tables_runBefore t id) fun _ => h.pure _

end Calls

mutual

/-- What holds of the primitive steps holds of expressions. -/
theorem expression (h : LawAt Q N P) : ∀ e : Expr, e.Everywhere Q N → P (expression e)
  | .literal _ _, _ => h.pure _
  | .name n _, he => h.name he.span n
  | .paren inner _, he => h.expression inner he.paren
  | .unary op _ e _, he => h.unary he.unary.1 ⟨he.unary.2.span, h.expression e he.unary.2⟩ op
  | .binary op _ left right _, he => by
    obtain ⟨ho, hl, hr⟩ := he.binary
    exact h.binary ho ⟨hl.span, h.expression left hl⟩ ⟨hr.span, h.expression right hr⟩ op
  | .call n arguments _, he => by
    obtain ⟨hspan, hn, ha⟩ := Expr.Everywhere.arguments he.ranges he.names
    exact h.call (h.expressions arguments ha) hspan (Expr.Everywhere.spans ha) hn

theorem expressions (h : LawAt Q N P) :
    ∀ es : List Expr, (∀ e ∈ es, e.Everywhere Q N) → P (expressions es)
  | [], _ => h.pure _
  | e :: es, he => by
    obtain ⟨hfirst, hrest⟩ := List.forall_mem_cons.1 he
    exact h.bind (h.operand (h.expression e hfirst) hfirst.span) fun _ =>
      h.bind (h.expressions es hrest) fun _ => h.pure _

end

theorem ofExpr (h : LawAt Q N P) (he : e.Everywhere Q N) : Part.Lawful Q P (Emit.part e) :=
  ⟨he.span, h.expression e he⟩

/-! ### Statements that only add blocks -/

theorem assignPlain (h : LawAt Q N P) (hp : Part.Lawful Q P part) (v : Variable) (id : String) :
    P (assignPlain v id part) := by
  refine h.bind (h.slot hp _) fun _ => h.bind (h.assertType _ _) fun mismatch => ?_
  cases mismatch with
  | none => exact h.pure ()
  | some mismatch => exact h.fail rfl hp.1 (mismatch.found.quotes_name _)

theorem assignCombined (h : LawAt Q N P) (ho : Q opSpan) (hp : Part.Lawful Q P part) (v : Variable)
    (id : String) (op : ArithmeticOp) : P (assignCombined v id op opSpan part) := by
  simp only [Emit.assignCombined]
  split
  next => exact h.fail rfl ho (ValueType.number.quotes_name _)
  next =>
    refine h.bind (h.onGraph fun _ => rfl) fun inner => ?_
    refine h.bind (h.within ?_ _) fun _ =>
      h.bind (h.warnDivisionByZero hp.1 _ _) fun _ => h.expectType hp.1 _ _
    exact h.bind (h.modifyGraph fun t => t.tables_addBlock _) fun _ => h.slot hp _

theorem assign (h : LawAt Q N P) (hn : Q named.span) (ho : Q opSpan) (hp : Part.Lawful Q P part)
    (op : Option ArithmeticOp) : P (assign named op opSpan part) := by
  refine h.bind (h.log _) fun _ => h.bind h.target fun t => ?_
  split
  next => exact h.fail rfl hn
  next v _ =>
    refine h.bind (h.place _) fun id => ?_
    cases op with
    | none => exact h.assignPlain hp v id
    | some op => exact h.assignCombined ho hp v id op

theorem declaredType (h : LawAt Q N P) (hs : Q span) (variableName : String) (type : ValueType) :
    P (declaredType variableName span type) := by
  simp only [Emit.declaredType]
  split
  next => exact h.bind (h.warn rfl hs) fun _ => h.pure _
  next => exact h.pure _
  next => exact h.pure _

theorem resultType (h : LawAt Q N P) (hs : Q span) (function : String) (type : ValueType) :
    P (resultType function span type) := by
  simp only [Emit.resultType]
  split
  next => exact h.bind (h.warn rfl hs) fun _ => h.pure _
  next => exact h.bind (h.warn rfl hs) fun _ => h.pure _
  next => exact h.pure _

theorem settleResult (h : LawAt Q N P) (hs : Q span)
    (hf : ∀ type : ValueType,
      P (modify fun c => { c with function := c.function.map ({ · with returnType := type }) }))
    (function : String) (operand : Operand) : P (settleResult function operand span) := by
  refine h.bind h.get fun c => ?_
  simp only
  split
  next => exact h.bind (h.expectType hs _ _) fun _ => h.pure _
  next =>
    exact h.bind (h.expectedType _) fun _ => h.bind (h.resultType hs _ _) fun _ =>
      h.bind (h.expectType hs _ _) fun _ => h.bind (hf _) fun _ => h.pure _

/-! ### Functions and branches -/

theorem parameters (h : LawAt Q N P) (signature : Signature) (hp : ∀ p ∈ params, Q p.span) :
    P (parameters signature params) := by
  induction params generalizing signature with
  | nil => exact h.pure _
  | cons parameter rest ih =>
    obtain ⟨hfirst, hrest⟩ := List.forall_mem_cons.1 hp
    rw [parameters_eq]
    refine h.bind h.target fun t => ?_
    split
    next => exact h.fail rfl hfirst
    next =>
      split
      next => exact h.fail rfl hfirst
      next =>
        split
        next => exact h.fail rfl hfirst
        next => exact h.bind (h.onGraph fun _ => rfl) fun _ => ih _ hrest

theorem functionSignature (h : LawAt Q N P) {name : Named} (hn : Q name.span)
    (hp : ∀ p ∈ params, Q p.span) : P (functionSignature name params) := by
  refine h.bind (h.log _) fun _ => h.bind h.get fun c => ?_
  split
  next => exact h.fail rfl hn
  next =>
    split
    next => exact h.fail rfl hn
    next =>
      split
      next => exact h.fail rfl hn
      next => exact h.bind (h.onGraph fun _ => rfl) fun _ => h.parameters _ hp

theorem settleArguments (h : LawAt Q N P) (hs : Q span) (signature : Signature)
    {names : List String} (hn : ∀ n ∈ names, N n) : P (settleArguments signature span names) := by
  induction names generalizing signature with
  | nil => exact h.pure _
  | cons argument rest ih =>
    obtain ⟨hfirst, hrest⟩ := List.forall_mem_cons.1 hn
    rw [settleArguments_eq_bind]
    refine h.bind (h.warn rfl hs (List.forall_mem_singleton.2 (.inl hfirst))) fun _ =>
      h.bind (h.onGraph fun t => signature.tables_settleString? argument t) fun settled? => ?_
    cases settled? with
    | some settled => exact h.bind (h.log _) fun _ => ih settled hrest
    | none => exact ih signature hrest

theorem branchHead (h : LawAt Q N P) (hp : Part.Lawful Q P part) (hasElse : Bool) :
    P (branchHead part hasElse) :=
  h.bind (h.log _) fun _ => h.bind (h.place _) fun _ => h.bind (h.slot hp _) fun _ =>
    h.bind (h.expectType hp.1 _ _) fun _ => h.bind (h.depth _) fun _ => h.pure _

theorem attachBranch (h : LawAt Q N P) (id slot : String) (scope : Scope) :
    P (attachBranch id slot scope) := by
  have hsub (t : Target) (head : String) : (t.setSubstack id slot head).tables = t.tables := by
    simp only [Target.setSubstack]
    split <;> rfl
  refine h.modifyGraph fun t => ?_
  cases scope.anchor? with
  | none | some last =>
    cases scope.head? with
    | none => rfl
    | some head => exact hsub t head

end Emit.LawAt

/-- A property that the steps of statements have too. It does not depend on what the target and the
function hold. -/
structure Emit.StatementLaw (Q : Span → Prop) (N : String → Prop)
    (P : {α : Type} → Emit α → Prop) : Prop extends LawAt Q N P where
  anyTarget : ∀ {α : Type} (f : Target → α × Target), P (onTarget f)
  anyFunction : ∀ {f : Signature → Signature}, (∀ s, (f s).names = s.names) →
    P (modify fun c => { c with function := c.function.map f })

namespace Emit.StatementLaw

variable {Q : Span → Prop} {N : String → Prop} {P : {α : Type} → Emit α → Prop}
variable {value : Part} {span : Span}

theorem modifyAny (h : StatementLaw Q N P) (f : Target → Target) : P (modifyTarget f) :=
  h.anyTarget fun t => ((), f t)

theorem declare (h : StatementLaw Q N P) (hn : Q named.span) (hv : value.Lawful Q P) :
    P (declare named value) := by
  refine h.bind (h.log _) fun _ => h.bind h.get fun c => ?_
  split
  next => exact h.fail rfl hn
  next =>
    split
    next => exact h.fail rfl hn
    next =>
      exact h.bind (h.anyTarget _) fun _ => h.bind (h.place _) fun _ =>
        h.bind (h.slot hv _) fun _ => h.bind (h.expectedType _) fun _ =>
          h.bind (h.declaredType hv.1 _ _) fun _ => h.bind (h.expectType hv.1 _ _) fun _ =>
            h.bind (h.modifyAny _) fun _ => h.log _

theorem returnVariable (h : StatementLaw Q N P) (signature : Signature) :
    P (returnVariable signature) := by
  simp only [Emit.returnVariable]
  split
  next => exact h.pure _
  next =>
    exact h.bind h.target fun _ => h.bind (h.anyTarget _) fun _ =>
      h.bind (h.anyFunction fun _ => rfl) fun _ => h.pure _

theorem yield (h : StatementLaw Q N P) (hs : Q span) (hv : value.Lawful Q P) :
    P (yield span value) := by
  refine h.bind h.get fun c => ?_
  split
  next => exact h.fail rfl hs
  next =>
    exact h.bind (h.log _) fun _ => h.bind (h.returnVariable _) fun _ =>
      h.bind (h.place _) fun _ => h.bind (h.slot hv _) fun _ =>
        h.bind (h.settleResult hv.1 (fun _ => h.anyFunction fun _ => rfl) _ _) fun _ =>
          h.bind (h.modifyAny _) fun _ =>
          h.bind (h.place _) fun _ => h.pure _

theorem comment (h : StatementLaw Q N P) (text : String) : P (comment text) :=
  h.bind (h.anyTarget _) fun _ => h.pure _

end Emit.StatementLaw

/-- A property that the steps of directives have too. -/
structure Emit.DirectiveLaw (Q : Span → Prop) (N : String → Prop)
    (P : {α : Type} → Emit α → Prop) : Prop extends StatementLaw Q N P where
  /-- Nothing is reported. -/
  project : ∀ {f : Project → Project}, (∀ p, (f p).diagnostics = p.diagnostics) →
    P (modify fun c => { c with project := f c.project })
  waive : ∀ {span}, Q span → P (report .errorsIgnored span)

theorem Emit.DirectiveLaw.directive {Q : Span → Prop} {N : String → Prop}
    {P : {α : Type} → Emit α → Prop} (h : DirectiveLaw Q N P) {name : Named}
    (hn : Q name.span) : P (directive name) := by
  have hswitch (p : Project) : ((p.switchTo? "Stage").getD p).diagnostics = p.diagnostics := by
    simp only [Project.switchTo?]
    split
    next => rfl
    next => split <;> rfl
  have hignore (p : Project) : { p with ignoreErrors := true }.diagnostics = p.diagnostics := rfl
  refine h.bind h.get fun c => ?_
  simp only
  split
  next => exact h.fail rfl hn
  next =>
    split
    next => exact h.bind (h.project hswitch) fun _ => h.log _
    next =>
      split
      next =>
        exact h.bind (h.project hignore) fun _ => h.bind (h.waive hn) fun _ => h.log _
      next => exact h.fail rfl hn

/-- A property that the steps of expressions have wherever they report. -/
abbrev Emit.Law (P : {α : Type} → Emit α → Prop) : Prop :=
  LawAt (fun _ => True) (fun _ => True) P

theorem Expr.Everywhere.trivial : e.Everywhere (fun _ => True) fun _ => True :=
  ⟨fun _ _ => ⟨True.intro, fun _ _ => True.intro⟩, fun _ _ => True.intro⟩

namespace Emit.Law

variable {P : {α : Type} → Emit α → Prop} {part : Part}

theorem fail (h : Law P) {α : Type} {problem : Problem} (hf : problem.isFault = true)
    (span : Span) : P (fail problem span : Emit α) :=
  LawAt.fail h hf trivial fun _ _ => .inl trivial

theorem operand (h : Law P) (hm : P m) (span : Span) : P (operand span m) :=
  LawAt.operand h hm trivial

theorem expectType (h : Law P) (type : ValueType) (operands : List Operand) (span : Span) :
    P (expectType type operands span) :=
  LawAt.expectType h trivial type operands

theorem callee (h : Law P) (name : String) (given : Nat) (span : Span) :
    P (callee name given span) :=
  LawAt.callee h trivial trivial given

theorem expression (h : Law P) (e : Expr) : P (expression e) :=
  LawAt.expression h e .trivial

theorem expressions (h : Law P) (es : List Expr) : P (expressions es) :=
  LawAt.expressions h es fun _ _ => .trivial

theorem callStatement (h : Law P) {arguments : Emit (List Operand)} (ha : P arguments)
    (name : String) (span : Span) (spans : List Span) :
    P (callStatement name span arguments spans) :=
  LawAt.callStatement h ha trivial (fun _ _ => trivial) trivial

theorem assign (h : Law P) (hp : P part.emit) (named : Named) (op : Option ArithmeticOp)
    (opSpan : Span) : P (assign named op opSpan part) :=
  LawAt.assign h trivial trivial ⟨trivial, hp⟩ op

theorem declaredType (h : Law P) (variableName : String) (span : Span) (type : ValueType) :
    P (declaredType variableName span type) :=
  LawAt.declaredType h trivial variableName type

theorem functionSignature (h : Law P) (name : Named) (params : List Named) :
    P (functionSignature name params) :=
  LawAt.functionSignature h trivial fun _ _ => trivial

theorem branchHead (h : Law P) (condition : Expr) (hasElse : Bool) :
    P (branchHead (Emit.part condition) hasElse) :=
  LawAt.branchHead h (LawAt.ofExpr h .trivial) hasElse

theorem settleArguments (h : Law P) (signature : Signature) (span : Span) (names : List String) :
    P (settleArguments signature span names) :=
  LawAt.settleArguments h trivial signature fun _ _ => trivial

end Emit.Law
end ScriptBlocks
