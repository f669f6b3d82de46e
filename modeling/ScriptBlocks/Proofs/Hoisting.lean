import ScriptBlocks.Proofs.Evaluations
import ScriptBlocks.Proofs.Names
import ScriptBlocks.Proofs.Outcomes

/-!
# Results of calls

The calls in the expressions of a statement run before its block, and a function leaves all its
results in one variable. The result of a call is read by the block of the statement or by the block
of an enclosing call. Between the two run exactly the calls in the expressions that stand after the
first, so the function is called again before its result is read exactly where one of these
expressions calls it.
-/
namespace ScriptBlocks

variable {content : Content} {mid before trees : List Tree} {otherwise : Alternative}
variable {outer : List Statement}
variable {s : Statement} {u tree : Tree} {left right : Content} {x sprite : String}
variable {rest : List Tree} {start : Option String} {body : List Statement} {p : Procedure}

mutual

/-- The calls in an expression with their arguments, in the order in which they run. -/
def Expr.calls : Expr → List (String × List Expr)
  | .literal _ _ => []
  | .name _ _ => []
  | .paren inner _ => inner.calls
  | .unary _ _ e _ => e.calls
  | .binary _ _ left right _ => left.calls ++ right.calls
  | .call f arguments _ => Expr.callsOf arguments ++ [(f, arguments)]

def Expr.callsOf : List Expr → List (String × List Expr)
  | [] => []
  | e :: es => e.calls ++ Expr.callsOf es

end

/-- The result of a call of `f` is an operand of an expression: only brackets and operators stand
around the call. The expressions `after` are evaluated after it. -/
inductive Expr.Awaits (f : String) (arguments : List Expr) : Expr → (after : List Expr) → Prop
  | call (span : Span) : Awaits f arguments (.call f arguments span) []
  | paren {e after} (span : Span) : Awaits f arguments e after →
      Awaits f arguments (.paren e span) after
  | unary {e after} (op : UnaryOp) (opSpan span : Span) : Awaits f arguments e after →
      Awaits f arguments (.unary op opSpan e span) after
  | left {e after} (op : BinaryOp) (opSpan : Span) (right : Expr) (span : Span) :
      Awaits f arguments e after → Awaits f arguments (.binary op opSpan e right span) (after ++ [right])
  | right {e after} (op : BinaryOp) (opSpan : Span) (left : Expr) (span : Span) :
      Awaits f arguments e after → Awaits f arguments (.binary op opSpan left e span) after

/-- The block that reads the expressions of a statement. -/
def Env.reader (env : Env) : Statement → Option Tree
  | .declare target value _ => some (env.set target.name (env.content value))
  | .assign target none _ value _ => some (env.set target.name (env.content value))
  | .assign target (some op) _ value _ =>
    some (env.set target.name (.script [.arithmetic op (env.name target.name) (env.content value)]))
  | .yield value _ => some (env.setResult (env.content value))
  | .call f arguments _ => some (env.call f arguments)
  | .branch condition body otherwise _ =>
    some (.branch (env.content condition) (env.script body) (env.alternative otherwise))
  | .function _ _ _ _ => none
  | .directive _ _ => none
  | .comment _ _ => none

/-- A statement calls `f`, and the result is read by the block `u`: that of the statement or that of
an enclosing call. The expressions `after` are evaluated in between. -/
inductive Statement.Awaits (env : Env) (s : Statement) (f : String) (arguments : List Expr) :
    (after : List Expr) → (u : Tree) → Prop
  | statement {earlier later after : List Expr} {e : Expr} {u : Tree} : env.reader s = some u →
      s.operands = earlier ++ e :: later → e.Awaits f arguments after →
      Awaits env s f arguments (after ++ later) u
  | call {earlier later after : List Expr} {e : Expr} {g : String} :
      (g, earlier ++ e :: later) ∈ Expr.callsOf s.operands → e.Awaits f arguments after →
      Awaits env s f arguments (after ++ later) (env.call g (earlier ++ e :: later))

/-! ### The order of calls -/

section

variable {env : Env} {f g : String} {arguments inner after : List Expr} {e : Expr}

mutual

theorem Env.calls_eq (env : Env) :
    (e : Expr) → env.calls e = e.calls.map fun call => env.call call.1 call.2
  | .literal _ _ => by simp only [Env.calls, Expr.calls, List.map_nil]
  | .name _ _ => by simp only [Env.calls, Expr.calls, List.map_nil]
  | .paren inner _ => by simp only [Env.calls, Expr.calls, Env.calls_eq env inner]
  | .unary _ _ e _ => by simp only [Env.calls, Expr.calls, Env.calls_eq env e]
  | .binary _ _ left right _ => by
    simp only [Env.calls, Expr.calls, Env.calls_eq env left, Env.calls_eq env right, List.map_append]
  | .call f arguments _ => by
    simp only [Env.calls, Expr.calls, Env.callsOf_eq env arguments, List.map_append, List.map_cons,
      List.map_nil]

theorem Env.callsOf_eq (env : Env) : (es : List Expr) →
    env.callsOf es = (Expr.callsOf es).map fun call => env.call call.1 call.2
  | [] => by simp only [Env.callsOf, Expr.callsOf, List.map_nil]
  | e :: es => by
    simp only [Env.callsOf, Expr.callsOf, Env.calls_eq env e, Env.callsOf_eq env es, List.map_append]

end

theorem Expr.callsOf_append (es es' : List Expr) :
    callsOf (es ++ es') = callsOf es ++ callsOf es' := by
  induction es with
  | nil => simp only [List.nil_append, callsOf]
  | cons e es ih => simp only [List.cons_append, callsOf, ih, List.append_assoc]

theorem Expr.Awaits.calls_eq (h : e.Awaits f arguments after) :
    ∃ before, e.calls = before ++ (f, arguments) :: callsOf after := by
  induction h with
  | call span => exact ⟨callsOf arguments, by simp only [calls, callsOf]⟩
  | paren span _ ih => simpa only [calls] using ih
  | unary op opSpan span _ ih => simpa only [calls] using ih
  | left op opSpan right span _ ih =>
    obtain ⟨before, hcalls⟩ := ih
    refine ⟨before, ?_⟩
    simp only [calls, hcalls, callsOf_append, callsOf, List.append_nil, List.append_assoc,
      List.cons_append]
  | right op opSpan left span _ ih =>
    obtain ⟨before, hcalls⟩ := ih
    exact ⟨left.calls ++ before, by simp only [calls, hcalls, List.append_assoc]⟩

/-- The calls of operands one of which awaits a result. -/
theorem Expr.Awaits.callsOf_eq (h : e.Awaits f arguments after) (earlier later : List Expr) :
    ∃ before, callsOf (earlier ++ e :: later) =
      before ++ (f, arguments) :: callsOf (after ++ later) := by
  obtain ⟨before, hcalls⟩ := h.calls_eq
  refine ⟨callsOf earlier ++ before, ?_⟩
  simp only [callsOf_append, callsOf, hcalls, List.append_assoc, List.cons_append]

mutual

/-- A call runs directly after those in its arguments. -/
theorem Expr.calls_of_mem : (e : Expr) → (g, inner) ∈ e.calls →
    callsOf inner ++ [(g, inner)] <:+: e.calls
  | .literal _ _, h => by simp [calls] at h
  | .name _ _, h => by simp [calls] at h
  | .paren e _, h => by
    simp only [calls] at h ⊢
    exact e.calls_of_mem h
  | .unary _ _ e _, h => by
    simp only [calls] at h ⊢
    exact e.calls_of_mem h
  | .binary _ _ left right _, h => by
    simp only [calls] at h ⊢
    obtain h | h := List.mem_append.1 h
    · exact (left.calls_of_mem h).trans (List.prefix_append _ _).isInfix
    · exact (right.calls_of_mem h).trans (List.suffix_append _ _).isInfix
  | .call f arguments _, h => by
    simp only [calls] at h ⊢
    obtain h | h := List.mem_append.1 h
    · exact (callsOf_of_mem arguments h).trans (List.prefix_append _ _).isInfix
    · cases List.mem_singleton.1 h
      exact List.infix_refl _

theorem Expr.callsOf_of_mem : (es : List Expr) → (g, inner) ∈ callsOf es →
    callsOf inner ++ [(g, inner)] <:+: callsOf es
  | [], h => by simp [callsOf] at h
  | e :: es, h => by
    simp only [callsOf] at h ⊢
    obtain h | h := List.mem_append.1 h
    · exact (e.calls_of_mem h).trans (List.prefix_append _ _).isInfix
    · exact (callsOf_of_mem es h).trans (List.suffix_append _ _).isInfix

end

/-- The result of a call is an operand of an argument of another. -/
def Expr.PassedOn (f : String) (arguments : List Expr) (calls : List (String × List Expr)) : Prop :=
  ∃ g earlier e later after, (g, earlier ++ e :: later) ∈ calls ∧ e.Awaits f arguments after

theorem Expr.PassedOn.mono {calls calls' : List (String × List Expr)} (hsub : calls ⊆ calls') :
    PassedOn f arguments calls → PassedOn f arguments calls' := by
  rintro ⟨g, earlier, e, later, after, hm, ha⟩
  exact ⟨g, earlier, e, later, after, hsub hm, ha⟩

mutual

/-- The result of a call is an operand of the expression or an argument of another call. -/
theorem Expr.awaits_of_mem : (e : Expr) → (f, arguments) ∈ e.calls →
    (∃ after, e.Awaits f arguments after) ∨ PassedOn f arguments e.calls
  | .literal _ _, h => by simp [calls] at h
  | .name _ _, h => by simp [calls] at h
  | .paren e span, h => by
    simp only [calls] at h ⊢
    exact (e.awaits_of_mem h).imp_left fun ha => ha.imp fun _ => .paren span
  | .unary op opSpan e span, h => by
    simp only [calls] at h ⊢
    exact (e.awaits_of_mem h).imp_left fun ha => ha.imp fun _ => .unary op opSpan span
  | .binary op opSpan left right span, h => by
    simp only [calls] at h ⊢
    obtain h | h := List.mem_append.1 h
    · refine (left.awaits_of_mem h).imp ?_ (.mono (List.subset_append_left _ _))
      rintro ⟨after, ha⟩
      exact ⟨_, ha.left op opSpan right span⟩
    · exact (right.awaits_of_mem h).imp (fun ha => ha.imp fun _ => .right op opSpan left span)
        (.mono (List.subset_append_right _ _))
  | .call g inner span, h => by
    simp only [calls] at h ⊢
    obtain h | h := List.mem_append.1 h
    · right
      obtain ⟨earlier, e', later, after, rfl, ha⟩ | hpassed := awaitsOf_of_mem inner h
      · exact ⟨g, earlier, e', later, after, List.mem_append_right _ (List.mem_singleton_self _), ha⟩
      · exact hpassed.mono (List.subset_append_left _ _)
    · cases List.mem_singleton.1 h
      exact .inl ⟨[], .call span⟩

theorem Expr.awaitsOf_of_mem : (es : List Expr) → (f, arguments) ∈ callsOf es →
    (∃ earlier e later after, es = earlier ++ e :: later ∧ e.Awaits f arguments after) ∨
      PassedOn f arguments (callsOf es)
  | [], h => by simp [callsOf] at h
  | e :: es, h => by
    simp only [callsOf] at h ⊢
    obtain h | h := List.mem_append.1 h
    · refine (e.awaits_of_mem h).imp ?_ (.mono (List.subset_append_left _ _))
      rintro ⟨after, ha⟩
      exact ⟨[], e, es, after, rfl, ha⟩
    · refine (awaitsOf_of_mem es h).imp ?_ (.mono (List.subset_append_right _ _))
      rintro ⟨earlier, e', later, after, rfl, ha⟩
      exact ⟨e :: earlier, e', later, after, rfl, ha⟩

end

/-- A statement with operands has a block that reads them. -/
theorem Env.exists_reader (env : Env) (h : s.operands ≠ []) : ∃ u, env.reader s = some u := by
  cases s with
  | assign target op opSpan value span => cases op <;> exact ⟨_, rfl⟩
  | function | directive | comment => exact absurd rfl h
  | _ => exact ⟨_, rfl⟩

/-- The calls in the operands run before this block. -/
theorem Env.statement_eq (h : env.reader s = some u) :
    ∃ rest, env.statement s = env.callsOf s.operands ++ u :: rest := by
  cases s with
  | assign target op opSpan value span =>
    cases op <;> cases h <;> exact ⟨[], by simp [Env.statement, Statement.operands, Env.callsOf]⟩
  | yield value span =>
    cases h
    exact ⟨[.stop], by simp [Env.statement, Statement.operands, Env.callsOf]⟩
  | function | directive | comment => cases h
  | _ =>
    cases h
    exact ⟨[], by simp [Env.statement, Statement.operands, Env.callsOf]⟩

theorem Statement.exists_awaits (env : Env) (h : (f, arguments) ∈ Expr.callsOf s.operands) :
    ∃ after u, s.Awaits env f arguments after u := by
  obtain ⟨earlier, e, later, after, hoperands, ha⟩ | ⟨g, earlier, e, later, after, hm, ha⟩ :=
    Expr.awaitsOf_of_mem s.operands h
  · obtain ⟨u, hu⟩ := env.exists_reader (s := s) (by simp [hoperands])
    exact ⟨_, u, .statement hu hoperands ha⟩
  · exact ⟨_, _, .call hm ha⟩

/-- A call among the calls of its statement. Its block is followed by those of the calls that run
before the result is read. -/
theorem Statement.Awaits.callsOf_eq (h : s.Awaits env f arguments after u) :
    ∃ before rest, Expr.callsOf s.operands =
      before ++ (f, arguments) :: (Expr.callsOf after ++ rest) ∧
        ∃ rest', env.statement s = (before.map fun call => env.call call.1 call.2) ++
          env.call f arguments :: (env.callsOf after ++ u :: rest') := by
  cases h with
  | @statement earlier later after e u hu hoperands he =>
    obtain ⟨rest, hs⟩ := Env.statement_eq hu
    obtain ⟨before, hcalls⟩ := he.callsOf_eq earlier later
    rw [← hoperands] at hcalls
    refine ⟨before, [], by rw [hcalls, List.append_nil], rest, ?_⟩
    rw [hs, Env.callsOf_eq, hcalls, Env.callsOf_eq]
    simp only [List.map_append, List.map_cons, List.append_assoc, List.cons_append]
  | @call earlier later after e g hm he =>
    obtain ⟨before, hcalls⟩ := he.callsOf_eq earlier later
    obtain ⟨before', rest, hof⟩ := Expr.callsOf_of_mem s.operands hm
    obtain ⟨u, hu⟩ := env.exists_reader (s := s) (by rintro hnil; simp [hnil, Expr.callsOf] at hm)
    obtain ⟨rest', hs⟩ := Env.statement_eq hu
    rw [hcalls] at hof
    refine ⟨before' ++ before, (g, earlier ++ e :: later) :: rest, ?_,
      (rest.map fun call => env.call call.1 call.2) ++ u :: rest', ?_⟩
    · rw [← hof]
      simp only [List.append_assoc, List.cons_append, List.nil_append]
    · rw [hs, Env.callsOf_eq, ← hof, Env.callsOf_eq]
      simp only [List.map_append, List.map_cons, List.append_assoc, List.cons_append, List.nil_append]

/-- A function that a statement calls once is not called again before its result is read. -/
theorem Statement.Awaits.not_again (h : s.Awaits env f arguments after u)
    (honce : ((Expr.callsOf s.operands).map Prod.fst).count f = 1) :
    ¬ ∃ call ∈ Expr.callsOf after, call.1 = f := by
  rintro ⟨call, hm, hf⟩
  obtain ⟨before, rest, hcalls, -⟩ := h.callsOf_eq
  have hagain : 0 < ((Expr.callsOf after).map Prod.fst).count f :=
    List.count_pos_iff.2 (List.mem_map.2 ⟨call, hm, hf⟩)
  rw [hcalls] at honce
  simp only [List.map_append, List.map_cons, List.count_append, List.count_cons_self] at honce
  omega

end

/-! ### References to results -/

mutual

/-- A block refers to a variable, in one of its slots or in a block below. -/
inductive Tree.Uses (ref : VariableRef) : Tree → Prop
  | slot {opcode : Opcode} {fields : List (String × Field)} {mutation : Option Mutation}
      {slots : List (String × Content)} {name : String} {content : Content} :
      (name, content) ∈ slots → content.Uses ref → Tree.Uses ref (.node opcode fields mutation slots)

inductive Content.Uses (ref : VariableRef) : Content → Prop
  | variable : Content.Uses ref (.payload (.variable ref))
  | block {tree : Tree} : tree.Uses ref → Content.Uses ref (.script [tree])

end

section

variable {env : Env} {f : String} {arguments after : List Expr} {ref : VariableRef}

theorem Env.unary_uses (op : UnaryOp) {operand : Content} (h : operand.Uses ref) :
    (Env.unary op operand).Uses ref := by
  cases op with
  | not => exact .slot (List.mem_singleton_self _) h
  | plus | minus => exact .slot (List.mem_cons_of_mem _ (List.mem_singleton_self _)) h

theorem Tree.relation_uses (opcode : Opcode) (h : left.Uses ref ∨ right.Uses ref) :
    (Tree.relation opcode left right).Uses ref := by
  obtain h | h := h
  · exact .slot List.mem_cons_self h
  · exact .slot (List.mem_cons_of_mem _ (List.mem_singleton_self _)) h

theorem Tree.arithmetic_uses (op : ArithmeticOp) (h : left.Uses ref ∨ right.Uses ref) :
    (Tree.arithmetic op left right).Uses ref := by
  obtain h | h := h
  · exact .slot List.mem_cons_self h
  · exact .slot (List.mem_cons_of_mem _ (List.mem_singleton_self _)) h

theorem Env.binary_uses (op : BinaryOp) (h : left.Uses ref ∨ right.Uses ref) :
    (Env.binary op left right).Uses ref := by
  cases op with
  | arithmetic op => exact Tree.arithmetic_uses op h
  | logic op => exact Tree.relation_uses _ h
  | comparison op =>
    cases op with
    | equal | less | greater => exact Tree.relation_uses _ h
    | notEqual => exact .slot (List.mem_singleton_self _) (.block (Tree.relation_uses _ h))
    | lessOrEqual | greaterOrEqual =>
      exact Tree.relation_uses _ (.inl (.block (Tree.relation_uses _ h)))

/-- An expression that awaits the result of a call refers to the variable for it. -/
theorem Expr.Awaits.uses {e : Expr} (h : e.Awaits f arguments after)
    (hresult : (env.callee f).returnVariable = some ref) : (env.content e).Uses ref := by
  induction h with
  | call span =>
    simp only [Env.content, Env.resultOf, hresult, Option.getD_some]
    exact .variable
  | paren span _ ih => simpa only [Env.content] using ih
  | unary op opSpan span _ ih =>
    simp only [Env.content]
    exact .block (Env.unary_uses op ih)
  | left op opSpan right span _ ih =>
    simp only [Env.content]
    exact .block (Env.binary_uses op (.inl ih))
  | right op opSpan left span _ ih =>
    simp only [Env.content]
    exact .block (Env.binary_uses op (.inr ih))

theorem Tree.mem_slotsNamed {names : List String} {contents : List Content} (h : content ∈ contents) :
    ∃ name, (name, content) ∈ slotsNamed names contents := by
  induction contents generalizing names with
  | nil => cases h
  | cons first rest ih =>
    obtain rfl | h := List.mem_cons.1 h
    · exact ⟨_, List.mem_cons_self⟩
    · obtain ⟨name, hm⟩ := ih h
      exact ⟨name, List.mem_cons_of_mem _ hm⟩

theorem Env.call_uses {e : Expr} (g : String) (hm : e ∈ arguments) (h : (env.content e).Uses ref) :
    (env.call g arguments).Uses ref := by
  obtain ⟨name, hslot⟩ := Tree.mem_slotsNamed (List.mem_map_of_mem hm)
  exact .slot hslot h

theorem Env.reader_uses {e : Expr} (hu : env.reader s = some u) (hm : e ∈ s.operands)
    (h : (env.content e).Uses ref) : u.Uses ref := by
  cases s with
  | declare | yield =>
    cases hu
    obtain rfl := List.mem_singleton.1 hm
    exact .slot (List.mem_singleton_self _) h
  | assign target op opSpan value span =>
    obtain rfl := List.mem_singleton.1 hm
    cases op with
    | none =>
      cases hu
      exact .slot (List.mem_singleton_self _) h
    | some op =>
      cases hu
      exact .slot (List.mem_singleton_self _) (.block (Tree.arithmetic_uses op (.inr h)))
  | call g arguments span =>
    cases hu
    exact Env.call_uses g hm h
  | branch condition body otherwise span =>
    cases hu
    obtain rfl := List.mem_singleton.1 hm
    cases halternative : env.alternative otherwise with
    | none => exact .slot List.mem_cons_self h
    | some trees => exact .slot List.mem_cons_self h
  | function | directive | comment => cases hu

theorem Statement.Awaits.uses (h : s.Awaits env f arguments after u)
    (hresult : (env.callee f).returnVariable = some ref) : u.Uses ref := by
  cases h with
  | statement hu hoperands he =>
    refine Env.reader_uses hu ?_ (he.uses hresult)
    rw [hoperands]
    exact List.mem_append_right _ List.mem_cons_self
  | call _ he =>
    exact Env.call_uses _ (List.mem_append_right _ List.mem_cons_self) (he.uses hresult)

end

/-! ### Chains in the graph -/

/-- Following `next` leads from a block through `ids` to another. -/
def Target.LeadsTo (t : Target) (x : String) : List String → String → Prop
  | [], y => (t.block? x).bind Block.next = some y
  | z :: ids, y => (t.block? x).bind Block.next = some z ∧ t.LeadsTo z ids y

/-- A block calls a procedure. -/
def Target.Calls (t : Target) (p : Procedure) (x : String) : Prop :=
  ∃ b, t.block? x = some b ∧ b.opcode = .call ∧
    b.mutation.bind Mutation.proccode = p.mutation.proccode

section

variable {env : Env} {t : Target} {S : String → Prop}

theorem Env.call_at {g : String} {arguments : List Expr} (h : (env.call g arguments).At t.look S x) :
    ∃ b, t.block? x = some b ∧ b.opcode = .call ∧
      b.mutation.bind Mutation.proccode = (env.callee g).mutation.proccode := by
  obtain ⟨v, hv, hopcode, -, hmutation, -⟩ := h
  obtain ⟨b, hb, rfl⟩ := Option.map_eq_some_iff.1 hv
  refine ⟨b, hb, hopcode, ?_⟩
  rw [show b.mutation = _ from hmutation]
  rfl

/-- The chain from a block to a later one of its script. -/
theorem exists_leadsTo {b : Block} (hx : t.block? x = some b)
    (h : ScriptAt t.look S b.next (mid ++ u :: rest)) :
    ∃ ids y, t.LeadsTo x ids y ∧ u.At t.look S y ∧
      List.Forall₂ (fun z tree => tree.At t.look S z) ids mid := by
  induction mid generalizing x b with
  | nil =>
    cases hnext : b.next with
    | none => simp [hnext, ScriptAt] at h
    | some y =>
      rw [hnext] at h
      exact ⟨[], y, by simp [Target.LeadsTo, hx, hnext], h.2.1, .nil⟩
  | cons tree mid ih =>
    cases hnext : b.next with
    | none => simp [hnext, ScriptAt] at h
    | some z =>
      rw [hnext] at h
      obtain ⟨-, htree, v, hv, hrest⟩ := h
      obtain ⟨b', hb', rfl⟩ := Option.map_eq_some_iff.1 hv
      obtain ⟨ids, y, hleads, hu, hids⟩ := ih hb' hrest
      exact ⟨z :: ids, y, ⟨by simp [hx, hnext], hleads⟩, hu, .cons htree hids⟩

/-- A block of a script, and what comes after it. -/
theorem scriptAt_split {look : String → Option View}
    (h : ScriptAt look S start (before ++ tree :: rest)) :
    ∃ x v, look x = some v ∧ tree.At look S x ∧ ScriptAt look S v.next rest := by
  induction before generalizing start with
  | nil =>
    cases start with
    | none => exact h.elim
    | some x =>
      obtain ⟨-, htree, v, hv, hrest⟩ := h
      exact ⟨x, v, hv, htree, hrest⟩
  | cons first before ih =>
    cases start with
    | none => exact h.elim
    | some x =>
      obtain ⟨-, -, v, -, hrest⟩ := h
      exact ih hrest

/-- A stretch of a script is a chain of blocks. -/
theorem exists_chain (h : ScriptAt t.look S start (before ++ tree :: (mid ++ u :: rest))) :
    ∃ x ids y, tree.At t.look S x ∧ t.LeadsTo x ids y ∧ u.At t.look S y ∧
      List.Forall₂ (fun z tree => tree.At t.look S z) ids mid := by
  obtain ⟨x, v, hv, htree, hrest⟩ := scriptAt_split h
  obtain ⟨b, hb, rfl⟩ := Option.map_eq_some_iff.1 hv
  obtain ⟨ids, y, hchain⟩ := exists_leadsTo hb hrest
  exact ⟨x, ids, y, htree, hchain⟩

end

/-! ### Scripts of a program -/

/-- What follows the first branch of a conditional, as statements. -/
def Alternative.statements : Alternative → List Statement
  | .none => []
  | .block body => body
  | .branch condition body otherwise span => [.branch condition body otherwise span]

/-- A script in the bodies of the conditionals of another, at any depth. -/
inductive Statement.Nested : (outer inner : List Statement) → Prop
  | refl (body : List Statement) : Nested body body
  | body {outer body inner : List Statement} {condition : Expr} {otherwise : Alternative}
      {span : Span} : .branch condition body otherwise span ∈ outer → Nested body inner →
      Nested outer inner
  | alternative {outer body inner : List Statement} {condition : Expr} {otherwise : Alternative}
      {span : Span} : .branch condition body otherwise span ∈ outer →
      Nested otherwise.statements inner → Nested outer inner

section

variable {env : Env} {look : String → Option View} {S : String → Prop}

theorem scriptAt_mem (h : ScriptAt look S start trees) (hm : tree ∈ trees) :
    ∃ x, tree.At look S x := by
  obtain ⟨before, rest, rfl⟩ := List.append_of_mem hm
  obtain ⟨x, -, -, hx, -⟩ := scriptAt_split h
  exact ⟨x, hx⟩

theorem slotsAt_mem {values : List (String × SlotValue)} {slots : List (String × Content)}
    {slot : String} (h : SlotsAt look S values slots) (hm : (slot, content) ∈ slots) :
    ∃ value, content.At look S value := by
  induction slots generalizing values with
  | nil => cases hm
  | cons first rest ih =>
    obtain ⟨value, values, rfl, hfirst, hrest⟩ := slotsAt_cons h
    obtain rfl | hm := List.mem_cons.1 hm
    · exact ⟨value, hfirst⟩
    · exact ih hrest hm

theorem scriptAt_of_body {value : SlotValue} (h : (Content.body trees).At look S value) :
    ∃ start, ScriptAt look S start trees := by
  cases trees with
  | nil => exact ⟨none, trivial⟩
  | cons tree trees =>
    cases value with
    | block x => exact ⟨some x, h⟩
    | empty => exact h.elim
    | payload => exact h.elim

theorem Env.alternative_eq (h : otherwise.statements ≠ []) :
    env.alternative otherwise = some (env.script otherwise.statements) := by
  cases otherwise with
  | none => exact absurd rfl h
  | block body => simp only [Env.alternative, Alternative.statements]
  | branch condition body otherwise span =>
    simp only [Env.alternative, Alternative.statements, Env.script, Env.statement, List.append_nil]

theorem Env.script_append (env : Env) (body body' : List Statement) :
    env.script (body ++ body') = env.script body ++ env.script body' := by
  induction body with
  | nil => simp only [Env.script, List.nil_append]
  | cons s body ih => simp only [Env.script, List.cons_append, List.append_assoc, ih]

theorem Env.script_of_mem (env : Env) (h : s ∈ body) :
    ∃ before rest, env.script body = before ++ (env.statement s ++ rest) := by
  obtain ⟨before, rest, rfl⟩ := List.append_of_mem h
  exact ⟨env.script before, env.script rest, by rw [Env.script_append, Env.script]⟩

/-- The slots of a conditional hold its bodies. -/
theorem branch_at {condition : Content} {body : List Tree} {otherwise : Option (List Tree)}
    (h : (Tree.branch condition body otherwise).At look S x) :
    (∃ start, ScriptAt look S start body) ∧
      ∀ trees ∈ otherwise, ∃ start, ScriptAt look S start trees := by
  cases otherwise with
  | none =>
    obtain ⟨v, -, -, -, -, hslots⟩ := h
    obtain ⟨value, hvalue⟩ := slotsAt_mem hslots
      (List.mem_cons_of_mem _ (List.mem_singleton_self ("SUBSTACK", Content.body body)))
    exact ⟨scriptAt_of_body hvalue, by simp⟩
  | some trees =>
    obtain ⟨v, -, -, -, -, hslots⟩ := h
    obtain ⟨value, hvalue⟩ := slotsAt_mem hslots
      (List.mem_cons_of_mem _ (List.mem_cons_self (a := ("SUBSTACK", Content.body body))))
    obtain ⟨value', hvalue'⟩ := slotsAt_mem hslots (List.mem_cons_of_mem _ (List.mem_cons_of_mem _
      (List.mem_singleton_self ("SUBSTACK2", Content.body trees))))
    refine ⟨scriptAt_of_body hvalue, fun trees' ht => ?_⟩
    cases ht
    exact scriptAt_of_body hvalue'

/-- The bodies of the conditionals of a script are scripts. -/
theorem branch_bodies {condition : Expr} {span : Span}
    (h : ScriptAt look S start (env.script outer))
    (hm : .branch condition body otherwise span ∈ outer) :
    (∃ start, ScriptAt look S start (env.script body)) ∧
      ∃ start, ScriptAt look S start (env.script otherwise.statements) := by
  have htree : Tree.branch (env.content condition) (env.script body) (env.alternative otherwise) ∈
      env.script outer := by
    obtain ⟨before, rest, hscript⟩ := env.script_of_mem hm
    simp only [hscript, Env.statement, List.mem_append, List.mem_singleton, or_true, true_or]
  obtain ⟨x, hx⟩ := scriptAt_mem h htree
  obtain ⟨hbody, halternative⟩ := branch_at hx
  refine ⟨hbody, ?_⟩
  by_cases hempty : otherwise.statements = []
  · rw [hempty, Env.script]
    exact ⟨none, trivial⟩
  · exact halternative _ (Env.alternative_eq hempty)

theorem Statement.Nested.script_at {inner : List Statement} (hn : Nested outer inner)
    (h : ScriptAt look S start (env.script outer)) :
    ∃ start, ScriptAt look S start (env.script inner) := by
  induction hn generalizing start with
  | refl body => exact ⟨start, h⟩
  | body hm _ ih =>
    obtain ⟨⟨start', h'⟩, -⟩ := branch_bodies h hm
    exact ih h'
  | alternative hm _ ih =>
    obtain ⟨-, start', h'⟩ := branch_bodies h hm
    exact ih h'

end

/-- A script of a program: its statements or the body of one of its functions, or a body of a
conditional there. The environment gives its names their meaning. -/
inductive Program.HasScript (program : Program) (t : Target) : Env → List Statement → Prop
  | main {body : List Statement} : Statement.Nested program.statements body →
      HasScript program t t.env body
  | function {name : Named} {params : List Named} {whole body : List Statement} {span : Span}
      {p : Procedure} : .function name params whole span ∈ program.statements →
      t.functionNamed? name.name = some p → Statement.Nested whole body →
      HasScript program t (t.bodyEnv p) body

theorem Program.HasScript.procedure_eq {program : Program} {t : Target} {env : Env}
    (h : program.HasScript t env body) : env.procedure = t.functionNamed? := by
  cases h <;> rfl

section

variable {source : String} {program : Program}

/-- Without errors every script of a program can be read back. -/
theorem Program.HasScript.script_at (hprogram : Program.ofSource source = .ok program)
    (hsuccess : (compile source sprite).success = true) {env : Env}
    (h : program.HasScript (compile source sprite).current env body) :
    ∃ start, ScriptAt (compile source sprite).current.look (fun _ => True) start
      (env.script body) := by
  rw [compile_eq hprogram] at hsuccess h ⊢
  cases h with
  | main hn =>
    obtain ⟨hidle, hscript⟩ := Program.compiled_reads hsuccess
    cases he : (program.compiled sprite).target.entry with
    | none =>
      have hnil : ScriptAt (program.compiled sprite).target.look (fun _ => True) none
          ((program.compiled sprite).target.env.script program.statements) := by
        rw [hidle he]
        trivial
      exact hn.script_at hnil
    | some e =>
      obtain ⟨b, -, -, hreads⟩ := hscript e he
      exact hn.script_at hreads
  | function hm hp hn =>
    obtain ⟨v, -, q, hintroduced⟩ := Emit.program_introduces (.new sprite) hsuccess hm
    obtain rfl := Option.mem_unique hp hintroduced.functionNamed?
    obtain ⟨b, -, hreads⟩ := hintroduced.reads hsuccess (Target.bodyEnv_covers _ _)
    exact hn.script_at hreads

/-- The functions of a program have names without blanks, with which the texts of their procedures
start. -/
theorem Program.function_coded (hprogram : Program.ofSource source = .ok program) {f : String}
    (hf : (compile source sprite).current.functionNamed? f = some p) :
    p.Coded f ∧ ' ' ∉ f.toList := by
  rw [compile_eq hprogram] at hf
  obtain hnone | ⟨v, hv, name, params, body, rfl, h⟩ :=
    Emit.program_introduced (Compilation.Between.new sprite) hf
  · cases hnone
  obtain ⟨span, hspan⟩ := h.statement
  exact ⟨h.defines.coded,
    Program.name_noBlank hprogram (hspan ▸ Visit.statement_mem_of_mem_program hv)⟩

/-- The text of a procedure tells which function a call is of. -/
theorem Program.proccode_eq_iff (hprogram : Program.ofSource source = .ok program) {env : Env}
    (henv : env.procedure = (compile source sprite).current.functionNamed?) {f g : String}
    (hp : (compile source sprite).current.functionNamed? f = some p) :
    (env.callee g).mutation.proccode = p.mutation.proccode ↔ g = f := by
  obtain ⟨hcoded, hname⟩ := Program.function_coded hprogram hp
  rw [Env.callee, henv]
  cases hg : (compile source sprite).current.functionNamed? g with
  | none =>
    obtain ⟨code, -, hcode, -⟩ := hcoded
    refine ⟨fun heq => ?_, fun heq => ?_⟩
    · rw [hcode] at heq
      cases heq
    · rw [heq, hp] at hg
      cases hg
  | some q =>
    obtain ⟨hcoded', hname'⟩ := Program.function_coded hprogram hg
    refine ⟨fun heq => hcoded'.name_eq hcoded hname' hname heq, fun heq => ?_⟩
    rw [heq, hp] at hg
    cases hg
    rfl

/-- Blocks that read as the calls in expressions call a function exactly if the expressions do. -/
theorem exists_calls_iff (hprogram : Program.ofSource source = .ok program) {env : Env}
    (henv : env.procedure = (compile source sprite).current.functionNamed?) {f : String}
    (hp : (compile source sprite).current.functionNamed? f = some p) {ids : List String}
    {es : List Expr} {S : String → Prop}
    (h : List.Forall₂ (fun x tree => tree.At (compile source sprite).current.look S x) ids
      (env.callsOf es)) :
    (∃ x ∈ ids, (compile source sprite).current.Calls p x) ↔ ∃ call ∈ Expr.callsOf es, call.1 = f := by
  rw [Env.callsOf_eq, List.forall₂_map_right_iff] at h
  constructor
  · rintro ⟨x, hx, b, hb, -, hcode⟩
    obtain ⟨call, hcall, hat⟩ := forall₂_exists_of_mem h hx
    obtain ⟨b', hb', -, hcode'⟩ := Env.call_at hat
    obtain rfl := Option.mem_unique hb hb'
    exact ⟨call, hcall, (Program.proccode_eq_iff hprogram henv hp).1 (hcode'.symm.trans hcode)⟩
  · rintro ⟨call, hcall, hf⟩
    obtain ⟨x, hx, hat⟩ := forall₂_exists_of_mem h.flip hcall
    obtain ⟨b, hb, hopcode, hcode⟩ := Env.call_at hat
    exact ⟨x, hx, b, hb, hopcode, hcode.trans ((Program.proccode_eq_iff hprogram henv hp).2 hf)⟩

/-- Without errors every call in the expressions of a statement has a block that leads to the one
that reads its result. A block between the two calls the same function exactly if one of the
expressions that are evaluated in between does. -/
theorem compile_results (sprite : String) (hprogram : Program.ofSource source = .ok program)
    (hsuccess : (compile source sprite).success = true) {env : Env} {body : List Statement}
    (hscript : program.HasScript (compile source sprite).current env body) {s : Statement}
    (hs : s ∈ body) {f : String} {arguments : List Expr}
    (hcall : (f, arguments) ∈ Expr.callsOf s.operands) {p : Procedure}
    (hp : (compile source sprite).current.functionNamed? f = some p) :
    let t := (compile source sprite).current
    (∃ after u, s.Awaits env f arguments after u) ∧
    ∀ after u, s.Awaits env f arguments after u →
      ∃ x ids y, (env.call f arguments).At t.look (fun _ => True) x ∧ t.Calls p x ∧
        t.LeadsTo x ids y ∧ u.At t.look (fun _ => True) y ∧
        (∀ ref, p.returnVariable = some ref → u.Uses ref) ∧
        ((∃ z ∈ ids, t.Calls p z) ↔ ∃ call ∈ Expr.callsOf after, call.1 = f) := by
  intro t
  refine ⟨Statement.exists_awaits env hcall, fun after u hawaits => ?_⟩
  have henv := hscript.procedure_eq
  obtain ⟨start, hreads⟩ := hscript.script_at hprogram hsuccess
  obtain ⟨before, rest, hbody⟩ := env.script_of_mem hs
  obtain ⟨before', -, -, rest', hstatement⟩ := hawaits.callsOf_eq
  have hchain : env.script body = (before ++ before'.map fun call => env.call call.1 call.2) ++
      env.call f arguments :: (env.callsOf after ++ u :: (rest' ++ rest)) := by
    rw [hbody, hstatement]
    simp only [List.append_assoc, List.cons_append]
  rw [hchain] at hreads
  obtain ⟨x, ids, y, hx, hleads, hy, hids⟩ := exists_chain hreads
  obtain ⟨b, hb, hopcode, hcode⟩ := Env.call_at hx
  refine ⟨x, ids, y, hx, ⟨b, hb, hopcode, ?_⟩, hleads, hy, fun ref href => hawaits.uses ?_,
    exists_calls_iff hprogram henv hp hids⟩
  · rw [hcode, Program.proccode_eq_iff hprogram henv hp]
  · rw [Env.callee, henv, hp]
    exact href

end

/-- The result of a call is kept while another function is called. -/
theorem compile_results_once :
    let source := "function f(a) \x7b return a + 1 \x7d\nfunction g(a) \x7b return a + 2 \x7d\n" ++
      "let x = f(1) + g(2)"
    let t := (compile source "Sprite1").current
    (compile source "Sprite1").success = true ∧ ∃ p ref, t.functionNamed? "f" = some p ∧
      p.returnVariable = some ref ∧ ∃ x ids y, ∃ u : Tree, t.Calls p x ∧ t.LeadsTo x ids y ∧
        u.At t.look (fun _ => True) y ∧ u.Uses ref ∧ ∀ z ∈ ids, ¬ t.Calls p z := by
  intro source t
  obtain ⟨program, hprogram, s, hs, hnames⟩ : ∃ program ∈ (Program.ofSource source).toOption,
      ∃ s ∈ program.statements, (Expr.callsOf s.operands).map Prod.fst = ["f", "g"] := by
    decide +kernel
  obtain ⟨hsuccess, p, hp, ref, href, -⟩ : (compile source "Sprite1").success = true ∧
      ∃ p ∈ t.functionNamed? "f", ∃ ref ∈ p.returnVariable, True := by
    decide +kernel
  refine ⟨hsuccess, p, ref, hp, href, ?_⟩
  obtain ⟨⟨f, arguments⟩, hcall, hf⟩ : ∃ call ∈ Expr.callsOf s.operands, call.1 = "f" :=
    List.mem_map.1 (hnames ▸ List.mem_cons_self)
  obtain rfl : f = "f" := hf
  obtain ⟨⟨after, u, hawaits⟩, hall⟩ := compile_results "Sprite1" (Program.ofSource_eq_ok hprogram)
    hsuccess (.main (.refl _)) hs hcall hp
  obtain ⟨x, ids, y, -, hx, hleads, hu, huses, hiff⟩ := hall after u hawaits
  refine ⟨x, ids, y, u, hx, hleads, hu, huses ref href, fun z hz hcalls => ?_⟩
  exact hawaits.not_again (by rw [hnames]; rfl) (hiff.1 ⟨z, hz, hcalls⟩)

/-- The result of the first of two calls is lost: both operands of the sum refer to the variable for
the result, which the second call has set again. -/
theorem compile_results_lost :
    let project := compile "function f(a) \x7b return a + 1 \x7d\nlet x = f(1) + f(2)" "Sprite1"
    let t := project.current
    project.success = true ∧ ∃ p ref sum, t.functionNamed? "f" = some p ∧
      p.returnVariable = some ref ∧ t.Calls p "block_14" ∧ t.Calls p "block_15" ∧
        t.LeadsTo "block_14" ["block_15"] "block_12" ∧ t.block? "block_13" = some sum ∧
        sum.parent = some "block_12" ∧
        sum.slots = [("NUM1", .payload (.variable ref)), ("NUM2", .payload (.variable ref))] := by
  intro project t
  obtain ⟨hsuccess, p, hp, ref, href, ⟨first, hfirst, hop, hcode, hnext⟩,
      ⟨second, hsecond, hop', hcode', hnext'⟩, sum, hsum, hparent, hslots⟩ :
      project.success = true ∧ ∃ p ∈ t.functionNamed? "f", ∃ ref ∈ p.returnVariable,
      (∃ b ∈ t.block? "block_14", b.opcode = .call ∧
        b.mutation.bind Mutation.proccode = p.mutation.proccode ∧ b.next = some "block_15") ∧
      (∃ b ∈ t.block? "block_15", b.opcode = .call ∧
        b.mutation.bind Mutation.proccode = p.mutation.proccode ∧ b.next = some "block_12") ∧
      ∃ b ∈ t.block? "block_13", b.parent = some "block_12" ∧
        b.slots = [("NUM1", .payload (.variable ref)), ("NUM2", .payload (.variable ref))] := by
    decide +kernel
  refine ⟨hsuccess, p, ref, sum, hp, href, ⟨first, hfirst, hop, hcode⟩, ⟨second, hsecond, hop', hcode'⟩,
    ⟨?_, ?_⟩, hsum, hparent, hslots⟩
  · rw [hfirst]
    exact hnext
  · rw [Target.LeadsTo, hsecond]
    exact hnext'

end ScriptBlocks
