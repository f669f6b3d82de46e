import ScriptBlocks.Proofs.Layout

/-!
# Parsing undoes printing

The parser reads every layout of a printable program as that program. Operators that have been read
may still wait for what comes after them, so the state after an expression is described by what the
next token makes of it: `Reads` says that it acts as if the whole expression had been put together,
and `Ends` that a statement is complete.
-/
namespace ScriptBlocks

theorem BinaryOp.ofSymbol?_symbol (op : BinaryOp) : ofSymbol? op.symbol = some op := by
  rcases op with op | op | op <;> cases op <;> decide

theorem UnaryOp.ofSymbol?_symbol (op : UnaryOp) : ofSymbol? op.symbol = some op := by
  cases op <;> decide

theorem assignment?_assignmentSymbol (op : Option ArithmeticOp) :
    assignment? (assignmentSymbol op) = some op := by
  rcases op with _ | op
  · decide
  · cases op <;> decide

theorem Expr.strength_of_not_isBinary {e : Expr} (h : e.isBinary = false) : e.strength = 6 := by
  cases e <;> first | rfl | cases h

theorem Expr.bareAll_eq (es : List Expr) : Expr.bareAll es = es.map Expr.bare := by
  induction es with
  | nil => rfl
  | cons e es ih => rw [Expr.bareAll, ih, List.map_cons]

/-- The first token of an expression. -/
theorem Expr.Layout.exists_cons (e : Expr) {tokens : List Token} (h : e.Layout tokens) :
    ∃ t rest, tokens = t :: rest ∧ t.kind ≠ .newline ∧ t.kind ≠ .rightParen := by
  cases h with
  | @literal value _ t h =>
    refine ⟨t, [], rfl, ?_⟩
    cases value <;> simp [h.1]
  | @name _ _ t h => exact ⟨t, [], rfl, by simp [h.1]⟩
  | paren hopen _ _ _ _ => exact ⟨_, _, rfl, by simp [hopen]⟩
  | unary hsign _ => exact ⟨_, _, rfl, by simp [hsign.1]⟩
  | @binary _ _ _ left _ _ _ _ hleft _ _ =>
    obtain ⟨t, rest, rfl, ht⟩ := Expr.Layout.exists_cons left hleft
    exact ⟨t, _, rfl, ht⟩
  | call hname _ _ => exact ⟨_, _, rfl, by simp [hname.1]⟩

namespace Parser

variable {s s₁ s₂ : State} {t : Token} {tokens lines rest : List Token} {body : Body}
variable {context : Context} {binaries : List OpenBinary} {value : Expr} {k : Nat} {α : Type}

theorem run_cons (h : step s t = .ok s₁) (rest : List Token) : run s (t :: rest) = run s₁ rest := by
  rw [run, h]

theorem run_congr (h : step s t = step s₁ t) (rest : List Token) :
    run s (t :: rest) = run s₁ (t :: rest) := by
  rw [run, run, h]

theorem run_append (h : run s tokens = .ok s₁) (rest : List Token) :
    run s (tokens ++ rest) = run s₁ rest := by
  induction tokens generalizing s with
  | nil =>
    cases h
    rfl
  | cons t tokens ih =>
    rw [run] at h
    cases hs : step s t with
    | error cause =>
      rw [hs] at h
      cases h
    | ok s' =>
      rw [hs] at h
      exact (run_cons hs _).trans (ih h)

/-- Tokens that leave a state as it is. -/
theorem run_skip (h : ∀ t ∈ lines, step s t = .ok s) (rest : List Token) :
    run s (lines ++ rest) = run s rest := by
  induction lines with
  | nil => rfl
  | cons t lines ih =>
    rw [List.cons_append, run_cons (h t (by simp)), ih fun t ht => h t (by simp [ht])]

/-! ## Lists -/

/-- Where the parser is around the items of a list: after the bracket that opens it, before an item,
at the token after an item, and after the bracket that closes it. -/
structure ListStates (α : Type) where
  first : State
  next : List α → State
  close : α → List α → Token → Except ParseCause State
  closed : List α → Span → State

namespace ListStates

/-- The parser reads the list as the reader does. -/
structure Fits (l : ListStates α) (cause : ParseCause) : Prop where
  first_newline : ∀ {t}, t.kind = .newline → step l.first t = .ok l.first
  first_close : ∀ {t}, t.kind = .rightParen → step l.first t = .ok (l.closed [] t.span)
  first_item : ∀ {t}, t.kind ≠ .newline → t.kind ≠ .rightParen → step l.first t = step (l.next []) t
  next_newline : ∀ {before t}, t.kind = .newline → step (l.next before) t = .ok (l.next before)
  close_comma : ∀ {x before t}, t.kind = .comma → l.close x before t = .ok (l.next (x :: before))
  close_close : ∀ {x before t}, t.kind = .rightParen →
    l.close x before t = .ok (l.closed (x :: before).reverse t.span)
  close_other : ∀ {x before t}, t.kind ≠ .newline → t.kind ≠ .comma → t.kind ≠ .rightParen →
    l.close x before t = .error cause

/-- A layout of the item is read as that item, and what may come next closes it. -/
def ItemReads (l : ListStates α) (Writes : α → List Token → Prop) (bare : α → α) (x : α) : Prop :=
  ∀ {item}, Writes x item →
    (∃ t rest, item = t :: rest ∧ t.kind ≠ .newline ∧ t.kind ≠ .rightParen) ∧
    ∀ before, ∃ s x', run (l.next before) item = .ok s ∧ bare x' = bare x ∧
      ∀ {lines t} rest, Newlines lines → t.kind = .rightParen ∨ t.kind = .comma →
        ∃ w, run s (lines ++ t :: rest) = run w (t :: rest) ∧ step w t = l.close x' before t

variable {l : ListStates α} {cause : ParseCause} {Writes : α → List Token → Prop} {bare : α → α}
variable {xs : List α}

/-- Items are read one after the other. -/
theorem Fits.items (hl : l.Fits cause) (h : Listed Writes xs tokens) (hne : xs ≠ [])
    (hitems : ∀ x ∈ xs, l.ItemReads Writes bare x) (before : List α) :
    ∃ xs' stop, run (l.next before) tokens = .ok (l.closed (before.reverse ++ xs') stop) ∧
      xs'.map bare = xs.map bare := by
  induction h generalizing before with
  | none => exact absurd rfl hne
  | @last x lines item after close hbefore hitem hafter hclose =>
    obtain ⟨s, x', hrun, hbare, hnext⟩ := (hitems x (by simp) hitem).2 before
    obtain ⟨w, hrun', hstep⟩ := hnext [] hafter (.inl hclose)
    refine ⟨[x'], close.span, ?_, by simp [hbare]⟩
    rw [run_skip fun t ht => hl.next_newline (hbefore t ht), run_append hrun, hrun',
      run_cons (hstep.trans (hl.close_close hclose)), List.reverse_cons]
    rfl
  | @next x y xs lines item after rest comma hbefore hitem hafter hcomma _ ih =>
    obtain ⟨s, x', hrun, hbare, hnext⟩ := (hitems x (by simp) hitem).2 before
    obtain ⟨w, hrun', hstep⟩ := hnext rest hafter (.inr hcomma)
    obtain ⟨xs', stop, hrest, hbare'⟩ :=
      ih (by simp) (fun z hz => hitems z (List.mem_cons_of_mem _ hz)) (x' :: before)
    refine ⟨x' :: xs', stop, ?_, by simp only [List.map_cons, hbare, hbare']⟩
    rw [run_skip fun t ht => hl.next_newline (hbefore t ht), run_append hrun, hrun',
      run_cons (hstep.trans (hl.close_comma hcomma)), hrest]
    simp

/-- A list is read from its opening bracket on. -/
theorem Fits.reads (hl : l.Fits cause) (h : Listed Writes xs tokens)
    (hitems : ∀ x ∈ xs, l.ItemReads Writes bare x) :
    ∃ xs' stop, run l.first tokens = .ok (l.closed xs' stop) ∧ xs'.map bare = xs.map bare := by
  cases xs with
  | nil =>
    cases h with
    | @none lines close hlines hclose =>
      refine ⟨[], close.span, ?_, rfl⟩
      rw [run_skip fun t ht => hl.first_newline (hlines t ht), run_cons (hl.first_close hclose)]
      rfl
  | cons x xs =>
    obtain ⟨lines, item, rest, heq, hlines, hitem⟩ : ∃ lines item rest,
        tokens = lines ++ (item ++ rest) ∧ Newlines lines ∧ Writes x item := by
      cases h with
      | last hbefore hitem _ _ => exact ⟨_, _, _, rfl, hbefore, hitem⟩
      | next hbefore hitem _ _ _ => exact ⟨_, _, _, rfl, hbefore, hitem⟩
    obtain ⟨⟨t, item', rfl, hline, hparen⟩, -⟩ := hitems x (by simp) hitem
    have hfirst : run l.first tokens = run (l.next []) tokens := by
      rw [heq, run_skip fun t ht => hl.first_newline (hlines t ht),
        run_skip fun t ht => hl.next_newline (hlines t ht)]
      exact run_congr (hl.first_item hline hparen) _
    rw [hfirst]
    exact hl.items h (by simp) hitems []

end ListStates

/-! ## Expressions -/

theorem applyBinaries_append {ops : List OpenBinary} (hops : ∀ o ∈ ops, k ≤ o.op.precedence)
    (hhead : ∀ b ∈ binaries.head?, b.op.precedence < k) (value : Expr) :
    applyBinaries k (ops ++ binaries) value = (binaries, applyAll ops value) := by
  induction ops generalizing value with
  | nil =>
    cases binaries with
    | nil => rfl
    | cons b binaries =>
      have hlt := hhead b (by simp)
      simp [applyBinaries, applyAll, Nat.not_le.2 hlt]
  | cons o ops ih =>
    have hle := hops o (by simp)
    simp only [List.cons_append, applyBinaries, if_pos hle]
    exact ih (fun o ho => hops o (by simp [ho])) (o.apply value)

/-- Newlines before the token that ends an expression in brackets are passed over. -/
theorem run_closing (hlines : Newlines lines) (ht : t.kind ≠ .newline)
    (hskip : context.skipsNewline = true) (rest : List Token)
    (h : ∀ l ∈ (lines ++ t :: rest).head?, step s l =
      if l.kind = .newline && context.skipsNewline then .ok ⟨body, .closing context value⟩
      else closeStep body context value l) :
    ∃ w, run s (lines ++ t :: rest) = run w (t :: rest) ∧
      step w t = closeStep body context value t := by
  cases lines with
  | nil => exact ⟨s, rfl, by simp [h t rfl, ht]⟩
  | cons l lines =>
    have hl : l.kind = .newline := hlines l (by simp)
    refine ⟨⟨body, .closing context value⟩, ?_, by simp [step, ht]⟩
    rw [List.cons_append, run_cons ((h l rfl).trans (if_pos (by simp [hl, hskip])))]
    exact run_skip (fun l' hl' => by simp [step, hlines l' (by simp [hl'])]) _

/-- The state has read an expression of this strength. What waits for its right operand inside
the expression is at least as strong, and a name is not yet known not to be a call. -/
def Reads (body : Body) (binaries : List OpenBinary) (context : Context) (k : Nat) (value : Expr)
    (s : State) : Prop :=
  ∃ ops last, (∀ t : Token, t.kind ≠ .leftParen →
      step s t = operatedStep body (ops ++ binaries) context last t) ∧
    applyAll ops last = value ∧ ∀ o ∈ ops, k ≤ o.op.precedence

namespace Reads

theorem complete (body : Body) (signs : Signs) (binaries : List OpenBinary) (context : Context)
    (k : Nat) (operand : Expr) :
    Reads body binaries context k (applySigns signs operand)
      (complete body signs binaries context operand) :=
  ⟨[], _, fun _ _ => rfl, rfl, by simp⟩

theorem name (body : Body) (signs : Signs) (binaries : List OpenBinary) (context : Context)
    (k : Nat) (name : Named) :
    Reads body binaries context k (applySigns signs (.name name.name name.span))
      ⟨body, .operandName signs binaries context name⟩ := by
  refine ⟨[], _, fun t ht => ?_, rfl, by simp⟩
  simp only [step, if_neg ht]
  rfl

/-- A binary operator that is not stronger takes the expression as its left operand. -/
theorem operator (h : Reads body binaries context k value s) {op : BinaryOp}
    (ht : t.IsOperator op.symbol) (hk : op.precedence ≤ k)
    (hhead : ∀ b ∈ binaries.head?, b.op.precedence < op.precedence) :
    step s t = .ok ⟨body, .operand [] (⟨value, op, t.span⟩ :: binaries) context false⟩ := by
  obtain ⟨ops, last, hstep, rfl, hops⟩ := h
  have happly := applyBinaries_append (k := op.precedence)
    (fun o ho => Nat.le_trans hk (hops o ho)) hhead last
  rw [hstep t (by simp [ht.1])]
  simp only [operatedStep, ht.1, ht.2, BinaryOp.ofSymbol?_symbol, if_true, happly]

/-- An operator with a complete right operand is an operand of what surrounds it. -/
theorem under {b : OpenBinary} (h : Reads body (b :: binaries) context k value s)
    (hk : b.op.precedence ≤ k) :
    Reads body binaries context b.op.precedence (b.apply value) s := by
  obtain ⟨ops, last, hstep, rfl, hops⟩ := h
  refine ⟨ops ++ [b], last, fun t ht => ?_, ?_, fun o ho => ?_⟩
  · rw [hstep t ht, List.append_assoc]
    rfl
  · simp [applyAll]
  · rcases List.mem_append.1 ho with ho | ho
    · exact Nat.le_trans hk (hops o ho)
    · obtain rfl := List.mem_singleton.1 ho
      exact Nat.le_refl _

/-- Any other token ends the expression. -/
theorem ended (h : Reads body [] context k value s) (hparen : t.kind ≠ .leftParen)
    (hop : t.kind ≠ .operator) :
    step s t = if t.kind = .newline && context.skipsNewline then .ok ⟨body, .closing context value⟩
      else closeStep body context value t := by
  obtain ⟨ops, last, hstep, rfl, -⟩ := h
  rw [hstep t hparen, List.append_nil]
  simp only [operatedStep, if_neg hop]

/-- Inside brackets newlines may stand before the token that ends the expression. -/
theorem close (h : Reads body [] context k value s) (hlines : Newlines lines)
    (hskip : context.skipsNewline = true) (ht : t.kind = .rightParen ∨ t.kind = .comma)
    (rest : List Token) : ∃ w, run s (lines ++ t :: rest) = run w (t :: rest) ∧
      step w t = closeStep body context value t := by
  have hline : t.kind ≠ .newline := by rcases ht with ht | ht <;> simp [ht]
  refine run_closing hlines hline hskip rest fun l hl => ?_
  have hkind : l.kind = .newline ∨ l.kind = .rightParen ∨ l.kind = .comma := by
    cases lines with
    | nil => exact .inr (Option.some.inj hl ▸ ht)
    | cons => exact .inl (Option.some.inj hl ▸ hlines _ (by simp))
  exact h.ended (by rcases hkind with h | h | h <;> simp [h])
    (by rcases hkind with h | h | h <;> simp [h])

end Reads

/-- What surrounds the arguments of a call: nothing when the call is a statement, otherwise the
signs and operators that wait for it. -/
def callContext (place : Option (Signs × List OpenBinary × Context)) (function : Named)
    (before : List Expr) : Context :=
  match place with
  | none => ⟨[], .argument function before⟩
  | some (signs, binaries, context) =>
    ⟨⟨.argument function before, signs, binaries⟩ :: context.brackets, context.goal⟩

/-- The state after the bracket that closes the arguments of a call. -/
def afterCall (body : Body) (place : Option (Signs × List OpenBinary × Context))
    (function : Named) (arguments : List Expr) (stop : Span) : State :=
  match place with
  | none => ⟨body.push (.call function.name arguments (function.span.through stop)), .ended⟩
  | some (signs, binaries, context) =>
    complete body signs binaries context
      (.call function.name arguments (function.span.through stop))

section

variable {place : Option (Signs × List OpenBinary × Context)} {function : Named}
variable {before : List Expr}

theorem skipsNewline_callContext : (callContext place function before).skipsNewline = true := by
  rcases place with _ | ⟨signs, binaries, context⟩ <;> rfl

theorem closeStep_comma (ht : t.kind = .comma) :
    closeStep body (callContext place function before) value t =
      .ok ⟨body, .operand [] [] (callContext place function (value :: before)) true⟩ := by
  rcases place with _ | ⟨signs, binaries, context⟩ <;>
    simp [closeStep, goalStep, callContext, ht]

theorem closeStep_rightParen (ht : t.kind = .rightParen) :
    closeStep body (callContext place function before) value t =
      .ok (afterCall body place function (before.reverse ++ [value]) t.span) := by
  rcases place with _ | ⟨signs, binaries, context⟩ <;>
    simp [closeStep, goalStep, callContext, afterCall, ht]

theorem step_operand_newline {signs : Signs} (ht : t.kind = .newline) :
    step ⟨body, .operand signs binaries context true⟩ t =
      .ok ⟨body, .operand signs binaries context true⟩ := by
  simp [step, operandStep, ht]

end

/-- Where the parser is in the arguments of a call. -/
def callStates (body : Body) (place : Option (Signs × List OpenBinary × Context))
    (function : Named) : ListStates Expr where
  first := ⟨body, .firstArgument (callContext place function [])⟩
  next before := ⟨body, .operand [] [] (callContext place function before) true⟩
  close e before t := closeStep body (callContext place function before) e t
  closed es stop := afterCall body place function es stop

theorem callStates_fits (body : Body) (place : Option (Signs × List OpenBinary × Context))
    (function : Named) : (callStates body place function).Fits .unclosedArguments where
  first_newline ht := by simp [callStates, step, firstArgumentStep, ht]
  first_close ht := by
    rcases place with _ | ⟨signs, binaries, context⟩ <;>
      simp [callStates, step, firstArgumentStep, callContext, afterCall, ht]
  first_item hline hclose := by simp [callStates, step, firstArgumentStep, hline, hclose]
  next_newline ht := step_operand_newline ht
  close_comma ht := closeStep_comma ht
  close_close ht := by rw [List.reverse_cons]; exact closeStep_rightParen ht
  close_other hline hcomma hclose := by
    rcases place with _ | ⟨signs, binaries, context⟩ <;>
      simp [callStates, closeStep, goalStep, callContext]

/-- A layout of the expression is read as that expression. -/
def ExprReads (e : Expr) : Prop :=
  ∀ {tokens : List Token}, e.Layout tokens →
    ∀ (body : Body) (signs : Signs) (binaries : List OpenBinary) (context : Context)
      (newlines : Bool), (e.isBinary = true → signs = []) →
      (∀ b ∈ binaries.head?, b.op.precedence < e.strength) →
      ∃ s e', run ⟨body, .operand signs binaries context newlines⟩ tokens = .ok s ∧
        e'.bare = e.bare ∧ Reads body binaries context e.strength (applySigns signs e') s

theorem argument_reads {e : Expr} (h : ExprReads e) (body : Body)
    (place : Option (Signs × List OpenBinary × Context)) (function : Named) :
    (callStates body place function).ItemReads Expr.Layout Expr.bare e := by
  intro item hitem
  refine ⟨Expr.Layout.exists_cons e hitem, fun before => ?_⟩
  obtain ⟨s, e', hrun, hbare, hreads⟩ := h hitem body [] [] (callContext place function before) true
    (fun _ => rfl) (by simp)
  exact ⟨s, e', hrun, hbare, fun rest hlines ht =>
    hreads.close hlines skipsNewline_callContext ht rest⟩

mutual

theorem expression_reads : ∀ e : Expr, e.Printable → ExprReads e
  | .literal value span, _, _, @Expr.Layout.literal _ _ t h,
      body, signs, binaries, context, newlines, _, _ => by
    refine ⟨_, .literal value t.span, ?_, rfl, .complete body signs binaries context 6 _⟩
    refine run_cons ?_ []
    rcases value with value | value | value | value
    · simp [step, operandStep, h.1, h.2]
    · simp [step, operandStep, h.1, h.2]
    · cases value <;> simp [step, operandStep, h.1, h.2]
    · simp [step, operandStep, h.1, h.2]
  | .name name span, _, _, @Expr.Layout.name _ _ t h,
      body, signs, binaries, context, newlines, _, _ => by
    refine ⟨_, .name t.text t.span, ?_, by rw [h.2]; rfl, .name body signs binaries context 6 ⟨_, _⟩⟩
    refine run_cons ?_ []
    simp [step, operandStep, h.1]
  | .paren inner span, hp, _,
      @Expr.Layout.paren _ _ bracket close before tokens after hopen hbefore hinner hafter hclose,
      body, signs, binaries, context, newlines, _, _ => by
    let context' : Context :=
      ⟨⟨.paren bracket.span, signs, binaries⟩ :: context.brackets, context.goal⟩
    obtain ⟨s, e', hrun, hbare, hreads⟩ :=
      expression_reads inner hp hinner body [] [] context' true (fun _ => rfl) (by simp)
    have hstep : step ⟨body, .operand signs binaries context newlines⟩ bracket =
        .ok ⟨body, .operand [] [] context' true⟩ := by
      simp [step, operandStep, hopen, context']
    have hend : closeStep body context' e' close = .ok (complete body signs binaries context
        (.paren e' (bracket.span.through close.span))) := by
      simp [closeStep, hclose, context']
    refine ⟨_, .paren e' (bracket.span.through close.span), ?_, ?_,
      .complete body signs binaries context 6 _⟩
    · obtain ⟨w, hrun', hw⟩ := hreads.close hafter rfl (.inl hclose) []
      rw [run_cons hstep, run_skip fun l hl => step_operand_newline (hbefore l hl),
        run_append hrun, hrun', run_cons (hw.trans hend)]
      rfl
    · simp only [Expr.bare, hbare]
  | .unary op opSpan operand span, hp, _, @Expr.Layout.unary _ _ _ _ sign tokens hsign h,
      body, signs, binaries, context, newlines, _, hhead => by
    have hstrength := Expr.strength_of_not_isBinary hp.1
    obtain ⟨s, e', hrun, hbare, hreads⟩ := expression_reads operand hp.2 h body
      ((op, sign.span) :: signs) binaries context false (by simp [hp.1])
      (by rw [hstrength]; exact hhead)
    have hstep : step ⟨body, .operand signs binaries context newlines⟩ sign =
        .ok ⟨body, .operand ((op, sign.span) :: signs) binaries context false⟩ := by
      simp [step, operandStep, hsign.1, hsign.2, UnaryOp.ofSymbol?_symbol]
    rw [hstrength] at hreads
    refine ⟨s, .unary op sign.span e' (sign.span.through e'.span), ?_, ?_, hreads⟩
    · rw [run_cons hstep, hrun]
    · simp only [Expr.bare, hbare]
  | .binary op opSpan left right span, hp, _,
      @Expr.Layout.binary _ _ _ _ _ sign _ _ hleft hsign hright,
      body, signs, binaries, context, newlines, hsigns, hhead => by
    obtain rfl : signs = [] := hsigns rfl
    have hhead : ∀ b ∈ binaries.head?, b.op.precedence < op.precedence := hhead
    obtain ⟨s₁, left', hrun₁, hbare₁, hreads₁⟩ := expression_reads left hp.1.2 hleft body []
      binaries context newlines (fun _ => rfl) fun b hb => Nat.lt_of_lt_of_le (hhead b hb) hp.1.1
    obtain ⟨s₂, right', hrun₂, hbare₂, hreads₂⟩ := expression_reads right hp.2.2 hright body []
      (⟨left', op, sign.span⟩ :: binaries) context false (fun _ => rfl)
      (by rintro b ⟨⟩; exact hp.2.1)
    have hreads₁ : Reads body binaries context left.strength left' s₁ := hreads₁
    have hstep := hreads₁.operator hsign hp.1.1 hhead
    refine ⟨s₂, _, ?_, ?_, hreads₂.under (Nat.le_of_lt hp.2.1)⟩
    · rw [run_append hrun₁, run_cons hstep, hrun₂]
    · simp only [Expr.bare, hbare₁, applySigns, List.foldl_nil, hbare₂]
  | .call name arguments span, hp, _, @Expr.Layout.call _ _ _ t bracket tokens hname hopen h,
      body, signs, binaries, context, newlines, _, _ => by
    let place := some (signs, binaries, context)
    have hname' : step ⟨body, .operand signs binaries context newlines⟩ t =
        .ok ⟨body, .operandName signs binaries context ⟨t.text, t.span⟩⟩ := by
      simp [step, operandStep, hname.1]
    have hopen' : step ⟨body, .operandName signs binaries context ⟨t.text, t.span⟩⟩ bracket =
        .ok ⟨body, .firstArgument (callContext place ⟨t.text, t.span⟩ [])⟩ := by
      simp [step, hopen, callContext, place]
    obtain ⟨es, stop, hrun, hbare⟩ := (callStates_fits body place ⟨t.text, t.span⟩).reads h
      fun e he => argument_reads (arguments_read arguments hp e he) body place _
    refine ⟨_, .call t.text es (t.span.through stop), ?_, ?_,
      .complete body signs binaries context 6 _⟩
    · rw [run_cons hname', run_cons hopen']
      exact hrun
    · simp only [Expr.bare, Expr.bareAll_eq, hbare, hname.2]

theorem arguments_read : ∀ es : List Expr, Expr.AllPrintable es → ∀ e ∈ es, ExprReads e
  | [], _ => by simp
  | e :: es, hp => List.forall_mem_cons.2 ⟨expression_reads e hp.1, arguments_read es hp.2⟩

end

/-- An expression by itself, outside brackets. -/
theorem whole_expression_reads {e : Expr} (hp : e.Printable) {tokens : List Token}
    (h : e.Layout tokens) (body : Body) (goal : Goal) (newlines : Bool) :
    ∃ s e', run ⟨body, .operand [] [] ⟨[], goal⟩ newlines⟩ tokens = .ok s ∧ e'.bare = e.bare ∧
      Reads body [] ⟨[], goal⟩ e.strength e' s :=
  expression_reads e hp h body [] [] ⟨[], goal⟩ newlines (fun _ => rfl) (by simp)

/-! ## Parameters -/

/-- Where the parser is in the parameters of a function. -/
def parameterStates (body : Body) (start : Span) (name : Named) : ListStates Named where
  first := ⟨body, .firstParameter start name⟩
  next before := ⟨body, .nextParameter start name before⟩
  close x before t := step ⟨body, .afterParameter start name (x :: before)⟩ t
  closed parameters _ := ⟨body, .block (.function start name parameters)⟩

theorem parameterStates_fits (body : Body) (start : Span) (name : Named) :
    (parameterStates body start name).Fits .unclosedParameters where
  first_newline ht := by simp [parameterStates, step, ht]
  first_close ht := by simp [parameterStates, step, ht]
  first_item hline hclose := by
    simp only [parameterStates, step]
    split <;> simp_all
  next_newline ht := by simp [parameterStates, step, ht]
  close_comma ht := by simp [parameterStates, step, ht]
  close_close ht := by simp [parameterStates, step, ht]
  close_other hline hcomma hclose := by
    simp only [parameterStates, step]

/-- Newlines after a parameter do not matter. -/
theorem run_afterParameter (hlines : Newlines lines) (start : Span) (name : Named)
    (parameters : List Named) (rest : List Token) :
    run ⟨body, .afterParameter start name parameters⟩ (lines ++ rest) =
      run ⟨body, .afterParameter start name parameters⟩ rest :=
  run_skip (fun l hl => by simp [step, hlines l hl]) rest

theorem parameter_reads (body : Body) (start : Span) (name x : Named) :
    (parameterStates body start name).ItemReads Named.Layout Named.bare x := by
  rintro _ ⟨t, rfl, ht⟩
  refine ⟨⟨t, [], rfl, by simp [ht.1]⟩, fun before => ?_⟩
  refine ⟨⟨body, .afterParameter start name (⟨t.text, t.span⟩ :: before)⟩, ⟨t.text, t.span⟩,
    run_cons (by simp [parameterStates, step, ht.1]) [], by simp [Named.bare, ht.2],
    fun rest hlines _ => ⟨_, run_afterParameter hlines start name _ _, rfl⟩⟩

/-! ## Statements -/

/-- A statement is complete: after it, separators or one of the tokens that need none lead to the
place of the next statement. An `else` is another matter. -/
def Ends (s : State) (body : Body) : Prop :=
  ∀ (separators : List Token) (t : Token) (rest : List Token), Separators separators →
    t.isSeparator = false → t.isKeyword "else" = false → (separators = [] → t.EndsStatement) →
    run s (separators ++ t :: rest) = run ⟨body, .statement⟩ (t :: rest)

theorem kind_of_isSeparator (h : t.isSeparator = true) :
    t.kind = .newline ∨ t.kind = .semicolon := by
  simpa [Token.isSeparator] using h

theorem step_separator (h : t.isSeparator = true) (body : Body) :
    step ⟨body, .statement⟩ t = .ok ⟨body, .statement⟩ := by
  rcases kind_of_isSeparator h with h | h <;> simp [step, statementStep, h]

theorem run_separators (h : Separators lines) (body : Body) (rest : List Token) :
    run ⟨body, .statement⟩ (lines ++ rest) = run ⟨body, .statement⟩ rest :=
  run_skip (fun t ht => step_separator (h t ht) body) rest

namespace Ends

theorem ended (body : Body) : Ends ⟨body, .ended⟩ body := by
  intro separators t rest hsep ht _ hend
  cases separators with
  | nil =>
    refine run_congr ?_ rest
    rcases hend rfl with h | h | h <;> simp [step, endedStep, h]
  | cons l lines =>
    have hl : step ⟨body, .ended⟩ l = .ok ⟨body, .statement⟩ := by
      rcases kind_of_isSeparator (hsep l (by simp)) with h | h <;> simp [step, endedStep, h]
    rw [List.cons_append, run_cons hl, run_separators fun l' hl' => hsep l' (by simp [hl'])]

/-- What is said of a state holds of one that takes the same steps. -/
theorem of_step (h : Ends s₁ body)
    (hstep : ∀ t : Token, t.kind ≠ .leftParen → t.kind ≠ .operator → step s t = step s₁ t) :
    Ends s body := by
  intro separators t rest hsep ht helse hend
  rw [← h separators t rest hsep ht helse hend]
  cases separators with
  | nil =>
    refine run_congr (hstep t ?_ ?_) rest
    · rcases hend rfl with h | h | h <;> simp [h]
    · rcases hend rfl with h | h | h <;> simp [h]
  | cons l lines =>
    refine run_congr (hstep l ?_ ?_) _
    · rcases kind_of_isSeparator (hsep l (by simp)) with h | h <;> simp [h]
    · rcases kind_of_isSeparator (hsep l (by simp)) with h | h <;> simp [h]

/-- A statement that ends with an expression. -/
theorem of_reads {goal : Goal} {body' : Body} (h : Reads body [] ⟨[], goal⟩ k value s)
    (hgoal : ∀ t, goalStep body goal value t = endedStep body' t)
    (hskip : Context.skipsNewline ⟨[], goal⟩ = false) : Ends s body' := by
  refine of_step (ended body') fun t hparen hop => ?_
  rw [h.ended hparen hop, hskip, Bool.and_false, if_neg (by simp)]
  exact hgoal t

/-- A conditional without an alternative. -/
theorem of_branch (body : Body) (branch : OpenBranch) (chain : List OpenBranch) (stop : Span) :
    Ends ⟨body, .afterBranch branch chain stop false⟩
      (body.push (closeBranches branch chain .none stop)) := by
  intro separators t rest hsep ht helse hend
  have hline : ∀ {l : Token}, l.kind = .newline → ∀ newline,
      step ⟨body, .afterBranch branch chain stop newline⟩ l =
        .ok ⟨body, .afterBranch branch chain stop true⟩ := by
    intro l hl newline
    simp [step, hl]
  have hsemicolon : ∀ {l : Token}, l.kind = .semicolon → ∀ newline,
      step ⟨body, .afterBranch branch chain stop newline⟩ l =
        .ok ⟨body.push (closeBranches branch chain .none stop), .statement⟩ := by
    intro l hl newline
    cases newline <;> simp [step, hl, Token.isKeyword, statementStep, endedStep]
  -- newlines wait for an `else`, and the first other token tells that none comes
  have hwait : ∀ (lines : List Token), Separators lines →
      run ⟨body, .afterBranch branch chain stop true⟩ (lines ++ t :: rest) =
        run ⟨body.push (closeBranches branch chain .none stop), .statement⟩ (t :: rest) := by
    intro lines hlines
    induction lines with
    | nil =>
      refine run_congr ?_ rest
      have hnl : t.kind ≠ .newline := by
        intro h
        simp [Token.isSeparator, h] at ht
      simp [step, hnl, helse]
    | cons l lines ih =>
      have htail : Separators lines := fun l' hl' => hlines l' (by simp [hl'])
      rcases kind_of_isSeparator (hlines l (by simp)) with h | h
      · rw [List.cons_append, run_cons (hline h true), ih htail]
      · rw [List.cons_append, run_cons (hsemicolon h true), run_separators htail]
  cases separators with
  | nil =>
    refine run_congr ?_ rest
    rcases hend rfl with h | h | h <;> simp [step, endedStep, h, Token.isKeyword]
  | cons l lines =>
    have htail : Separators lines := fun l' hl' => hsep l' (by simp [hl'])
    rcases kind_of_isSeparator (hsep l (by simp)) with h | h
    · rw [List.cons_append, run_cons (hline h false), hwait lines htail]
    · rw [List.cons_append, run_cons (hsemicolon h false), run_separators htail]

end Ends

theorem of_isKeyword {word : String} (h : t.isKeyword word = true) :
    t.kind = .keyword ∧ t.text = word := by
  simpa [Token.isKeyword] using h

/-- The first token of a statement. -/
theorem statement_exists_cons {statement : Statement} (h : statement.Layout tokens) :
    ∃ t rest, tokens = t :: rest ∧ t.isSeparator = false ∧ t.isKeyword "else" = false ∧
      ∀ statements, Statement.mayFollow (statement :: statements) → t.kind = .comment := by
  cases h with
  | declare hword _ _ _ | yield hword _ | function hword _ _ _ _ | branch hword _ _ _ =>
    obtain ⟨hkind, htext⟩ := of_isKeyword hword
    exact ⟨_, _, rfl, by simp [Token.isSeparator, hkind], by simp [Token.isKeyword, htext],
      fun _ => False.elim⟩
  | assign hname _ _ | call hname _ _ =>
    exact ⟨_, _, rfl, by simp [Token.isSeparator, hname.1], by simp [Token.isKeyword, hname.1],
      fun _ => False.elim⟩
  | directive hsign _ =>
    exact ⟨_, _, rfl, by simp [Token.isSeparator, hsign], by simp [Token.isKeyword, hsign],
      fun _ => False.elim⟩
  | comment hkind _ =>
    exact ⟨_, _, rfl, by simp [Token.isSeparator, hkind], by simp [Token.isKeyword, hkind],
      fun _ _ => hkind⟩

/-- The body with statements after those it has. -/
def Body.pushAll (body : Body) (statements : List Statement) : Body :=
  { body with statements := statements.reverse ++ body.statements }

/-- Statements up to a token that closes them are read as those statements. -/
def StatementsRead (statements : List Statement) (tokens : List Token) : Prop :=
  ∀ (body : Body) (t : Token) (rest : List Token), t.kind = .rightBrace ∨ t.kind = .endOfFile →
    ∃ statements', run ⟨body, .statement⟩ (tokens ++ t :: rest) =
        run ⟨body.pushAll statements', .statement⟩ (t :: rest) ∧
      Statement.bareAll statements' = Statement.bareAll statements

/-- A block is read from its opening brace on. -/
theorem block_reads (s : State) (body : Body) (owner : Owner) {statements : List Statement}
    (hread : ∀ {tokens}, StatementsLayout statements tokens → StatementsRead statements tokens)
    (h : BlockLayout statements tokens)
    (hopen : ∀ t : Token, t.kind = .leftBrace → step s t = .ok ⟨body.enter owner, .statement⟩) :
    ∃ statements' stop, run s tokens = .ok (closeBlock owner statements' body stop) ∧
      Statement.bareAll statements' = Statement.bareAll statements := by
  cases h with
  | @block _ brace close separators tokens hbrace hseparators hbody hclose =>
    obtain ⟨statements', hrun, hbare⟩ := hread hbody (body.enter owner) close [] (.inl hclose)
    refine ⟨statements', close.span, ?_, hbare⟩
    rw [run_cons (hopen brace hbrace), run_separators hseparators, hrun]
    simp [run, step, statementStep, hclose, Body.enter, Body.pushAll]

/-- A condition and the block after it. -/
theorem condition_reads {condition : Expr} {statements : List Statement} {block : List Token}
    (hp : condition.Printable)
    (hread : ∀ {tokens}, StatementsLayout statements tokens → StatementsRead statements tokens)
    (h : condition.Layout tokens) (hblock : BlockLayout statements block) (body : Body)
    (start : Span) (chain : List OpenBranch) : ∃ condition' statements' stop,
      run ⟨body, .operand [] [] ⟨[], .condition start chain⟩ false⟩ (tokens ++ block) =
        .ok ⟨body, .afterBranch ⟨start, condition', statements'⟩ chain stop false⟩ ∧
      condition'.bare = condition.bare ∧
      Statement.bareAll statements' = Statement.bareAll statements := by
  obtain ⟨s, condition', hrun, hbare, hreads⟩ :=
    whole_expression_reads hp h body (.condition start chain) false
  obtain ⟨statements', stop, hrun', hbare'⟩ := block_reads s body
    (.firstBranch start condition' chain) hread hblock fun t ht => by
      rw [hreads.ended (by simp [ht]) (by simp [ht])]
      simp [ht, closeStep, goalStep, openBlock]
  exact ⟨condition', statements', stop, by rw [run_append hrun, hrun']; rfl, hbare, hbare'⟩

/-- The way to an `else`. -/
theorem run_else {word : Token} (hlines : Newlines lines) (hword : word.isKeyword "else" = true)
    (branch : OpenBranch) (chain : List OpenBranch) (stop : Span) (newline : Bool) :
    run ⟨body, .afterBranch branch chain stop newline⟩ (lines ++ word :: rest) =
      run ⟨body, .alternative branch chain⟩ rest := by
  induction lines generalizing newline with
  | nil =>
    refine run_cons ?_ rest
    simp [step, hword, (of_isKeyword hword).1]
  | cons l lines ih =>
    have hl : step ⟨body, .afterBranch branch chain stop newline⟩ l =
        .ok ⟨body, .afterBranch branch chain stop true⟩ := by
      simp [step, hlines l (by simp)]
    rw [List.cons_append, run_cons hl, ih (fun l' hl' => hlines l' (by simp [hl'])) true]

mutual

/-- A layout of a statement is read as that statement. -/
theorem statement_reads : ∀ (statement : Statement), statement.Printable →
    ∀ {tokens : List Token}, statement.Layout tokens → ∀ body : Body, ∃ s statement',
      run ⟨body, .statement⟩ tokens = .ok s ∧ statement'.bare = statement.bare ∧
        Ends s (body.push statement')
  | .declare target value span, hp, _,
      @Statement.Layout.declare _ _ _ word name sign tokens hword hname hsign hvalue, body => by
    obtain ⟨hkind, htext⟩ := of_isKeyword hword
    obtain ⟨s, value', hrun, hbare, hreads⟩ := whole_expression_reads hp hvalue body
      (.declare word.span ⟨name.text, name.span⟩) false
    refine ⟨s, .declare ⟨name.text, name.span⟩ value' (word.span.through value'.span), ?_, ?_,
      .of_reads hreads (fun _ => rfl) rfl⟩
    · rw [← hrun]
      simp [run, step, statementStep, keywordStatement, hkind, htext, hname.1, hsign.1, hsign.2]
    · simp only [Statement.bare, Named.bare, hname.2, hbare]
  | .assign target op opSpan value span, hp, _,
      @Statement.Layout.assign _ _ _ _ _ name sign tokens hname hsign hvalue, body => by
    obtain ⟨s, value', hrun, hbare, hreads⟩ := whole_expression_reads hp hvalue body
      (.assign ⟨name.text, name.span⟩ op sign.span) false
    refine ⟨s, _, ?_, ?_, .of_reads hreads (fun _ => rfl) rfl⟩
    · rw [← hrun]
      simp [run, step, statementStep, afterNameStep, hname.1, hsign.1, hsign.2,
        assignment?_assignmentSymbol]
    · simp only [Statement.bare, Named.bare, hname.2, hbare]
  | .yield value span, hp, _, @Statement.Layout.yield _ _ word tokens hword hvalue, body => by
    obtain ⟨hkind, htext⟩ := of_isKeyword hword
    obtain ⟨s, value', hrun, hbare, hreads⟩ :=
      whole_expression_reads hp hvalue body (.yield word.span) false
    refine ⟨s, _, ?_, ?_, .of_reads hreads (fun _ => rfl) rfl⟩
    · rw [← hrun]
      simp [run, step, statementStep, keywordStatement, hkind, htext]
    · simp only [Statement.bare, hbare]
  | .function name parameters statements span, hp, _,
      @Statement.Layout.function _ _ _ _ word t bracket tokens block hword hname hopen hparameters
        hbody, body => by
    obtain ⟨hkind, htext⟩ := of_isKeyword hword
    obtain ⟨parameters', _, hrun, hbare⟩ :=
      (parameterStates_fits body word.span ⟨t.text, t.span⟩).reads hparameters
        fun x _ => parameter_reads body word.span _ x
    obtain ⟨statements', stop, hrun', hbare'⟩ := block_reads
      ⟨body, .block (.function word.span ⟨t.text, t.span⟩ parameters')⟩ body
      (.function word.span ⟨t.text, t.span⟩ parameters') (statements_read statements hp) hbody
      fun brace hbrace => by simp [step, openBlock, hbrace]
    refine ⟨_, .function ⟨t.text, t.span⟩ parameters' statements' (word.span.through stop), ?_, ?_,
      .ended _⟩
    · have hhead : run ⟨body, .statement⟩ (word :: t :: bracket :: (tokens ++ block)) =
          run ⟨body, .firstParameter word.span ⟨t.text, t.span⟩⟩ (tokens ++ block) := by
        simp [run, step, statementStep, keywordStatement, hkind, htext, hname.1, hopen]
      rw [hhead]
      exact (run_append hrun block).trans hrun'
    · simp only [Statement.bare, Named.bare, hname.2, hbare, hbare']
  | .call name arguments span, hp, _,
      @Statement.Layout.call _ _ _ t bracket tokens hname hopen h, body => by
    obtain ⟨es, stop, hrun, hbare⟩ := (callStates_fits body none ⟨t.text, t.span⟩).reads h
      fun e he => argument_reads (arguments_read arguments hp e he) body none _
    refine ⟨_, .call t.text es (t.span.through stop), ?_, ?_, .ended _⟩
    · have hname' : step ⟨body, .statement⟩ t = .ok ⟨body, .afterName ⟨t.text, t.span⟩⟩ := by
        simp [step, statementStep, hname.1]
      have hopen' : step ⟨body, .afterName ⟨t.text, t.span⟩⟩ bracket =
          .ok ⟨body, .firstArgument (callContext none ⟨t.text, t.span⟩ [])⟩ := by
        simp [step, afterNameStep, hopen, callContext]
      rw [run_cons hname', run_cons hopen']
      exact hrun
    · simp only [Statement.bare, Expr.bareAll_eq, hbare, hname.2]
  | .branch condition statements otherwise span, hp, _,
      @Statement.Layout.branch _ _ _ _ word tokens block rest hword hcondition hbody hrest, body => by
    obtain ⟨hkind, htext⟩ := of_isKeyword hword
    obtain ⟨condition', statements', stop, hrun, hbare, hbare'⟩ := condition_reads hp.1
      (statements_read statements hp.2.1) hcondition hbody body word.span []
    obtain ⟨s, otherwise', stop', hrun', hbare'', hends⟩ := alternative_reads otherwise hp.2.2 hrest
      body ⟨word.span, condition', statements'⟩ [] stop
    refine ⟨s, _, ?_, ?_, hends⟩
    · rw [← hrun', ← run_append hrun]
      simp [run, step, statementStep, keywordStatement, hkind, htext]
    · simp only [closeBranches, Statement.bare, hbare, hbare', hbare'']
  | .directive name span, _, _, @Statement.Layout.directive _ _ sign t hsign hname, body => by
    refine ⟨_, .directive ⟨t.text, t.span⟩ (sign.span.through t.span), ?_, ?_, .ended _⟩
    · simp [run, step, statementStep, hsign, hname.1]
    · simp only [Statement.bare, Named.bare, hname.2]
  | .comment text span, _, _, @Statement.Layout.comment _ _ t hkind htext, body => by
    refine ⟨_, .comment t.text t.span, ?_, ?_, .ended _⟩
    · simp [run, step, statementStep, hkind]
    · simp only [Statement.bare, htext]

/-- A layout of what follows a branch is read as that. -/
theorem alternative_reads : ∀ (otherwise : Alternative), otherwise.Printable →
    ∀ {tokens : List Token}, otherwise.Layout tokens →
    ∀ (body : Body) (branch : OpenBranch) (chain : List OpenBranch) (stop : Span),
      ∃ s otherwise' stop', run ⟨body, .afterBranch branch chain stop false⟩ tokens = .ok s ∧
        otherwise'.bare = otherwise.bare ∧
        Ends s (body.push (closeBranches branch chain otherwise' stop'))
  | .none, _, _, .none, body, branch, chain, stop =>
    ⟨_, .none, stop, rfl, rfl, .of_branch body branch chain stop⟩
  | .block statements, hp, _,
      @Alternative.Layout.block _ lines block word hlines hword hbody, body, branch, chain, stop => by
    obtain ⟨statements', stop', hrun, hbare⟩ := block_reads
      ⟨body, .alternative branch chain⟩ body (.lastBranch branch chain)
      (statements_read statements hp) hbody fun brace hbrace => by
        simp [step, openBlock, hbrace, Token.isKeyword]
    refine ⟨_, .block statements', stop', ?_, ?_, .ended _⟩
    · rw [run_else hlines hword, hrun]
      rfl
    · simp only [Alternative.bare, hbare]
  | .branch condition statements otherwise span, hp, _,
      @Alternative.Layout.branch _ _ _ _ lines tokens block rest word word' hlines hword hword'
        hcondition hbody hrest, body, branch, chain, stop => by
    obtain ⟨condition', statements', stop₁, hrun, hbare, hbare'⟩ := condition_reads hp.1
      (statements_read statements hp.2.1) hcondition hbody body word'.span (branch :: chain)
    obtain ⟨s, otherwise', stop₂, hrun', hbare'', hends⟩ := alternative_reads otherwise hp.2.2 hrest
      body ⟨word'.span, condition', statements'⟩ (branch :: chain) stop₁
    refine ⟨s, .branch condition' statements' otherwise' (word'.span.through stop₂), stop₂, ?_, ?_,
      hends⟩
    · rw [run_else hlines hword, ← hrun', ← run_append hrun]
      simp [run, step, hword']
    · simp only [Alternative.bare, hbare, hbare', hbare'']

/-- Statements are read one after the other. -/
theorem statements_read : ∀ (statements : List Statement), Statement.AllPrintable statements →
    ∀ {tokens : List Token}, StatementsLayout statements tokens → StatementsRead statements tokens
  | [], _, _, .nil, body, t, rest, _ => ⟨[], rfl, rfl⟩
  | statement :: statements, hp, _,
      @StatementsLayout.cons _ _ tokens separators rest hs hseparators hfollow hrest,
      body, t, rest', ht => by
    obtain ⟨s, statement', hrun, hbare, hends⟩ := statement_reads statement hp.1 hs body
    obtain ⟨statements', hrun', hbare'⟩ :=
      statements_read statements hp.2 hrest (body.push statement') t rest' ht
    -- the token after the separators starts the next statement, or closes the block
    obtain ⟨t₁, rest₁, hcons, hsep, helse, hend⟩ : ∃ t₁ rest₁, rest ++ t :: rest' = t₁ :: rest₁ ∧
        t₁.isSeparator = false ∧ t₁.isKeyword "else" = false ∧
        (separators = [] → t₁.EndsStatement) := by
      cases hrest with
      | nil =>
        refine ⟨t, rest', rfl, ?_, ?_, fun _ => ?_⟩
        · rcases ht with ht | ht <;> simp [Token.isSeparator, ht]
        · rcases ht with ht | ht <;> simp [Token.isKeyword, ht]
        · exact ht.imp id .inr
      | cons hnext _ _ _ =>
        obtain ⟨t₁, rest₁, rfl, hsep, helse, hcomment⟩ := statement_exists_cons hnext
        exact ⟨t₁, _, rfl, hsep, helse, fun h => .inr (.inl (hcomment _ (hfollow h)))⟩
    refine ⟨statement' :: statements', ?_, ?_⟩
    · rw [List.append_assoc, run_append hrun, List.append_assoc, hcons,
        hends separators t₁ rest₁ hseparators hsep helse hend, ← hcons, hrun']
      simp [Body.pushAll, Body.push]
    · simp only [Statement.bareAll, hbare, hbare']

end

end Parser

/-! ## Programs -/

theorem kind_endToken (tokens : List Token) : (endToken tokens).kind = .endOfFile := by
  rw [endToken]
  split
  next t ht => simpa using List.find?_some ht
  next => rfl

/-- What is read of a token list ends where its first end of file stands. -/
theorem takeWhile_noEnd {tokens tail : List Token} (h : NoEnd tokens)
    (htail : ∀ t ∈ tail.head?, t.kind = .endOfFile) :
    (tokens ++ tail).takeWhile (fun t => t.kind ≠ .endOfFile) = tokens := by
  rw [List.takeWhile_append_of_pos fun t ht => by simpa using h t ht]
  cases tail with
  | nil => simp
  | cons t tail => simp [htail t (by simp)]

/-- Parsing undoes printing: every layout of a printable program is read as that program, up to the
places where it is written. -/
theorem Program.ofTokens_of_layout {p : Program} {tokens : List Token} (hp : p.Printable)
    (h : p.Layout tokens) : ∃ q, Program.ofTokens tokens = .ok q ∧ q.bare = p.bare := by
  obtain @⟨separators, inner, tail, hseparators, hstatements, htail⟩ := h
  have hnoEnd : NoEnd (separators ++ inner) := by
    simp [hseparators.noEnd, noEnd_of_statements p.statements hstatements]
  have hbefore := takeWhile_noEnd hnoEnd htail
  rw [List.append_assoc] at hbefore
  have hstop := kind_endToken (separators ++ (inner ++ tail))
  obtain ⟨statements, hrun, hbare⟩ := Parser.statements_read p.statements hp hstatements ⟨[], []⟩
    (endToken (separators ++ (inner ++ tail))) [] (.inr hstop)
  have hend : Parser.run .start
      (separators ++ inner ++ [endToken (separators ++ (inner ++ tail))]) =
        .ok ⟨⟨statements.reverse, []⟩, .statement⟩ := by
    rw [List.append_assoc, Parser.State.start, Parser.run_separators hseparators, hrun]
    simp [Parser.run, Parser.step, Parser.statementStep, hstop, Parser.Body.pushAll]
  refine ⟨_, by simp only [Program.ofTokens, hbefore, hend]; rfl, ?_⟩
  simp only [Program.bare, List.reverse_reverse, hbare]

/-- The program `x = 1 - -2` with the two written as `2.0`, a newline and a semicolon at its end and
no end of file. -/
theorem Program.ofTokens_of_layout_assignment :
    ∃ q, Program.ofTokens [⟨.identifier, "x", .empty⟩, ⟨.operator, "=", .empty⟩,
        ⟨.number, "1", .empty⟩, ⟨.operator, "-", .empty⟩, ⟨.operator, "-", .empty⟩,
        ⟨.number, "2.0", .empty⟩, ⟨.newline, "\n", .empty⟩, ⟨.semicolon, ";", .empty⟩] = .ok q ∧
      q.bare = ⟨[.assign ⟨"x", .empty⟩ none .empty
        (.binary (.arithmetic .subtract) .empty
          (.literal (.number (.ofDecimal false 1 0)) .empty)
          (.unary .minus .empty (.literal (.number (.ofDecimal false 2 0)) .empty) .empty) .empty)
        .empty], .empty⟩ := by
  let one : Expr := .literal (.number (.ofDecimal false 1 0)) .empty
  let two : Expr := .literal (.number (.ofDecimal false 2 0)) .empty
  let value : Expr :=
    .binary (.arithmetic .subtract) .empty one (.unary .minus .empty two .empty) .empty
  have hone : one.Layout [⟨.number, "1", .empty⟩] := .literal ⟨rfl, by decide +kernel⟩
  have htwo : two.Layout [⟨.number, "2.0", .empty⟩] := .literal ⟨rfl, by decide +kernel⟩
  have hvalue : value.Layout ([⟨.number, "1", .empty⟩] ++ ⟨.operator, "-", .empty⟩ ::
      [⟨.operator, "-", .empty⟩, ⟨.number, "2.0", .empty⟩]) :=
    .binary hone ⟨rfl, rfl⟩ (.unary ⟨rfl, rfl⟩ htwo)
  let statement : Statement := .assign ⟨"x", .empty⟩ none .empty value .empty
  have hstatement : statement.Layout
      (⟨.identifier, "x", .empty⟩ :: ⟨.operator, "=", .empty⟩ :: _) :=
    .assign ⟨rfl, rfl⟩ ⟨rfl, rfl⟩ hvalue
  have hseparators : Separators [⟨.newline, "\n", .empty⟩, ⟨.semicolon, ";", .empty⟩] := by
    simp [Separators, Token.isSeparator]
  have hlayout : Program.Layout ⟨[statement], .empty⟩ ([] ++ (_ ++ [])) :=
    .program (by simp [Separators]) (.cons hstatement hseparators (by simp) .nil) (by simp)
  have hprintable : Program.Printable ⟨[statement], .empty⟩ :=
    ⟨⟨⟨by decide, trivial⟩, by decide, rfl, trivial⟩, trivial⟩
  exact Program.ofTokens_of_layout hprintable hlayout

end ScriptBlocks
