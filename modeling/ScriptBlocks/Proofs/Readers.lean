import ScriptBlocks.Proofs.Following
import ScriptBlocks.Proofs.Rows

/-!
# What the descent reads

Every reader follows the parser. What it reads has a bracket around every operand that needs one, says
what the tokens that were taken say, and lies where they lie. No reader has a fault, so that the whole
descent answers what the parser answers.
-/

namespace ScriptBlocks

variable {inner : List Token} {e : Expr} {goal : Goal} {depth : Nat}
variable {lines : List Token} {newlines : Bool}

namespace Descent

open ScriptBlocks.Parser

variable {α : Type} {tokens rest : List Token} {t : Token} {i : Nat} {s w : State} {p : Parts}
variable {body : Body} {binaries : List OpenBinary} {context : Context} {signs : Signs}

/-! ## What the readers of parts do -/

/-- The next token is no binary operator that binds at least this tightly. -/
def Below (k : Nat) (rest : List Token) : Prop :=
  ∀ t ∈ rest.head?, ∀ op, t.kind = .operator → BinaryOp.ofSymbol? t.text = some op → op.precedence < k

/-- No newline is next where newlines may stand. -/
def Starts (newlines : Bool) (rest : List Token) : Prop :=
  newlines = true → ∀ t ∈ rest.head?, t.kind ≠ .newline

/-- The expression is what the tokens say, and holds together at least this tightly. -/
structure ExprRead (k : Nat) (e : Expr) (taken : List Token) : Prop where
  ne : taken ≠ []
  spells : Spells taken e.lexemes [e.piece]
  printable : e.Printable
  strength : k ≤ e.strength

structure StatementRead (statement : Statement) (taken : List Token) : Prop where
  ne : taken ≠ []
  spells : Spells taken statement.lexemes [statement.piece]
  printable : statement.Printable

/-- The signs before an operand have been applied to it. -/
def OperandRead (body : Body) (signs : Signs) (binaries : List OpenBinary) (context : Context)
    (e : Expr) (taken _ : List Token) (s : State) : Prop :=
  ExprRead 6 e taken ∧ s = ⟨body, .operated binaries context (applySigns signs e)⟩

/-- The statement stands in the body. -/
def Pushed (body : Body) (statement : Statement) (taken _ : List Token) (s : State) : Prop :=
  StatementRead statement taken ∧ s = ⟨body.push statement, .ended⟩

/-- The reader reads an operand, after whatever signs. -/
def ReadsUnary (tokens : List Token) (m : Descent Expr) (i : Nat) : Prop :=
  ∀ {rest}, Ahead tokens i rest → ∀ body signs binaries context newlines, Starts newlines rest →
    Leads tokens m i rest ⟨body, .operand signs binaries context newlines⟩
      (OperandRead body signs binaries context)

def ReadsExpression (tokens : List Token) (m : Descent Expr) (least i : Nat) : Prop :=
  ∀ {rest}, Ahead tokens i rest → ∀ body binaries context newlines, Starts newlines rest →
    (∀ b ∈ binaries.head?, b.op.precedence < least) →
    Leads tokens m i rest ⟨body, .operand [] binaries context newlines⟩ fun e taken rest' s' =>
      ExprRead least e taken ∧ s' = ⟨body, .operated binaries context e⟩ ∧ Below least rest'

def ReadsStatement (tokens : List Token) (m : Descent Statement) (i : Nat) : Prop :=
  ∀ {t rest}, Ahead tokens i (t :: rest) → ∀ body : Body, t.isSeparator = false →
    t.kind ≠ .endOfFile → (t.kind = .rightBrace → body.outer = []) →
    Leads tokens m i (t :: rest) ⟨body, .statement⟩ (Pushed body)

def ReadsConditional (tokens : List Token) (m : Descent Conditional) (i : Nat) : Prop :=
  ∀ {t rest s}, Ahead tokens i (t :: rest) → ∀ (body : Body) (chain : List OpenBranch),
    t.isKeyword "if" = true →
    step s t = .ok ⟨body, .operand [] [] ⟨[], .condition t.span chain⟩ false⟩ →
    Leads tokens m i (t :: rest) s fun c taken _ s' =>
      StatementRead (.branch c.condition c.body c.otherwise c.span) taken ∧
      ∃ inner stop, taken = inner ++ [stop] ∧ c.span = t.span.through stop.span ∧
        s' = ⟨body.push (closeBranches ⟨t.span, c.condition, c.body⟩ chain c.otherwise stop.span),
          .ended⟩

/-- The readers of parts do what the parser does, from the index on. -/
structure Sound (tokens : List Token) (p : Parts) (i : Nat) : Prop where
  statement : ReadsStatement tokens p.statement i
  conditional : ReadsConditional tokens p.conditional i
  expression {least : Nat} (h : least ≤ 6) : ReadsExpression tokens (p.expression least) least i
  unary : ReadsUnary tokens p.unary i

theorem newline_noEnd (t : Token) (h : decide (t.kind = .newline) = true) :
    t.kind ≠ .endOfFile := by
  simp [of_decide_eq_true h]

theorem newlines_of_skipped (h : ∀ l ∈ lines, decide (l.kind = .newline) = true) : Newlines lines :=
  fun l hl => of_decide_eq_true (h l hl)

theorem separators_of_newlines (h : Newlines lines) : Separators lines :=
  fun l hl => by simp [Token.isSeparator, h l hl]

/-! ## Lists -/

/-- After the item newlines lead to a state that goes on with what closes the item. -/
def After (l : ListStates α) (x : α) (before : List α) (s : State) (rest : List Token) : Prop :=
  ∀ lines t rest', rest = lines ++ t :: rest' → Newlines lines → t.kind ≠ .newline →
    ∃ w, run s rest = run w (t :: rest') ∧ step w t = l.close x before t

section

variable {item : Descent α} {l : ListStates α} {cause : ParseCause} {before : List α}
variable {said : α → List Lexeme} {piece : α → Piece} {P : α → Prop}

theorem itemTurn_leads (hl : l.Fits cause) (h : Ahead tokens i rest)
    (hitem : ∀ {j rest t}, i ≤ j → Ahead tokens j (t :: rest) → t.kind ≠ .newline →
      Leads tokens item j (t :: rest) (l.next before) fun x taken rest' s' =>
        Spells taken (said x) [piece x] ∧ P x ∧ After l x before s' rest') :
    Leads tokens (itemTurn item before) i rest (l.next before) fun result taken rest' s' =>
      ∃ x, P x ∧ match result with
      | .inl items => items = x :: before ∧
          Spells taken (said x ++ [.mark .comma]) [piece x] ∧ taken ≠ [] ∧ s' = l.next items
      | .inr items => items = (x :: before).reverse ∧ Spells taken (said x) [piece x] ∧
          ∃ t r, rest' = t :: r ∧ t.kind ≠ .newline ∧ t.kind ≠ .comma ∧
            step s' t = l.close x before t := by
  refine skip_leads newline_noEnd h fun lines t rest' heq hlines ht hahead => ?_
  have hlines := newlines_of_skipped hlines
  refine ⟨l.next before, ?_, ?_⟩
  · rw [heq]
    exact run_skip (fun l' hl' => hl.next_newline (hlines l' hl')) _
  refine (hitem (Nat.le_add_right _ _) hahead (of_decide_eq_false ht)).bind
    fun x taken rest₁ s₁ _ hahead₁ hread => ?_
  obtain ⟨hspells, hx, hafter⟩ := hread
  refine skip_leads newline_noEnd hahead₁ fun lines₂ t₂ rest₂ heq₂ hlines₂ ht₂ hahead₂ => ?_
  have hlines₂ := newlines_of_skipped hlines₂
  have ht₂ := of_decide_eq_false ht₂
  obtain ⟨w, hrun, hstep⟩ := hafter lines₂ t₂ rest₂ heq₂ hlines₂ ht₂
  have hspells : Spells (lines ++ (taken ++ lines₂)) (said x) [piece x] := by
    simpa using (Spells.skipped (separators_of_newlines hlines)).append
      (hspells.append (.skipped (separators_of_newlines hlines₂)))
  refine ⟨w, hrun, .current hahead₂ ?_⟩
  split
  next hcomma =>
    refine .advance hahead₂ (hstep.trans (hl.close_comma hcomma)) (by simp [hcomma]) fun hahead₃ => ?_
    refine .pure hahead₃ ⟨x, hx, rfl, ?_, by simp, rfl⟩
    simpa using hspells.append (Spells.mark hcomma).drop
  next hcomma =>
    refine .pure hahead₂ ⟨x, hx, rfl, ?_, t₂, rest₂, rfl, ht₂, hcomma, hstep⟩
    simpa using hspells

/-- A list from the bracket that opens it on. -/
theorem listed_leads (said : α → List Lexeme) (piece : α → Piece) (P : α → Prop)
    (hl : l.Fits cause) (h : Ahead tokens i rest)
    (hitem : ∀ {before j rest t}, i ≤ j → Ahead tokens j (t :: rest) → t.kind ≠ .newline →
      Leads tokens item j (t :: rest) (l.next before) fun x taken rest' s' =>
        Spells taken (said x) [piece x] ∧ P x ∧ After l x before s' rest') :
    Leads tokens (listed item cause) i rest l.first fun result taken _ s' =>
      s' = l.closed result.1 result.2 ∧ (∀ x ∈ result.1, P x) ∧
      ∃ inner close, taken = inner ++ [close] ∧ close.span = result.2 ∧
        Spells taken ([.mark .comma].intercalate (result.1.map said) ++ [.mark .rightParen])
          (result.1.map piece) := by
  refine skip_leads newline_noEnd h fun lines t rest' heq hlines ht hahead => ?_
  have hlines := newlines_of_skipped hlines
  have ht := of_decide_eq_false ht
  refine ⟨l.first, ?_, ?_⟩
  · rw [heq]
    exact run_skip (fun l' hl' => hl.first_newline (hlines l' hl')) _
  -- what is left is the bracket that closes the list
  refine Leads.bind (R := fun items taken rest' s' =>
    (∀ x ∈ items, P x) ∧ Spells taken ([.mark .comma].intercalate (items.map said)) (items.map piece) ∧
      ∃ t r, rest' = t :: r ∧ (t.kind = .rightParen → step s' t = .ok (l.closed items t.span)) ∧
        (t.kind ≠ .rightParen → step s' t = .error cause)) ?_ ?_
  · refine .current hahead ?_
    split
    next hclose =>
      exact .pure hahead ⟨by simp, by simpa [List.intercalate] using Spells.nil, t, rest', rfl,
        fun h => hl.first_close h, absurd hclose⟩
    next hclose =>
      refine .congr (run_congr (hl.first_item ht hclose) rest') ?_
      refine .loop (I := fun before taken _ s' => s' = l.next before ∧ (∀ x ∈ before, P x) ∧
        Spells taken (before.reverse.flatMap (said · ++ [.mark .comma])) (before.reverse.map piece))
        ?_ hahead ⟨rfl, by simp, .nil⟩
      rintro before taken rest₁ s₁ hahead₁ ⟨rfl, hbefore, hspells⟩
      refine (itemTurn_leads hl hahead₁ fun hj => hitem (by omega)).mono ?_
      rintro (items | items) taken' rest₂ s₂ - ⟨x, hx, rfl, hspells', hresult⟩
      · refine ⟨hresult.1, hresult.2, List.forall_mem_cons.2 ⟨hx, hbefore⟩, ?_⟩
        simpa using hspells.append hspells'
      · obtain ⟨t₂, r, rfl, hline, hcomma, hstep⟩ := hresult
        refine ⟨by simpa [or_imp, forall_and, hx] using hbefore, ?_, t₂, r, rfl,
          fun h => hstep.trans (hl.close_close h),
          fun h => hstep.trans (hl.close_other hline hcomma h)⟩
        rw [List.reverse_cons, List.map_append, List.map_append, List.map_singleton,
          ← Lexeme.flatMap_comma_append, List.flatMap_map]
        exact hspells.append hspells'
  · rintro items taken _ s₁ - hahead₁ ⟨hitems, hspells, t₁, r, rfl, hok, herror⟩
    refine .consume hahead₁ (by decide) hok herror fun hclose hahead₂ => ?_
    refine .pure hahead₂ ⟨rfl, hitems, lines ++ taken, t₁, by simp, rfl, ?_⟩
    simpa using (Spells.skipped (separators_of_newlines hlines)).append
      (hspells.append (Spells.mark hclose).drop)

end

/-! ## Expressions -/

theorem binary?_eq_none
    (hb : ∀ op, t.kind = .operator → BinaryOp.ofSymbol? t.text = some op → op.precedence < 1) :
    (if t.kind = .operator then BinaryOp.ofSymbol? t.text else none) = none := by
  split
  next ht =>
    cases hop : BinaryOp.ofSymbol? t.text with
    | none => rfl
    | some op =>
      have hlt := hb op ht hop
      have hpos := op.precedence_pos
      omega
  next => rfl

/-- Inside brackets newlines may stand after an expression. -/
theorem operated_after (body : Body) (e : Expr) (hskip : context.skipsNewline = true)
    (hb : Below 1 rest) {rest' : List Token} (heq : rest = lines ++ t :: rest')
    (hlines : Newlines lines) (ht : t.kind ≠ .newline) :
    ∃ w, run ⟨body, .operated [] context e⟩ rest = run w (t :: rest') ∧
      step w t = closeStep body context e t := by
  subst heq
  refine run_closing hlines ht hskip rest' fun l hl => ?_
  simp only [step, operatedStep, binary?_eq_none (hb l hl), applyAll, List.foldl_nil]

/-- The arguments of a call from their bracket on. -/
theorem arguments_leads (hp : ∀ j, i < j → Sound tokens p j) (h : Ahead tokens i (t :: rest))
    (ht : t.kind = .leftParen) (body : Body)
    (place : Option (Signs × List OpenBinary × Context)) (function : Named)
    (hstep : step s t = .ok ⟨body, .firstArgument (callContext place function [])⟩) :
    Leads tokens (arguments p) i (t :: rest) s fun result taken _ s' =>
      s' = afterCall body place function result.1 result.2 ∧ Expr.AllPrintable result.1 ∧
      ∃ inner close, taken = inner ++ [close] ∧ close.span = result.2 ∧
        Spells taken (Lexeme.listed (result.1.map Expr.lexemes)) (result.1.map Expr.piece) := by
  refine .advancing ?_ (by simp)
  refine .consume h (by decide) (fun _ => hstep) (absurd ht) fun _ hahead => ?_
  refine (listed_leads Expr.lexemes Expr.piece Expr.Printable
    (callStates_fits body place function) hahead ?_).mono ?_
  · intro before j rest t hj hahead' ht'
    refine ((hp j (by omega)).expression (by decide) hahead' body [] _ true
      (fun _ => by simpa using ht') (by simp)).mono ?_
    rintro e taken rest' _ - ⟨he, rfl, hbelow⟩
    exact ⟨he.spells, he.printable,
      fun lines t rest' heq => operated_after body e skipsNewline_callContext hbelow heq⟩
  · rintro ⟨es, stop⟩ taken rest' s' - ⟨hs, hes, inner, close, rfl, hclose, hspells⟩
    refine ⟨hs, Expr.allPrintable_iff.2 hes, t :: inner, close, rfl, hclose, ?_⟩
    simpa [Lexeme.listed] using (Spells.mark ht).drop.append hspells

/-- A name with its arguments. -/
theorem call_spells {es : List Expr} {close : Token} (ht : t.kind = .identifier)
    (h : Spells (inner ++ [close]) (Lexeme.listed (es.map Expr.lexemes)) (es.map Expr.piece)) :
    Spells (t :: (inner ++ [close])) (.name t.text :: Lexeme.listed (es.map Expr.lexemes))
      [(Expr.call t.text es (t.span.through close.span)).piece] := by
  have hcall := (Spells.name ht).append h
  rw [← List.append_assoc] at hcall
  exact hcall.close fun hQ hclose hrow => hrow.call (f := ⟨t.text, t.span⟩) hQ hclose

/-- A token that is a whole operand. -/
theorem literal_leads {value : Literal} (h : Ahead tokens i (t :: rest)) (hwrites : t.Writes value) :
    Leads tokens (do let _ ← advance; pure (.literal value t.span)) i (t :: rest)
      ⟨body, .operand signs binaries context newlines⟩ (OperandRead body signs binaries context) := by
  have hstep : step ⟨body, .operand signs binaries context newlines⟩ t =
      .ok (complete body signs binaries context (.literal value t.span)) := by
    rcases value with value | value | value | value
    · simp [step, operandStep, hwrites.1, hwrites.2]
    · simp [step, operandStep, hwrites.1, hwrites.2]
    · cases value <;> simp [step, operandStep, hwrites.1, hwrites.2]
    · simp [step, operandStep, hwrites.1, hwrites.2]
  have hsays : t.lexeme = value.lexeme := by
    rcases value with value | value | value | value <;>
      simp [Token.lexeme, hwrites.1, hwrites.2, Literal.lexeme, Lexeme.keyword]
  have hseparator : t.isSeparator = false := by
    rcases value with value | value | value | value <;> simp [Token.isSeparator, hwrites.1]
  refine .advance h hstep hwrites.noEnd fun hahead => .pure hahead ⟨⟨by simp, ?_, trivial, ?_⟩, rfl⟩
  · exact (Spells.token hsays hseparator hwrites.noEnd).join fun _ hrow => hrow.literal value
  · exact Nat.le_refl _

/-- An operand in brackets. -/
theorem paren_leads (hp : ∀ j, i < j → Sound tokens p j) (h : Ahead tokens i (t :: rest))
    (ht : t.kind = .leftParen) : Leads tokens (do
        let _ ← advance
        skipNewlines
        let inner ← p.expression 1
        skipNewlines
        let close ← consume .rightParen .unclosedParenthesis
        pure (.paren inner (t.span.through close.span))) i (t :: rest)
      ⟨body, .operand signs binaries context newlines⟩ (OperandRead body signs binaries context) := by
  let context' : Context := ⟨⟨.paren t.span, signs, binaries⟩ :: context.brackets, context.goal⟩
  have hstep : step ⟨body, .operand signs binaries context newlines⟩ t =
      .ok ⟨body, .operand [] [] context' true⟩ := by
    simp [step, operandStep, ht, context']
  refine .advance h hstep (by simp [ht]) fun hahead => ?_
  refine skip_leads newline_noEnd hahead fun lines t₁ rest₁ heq hlines ht₁ hahead₁ => ?_
  have hlines := newlines_of_skipped hlines
  refine ⟨⟨body, .operand [] [] context' true⟩, ?_, ?_⟩
  · rw [heq]
    exact run_skip (fun l hl => step_operand_newline (hlines l hl)) _
  refine ((hp _ (by omega)).expression (by decide) hahead₁ body [] context' true
    (fun _ => by simpa using ht₁) (by simp)).bind ?_
  rintro e taken rest₂ _ - hahead₂ ⟨he, rfl, hbelow⟩
  refine skip_leads newline_noEnd hahead₂ fun lines₃ t₃ rest₃ heq₃ hlines₃ ht₃ hahead₃ => ?_
  have hlines₃ := newlines_of_skipped hlines₃
  have hskips : context'.skipsNewline = true := rfl
  obtain ⟨w, hrun, hclose⟩ :=
    operated_after body e hskips hbelow heq₃ hlines₃ (of_decide_eq_false ht₃)
  refine ⟨w, hrun, .consume (w := complete body signs binaries context
    (.paren e (t.span.through t₃.span))) hahead₃ (by decide) (fun hkind => ?_) (fun hkind => ?_)
    fun hkind hahead₄ => ?_⟩
  · rw [hclose]
    simp [closeStep, context', hkind]
  · rw [hclose]
    simp [closeStep, context', hkind]
  · refine .pure hahead₄ ⟨⟨by simp, ?_, he.printable, Nat.le_refl _⟩, rfl⟩
    have hparts := (Spells.mark ht).append ((Spells.skipped (separators_of_newlines hlines)).append
      (he.spells.append ((Spells.skipped (separators_of_newlines hlines₃)).append
        (Spells.mark hkind).drop)))
    simp only [← List.append_assoc] at hparts
    have hclosed := hparts.close fun hQ hclose hrow => hrow.paren hQ hclose
    simpa [Expr.lexemes] using hclosed

theorem primary_leads (hp : ∀ j, i < j → Sound tokens p j) (h : Ahead tokens i (t :: rest))
    (hline : newlines = true → t.kind ≠ .newline)
    (hsign : t.kind = .operator → UnaryOp.ofSymbol? t.text = none) :
    Leads tokens (primary p) i (t :: rest) ⟨body, .operand signs binaries context newlines⟩
      (OperandRead body signs binaries context) := by
  have hfound {cause : ParseCause}
      (hstep : operandStep body signs binaries context newlines t = .error cause) :
      Leads tokens (refuse cause t) i (t :: rest) ⟨body, .operand signs binaries context newlines⟩
        (OperandRead body signs binaries context) :=
    .refuse hstep
  refine .current h ?_
  simp only
  split
  next ht =>
    cases hvalue : readNumber? t.text with
    | some value => exact literal_leads h ⟨ht, hvalue⟩
    | none =>
      rw [Leads, bind_read (advance_eq h (by simp [ht]))]
      exact hfound (by simp [operandStep, ht, hvalue])
  next ht => exact literal_leads h ⟨ht, rfl⟩
  next ht => exact literal_leads h ⟨ht, rfl⟩
  next ht =>
    split
    next htext => exact literal_leads h ⟨ht, htext⟩
    next htrue =>
      split
      next htext => exact literal_leads h ⟨ht, htext⟩
      next hfalse => exact hfound (by simp [operandStep, ht, htrue, hfalse])
  next ht =>
    have hstep : step ⟨body, .operand signs binaries context newlines⟩ t =
        .ok ⟨body, .operandName signs binaries context ⟨t.text, t.span⟩⟩ := by
      simp [step, operandStep, ht]
    refine .advance h hstep (by simp [ht]) fun hahead => ?_
    obtain ⟨u, rest', rfl⟩ := hahead.exists_cons
    refine .current hahead ?_
    split
    next hu =>
      refine Leads.bind (arguments_leads (fun j hj => hp j (by omega)) hahead hu body
        (some (signs, binaries, context)) ⟨t.text, t.span⟩ (by simp [step, hu, callContext])) ?_
      rintro ⟨es, stop⟩ taken rest₂ _ - hahead₂ ⟨rfl, hes, inner, close, rfl, rfl, hspells⟩
      refine .pure hahead₂ ⟨⟨by simp, ?_, hes, Nat.le_refl _⟩, rfl⟩
      simpa [Expr.lexemes] using call_spells ht hspells
    next hu =>
      refine .congr (w := ⟨body, .operated binaries context (applySigns signs (.name t.text t.span))⟩)
        (run_congr (by simp [step, hu]) rest') ?_
      refine .pure hahead ⟨⟨by simp, ?_, trivial, Nat.le_refl _⟩, rfl⟩
      exact (Spells.name ht).join fun _ hrow => hrow.name (f := ⟨t.text, t.span⟩)
  next ht => exact paren_leads hp h ht
  next ht => exact hfound (by simp [operandStep, ht])
  next hn hs hc hk hi hl he =>
    refine hfound ?_
    rw [operandStep]
    split <;> simp_all

theorem unary_leads (hp : ∀ j, i < j → Sound tokens p j) : ReadsUnary tokens (unary p) i := by
  intro rest h body signs binaries context newlines hline
  obtain ⟨t, rest, rfl⟩ := h.exists_cons
  refine .current h ?_
  split
  next op hop =>
    split at hop
    next ht =>
      have hstep : step ⟨body, .operand signs binaries context newlines⟩ t =
          .ok ⟨body, .operand ((op, t.span) :: signs) binaries context false⟩ := by
        simp [step, operandStep, ht, hop]
      refine .advance h hstep (by simp [ht]) fun hahead => ?_
      refine ((hp _ (by omega)).unary hahead body _ binaries context false (by simp [Starts])).bind ?_
      rintro e taken rest' _ - hahead' ⟨he, rfl⟩
      refine .pure hahead' ⟨⟨by simp, ?_, ⟨?_, he.printable⟩, Nat.le_refl _⟩, rfl⟩
      · have hparts := (Spells.operator ht).append he.spells
        rw [← UnaryOp.symbol_of_ofSymbol? hop] at hparts
        simpa [Expr.lexemes] using hparts.join fun hQ hrow => hrow.unary hQ op
      · cases e with
        | binary op => exact absurd he.strength (Nat.not_le.2 op.precedence_lt)
        | _ => rfl
    next => cases hop
  next hop =>
    refine primary_leads hp h (fun hn => hline hn t rfl) fun ht => ?_
    simpa [ht] using hop

/-- An operator whose right operand is complete is an operand of what surrounds it. -/
theorem step_operated_apply {b : OpenBinary}
    (hb : ∀ op, t.kind = .operator → BinaryOp.ofSymbol? t.text = some op →
      op.precedence ≤ b.op.precedence) : step ⟨body, .operated (b :: binaries) context e⟩ t =
      step ⟨body, .operated binaries context (b.apply e)⟩ t := by
  simp only [step, operatedStep]
  split
  next op hop =>
    split at hop
    next ht => rw [applyBinaries, if_pos (hb op ht hop)]
    next => cases hop
  next => rfl

theorem expression_leads (hp : ∀ j, i < j → Sound tokens p j) {least : Nat} (hleast : least ≤ 6) :
    ReadsExpression tokens (expression p least) least i := by
  intro rest h body binaries context newlines hline hhead
  refine .advancing ?_ fun _ _ _ hread => hread.1.ne rfl
  refine (unary_leads hp h body [] binaries context newlines hline).bind ?_
  rintro left taken rest' _ - hahead ⟨hleft, rfl⟩
  have htaken := List.length_pos_iff.2 hleft.ne
  -- an operator that comes next binds no more tightly than what has been read
  refine .loop (I := fun e taken' rest' s' => ExprRead least e (taken ++ taken') ∧
    s' = ⟨body, .operated binaries context e⟩ ∧ Below (e.strength + 1) rest') ?_ hahead ?_
  · rintro e taken' rest₁ _ hahead₁ ⟨he, rfl, hbelow⟩
    obtain ⟨t, rest₁, rfl⟩ := hahead₁.exists_cons
    refine .current hahead₁ ?_
    split
    next op hop =>
      split at hop
      next ht =>
        split
        next hlt =>
          refine .pure hahead₁ ⟨by simpa using he, rfl, ?_⟩
          rintro _ ⟨⟩ op' - hop'
          rw [hop] at hop'
          cases hop'
          exact hlt
        next hle =>
          have hstep : step ⟨body, .operated binaries context e⟩ t =
              .ok ⟨body, .operand [] (⟨e, op, t.span⟩ :: binaries) context false⟩ := by
            have happly : applyBinaries op.precedence binaries e = (binaries, e) :=
              applyBinaries_append (List.forall_mem_nil _)
                (fun b hb => Nat.lt_of_lt_of_le (hhead b hb) (Nat.not_lt.1 hle)) e
            simp only [step, operatedStep, ht, hop, if_true]
            rw [happly]
          refine .advance hahead₁ hstep (by simp [ht]) fun hahead₂ => ?_
          refine ((hp _ (by omega)).expression (Nat.succ_le_of_lt op.precedence_lt) hahead₂ body
            (⟨e, op, t.span⟩ :: binaries) context false (by simp [Starts]) (by simp)).bind ?_
          rintro right taken₃ rest₃ _ - hahead₃ ⟨hright, rfl, hbelow₃⟩
          obtain ⟨u, rest₃, rfl⟩ := hahead₃.exists_cons
          refine .congr (run_congr (step_operated_apply fun op' hu hop' =>
            Nat.le_of_lt_succ (hbelow₃ u rfl op' hu hop')) rest₃) ?_
          refine .pure hahead₃ ⟨by simp, ⟨by simp [hleft.ne], ?_, ⟨⟨?_, he.printable⟩,
            hright.strength, hright.printable⟩, Nat.not_lt.1 hle⟩, rfl, hbelow₃⟩
          · have hparts := he.spells.append ((Spells.operator ht).append hright.spells)
            rw [← BinaryOp.symbol_of_ofSymbol? hop] at hparts
            simpa [Expr.lexemes] using hparts.join fun hQ hrow => hrow.binary hQ op
          · exact Nat.le_of_lt_succ (hbelow t rfl op ht hop)
      next => cases hop
    next hop =>
      refine .pure hahead₁ ⟨by simpa using he, rfl, ?_⟩
      rintro _ ⟨⟩ op' ht hop'
      simp [ht, hop'] at hop
  · refine ⟨⟨by simpa using hleft.ne, by simpa using hleft.spells, hleft.printable,
      Nat.le_trans hleast hleft.strength⟩, rfl, fun t _ op _ _ => ?_⟩
    exact Nat.lt_succ_of_lt (Nat.lt_of_lt_of_le op.precedence_lt hleft.strength)

/-! ## Blocks -/

/-- The end of a statement leads to where the next one may start. -/
theorem terminator_leads (h : Ahead tokens i rest) (body : Body) :
    Leads tokens terminator i rest ⟨body, .ended⟩ fun _ taken _ s' =>
      Spells taken [] [] ∧ s' = ⟨body, .statement⟩ := by
  obtain ⟨t, rest, rfl⟩ := h.exists_cons
  have hmark (ht : t.isSeparator = true) : Spells [t] [] [] :=
    .skipped (by simpa [Separators] using ht)
  refine .current h ?_
  split
  next ht =>
    refine .advance (w := ⟨body, .statement⟩) h (by simp [step, endedStep, ht]) (by simp [ht])
      fun hahead => .pure hahead ⟨hmark ?_, rfl⟩
    simp [Token.isSeparator, ht]
  next ht =>
    refine .advance (w := ⟨body, .statement⟩) h (by simp [step, endedStep, ht]) (by simp [ht])
      fun hahead => .pure hahead ⟨hmark ?_, rfl⟩
    simp [Token.isSeparator, ht]
  next ht => exact .congr (run_congr (by simp [step, endedStep, ht]) rest) (.pure h ⟨.nil, rfl⟩)
  next ht => exact .congr (run_congr (by simp [step, endedStep, ht]) rest) (.pure h ⟨.nil, rfl⟩)
  next ht => exact .congr (run_congr (by simp [step, endedStep, ht]) rest) (.pure h ⟨.nil, rfl⟩)
  next hline hsemi hbrace hcomment hend =>
    refine .refuse ?_
    simp only [step, endedStep]

/-- A statement and its end, where one may start. -/
theorem ended_leads (hp : Sound tokens p i) (h : Ahead tokens i (t :: rest))
    (before : List Statement) (ht : t.isSeparator = false) (hend : t.kind ≠ .endOfFile)
    (hbrace : t.kind = .rightBrace → body.outer = []) :
    Leads tokens (do
        let s ← p.statement
        terminator
        pure (.inl (s :: before) : List Statement ⊕ List Statement)) i (t :: rest)
      ⟨body, .statement⟩ fun result taken _ s' =>
        ∃ s : Statement, result = .inl (s :: before) ∧ taken ≠ [] ∧ s.Printable ∧
          Spells taken s.lexemes [s.piece] ∧ s' = ⟨body.push s, .statement⟩ := by
  refine (hp.statement h body ht hend hbrace).bind ?_
  rintro s taken rest' _ - hahead ⟨hs, rfl⟩
  refine (terminator_leads hahead _).bind ?_
  rintro _ taken' rest'' _ - hahead' ⟨hspells, rfl⟩
  refine .pure hahead' ⟨s, rfl, by simp [hs.ne], hs.printable, ?_, rfl⟩
  simpa using hs.spells.append hspells

theorem separator_noEnd (t : Token) (h : t.isSeparator = true) : t.kind ≠ .endOfFile := by
  intro hend
  simp [Token.isSeparator, hend] at h

/-- What has been read of a list of statements. -/
structure StatementsSoFar (before : List Statement) (taken : List Token) : Prop where
  printable : ∀ s ∈ before, s.Printable
  spells : Spells taken (before.reverse.flatMap Statement.lexemes)
    (before.reverse.map Statement.piece)

theorem StatementsSoFar.nil : StatementsSoFar [] [] :=
  ⟨by simp, .nil⟩

theorem StatementsSoFar.cons {before : List Statement} {taken taken' : List Token} {s : Statement}
    (h : StatementsSoFar before taken) (hlines : Separators lines) (hs : s.Printable)
    (hspells : Spells taken' s.lexemes [s.piece]) :
    StatementsSoFar (s :: before) (taken ++ (lines ++ taken')) := by
  refine ⟨List.forall_mem_cons.2 ⟨hs, h.printable⟩, ?_⟩
  simpa using h.spells.append ((Spells.skipped hlines).append hspells)

theorem block_leads (hp : ∀ j, i < j → Sound tokens p j) (h : Ahead tokens i rest)
    (around : Body) (owner : Owner)
    (hstep : ∀ t ∈ rest.head?, step s t = openBlock around owner t) :
    Leads tokens (block p) i rest s fun body taken _ s' =>
      Statement.AllPrintable body ∧ ∃ inner close, taken = inner ++ [close] ∧
        s' = closeBlock owner body around close.span ∧
        Spells taken (Lexeme.braced (body.flatMap Statement.lexemes))
          (body.map Statement.piece) := by
  obtain ⟨t, rest, rfl⟩ := h.exists_cons
  have hopen := hstep t rfl
  refine .advancing ?_ (by simp)
  refine .consume (w := ⟨around.enter owner, .statement⟩) h (by decide)
    (fun ht => by simp [hopen, openBlock, ht]) (fun ht => by simp [hopen, openBlock, ht])
    fun ht hahead => ?_
  refine .loop (I := fun before taken _ s' => StatementsSoFar before taken ∧
    s' = ⟨⟨before, (owner, around.statements) :: around.outer⟩, .statement⟩) ?_ hahead ⟨.nil, rfl⟩
  rintro before taken rest₁ _ hahead₁ ⟨hbefore, rfl⟩
  refine skip_leads separator_noEnd hahead₁ fun lines u rest₂ heq hlines hu hahead₂ => ?_
  refine ⟨_, by rw [heq]; exact run_separators hlines _ _, .current hahead₂ ?_⟩
  split
  next hbrace =>
    refine .advance (w := closeBlock owner before.reverse around u.span) hahead₂
      (by simp [step, statementStep, hbrace]) (by simp [hbrace]) fun hahead₃ => ?_
    refine .pure hahead₃ ⟨Statement.allPrintable_iff.2 (by simpa using hbefore.printable),
      t :: (taken ++ lines), u, by simp, rfl, ?_⟩
    simpa [Lexeme.braced] using (Spells.mark ht).drop.append
      (hbefore.spells.append ((Spells.skipped hlines).append (Spells.mark hbrace).drop))
  next hbrace =>
    split
    next hend => exact .refuse (by simp [step, statementStep, hend])
    next hend =>
      refine (ended_leads (hp _ (by omega)) hahead₂ before hu hend (absurd · hbrace)).mono ?_
      rintro _ taken₃ rest₃ _ - ⟨s, rfl, hne, hs, hspells, rfl⟩
      exact ⟨by simp [hne], hbefore.cons hlines hs hspells, rfl⟩

/-! ## Conditionals -/

/-- Without an `else` a conditional has ended before the newlines that were passed over. -/
theorem run_afterBranch_ended (hlines : Newlines lines) (ht : t.kind ≠ .newline)
    (helse : t.isKeyword "else" = false) (branch : OpenBranch) (chain : List OpenBranch)
    (stop : Span) : run ⟨body, .afterBranch branch chain stop false⟩ (lines ++ t :: rest) =
      run ⟨body.push (closeBranches branch chain .none stop), .ended⟩ (lines ++ t :: rest) := by
  cases lines with
  | nil => exact run_congr (by simp [step, ht, helse]) rest
  | cons l lines =>
    have hl := hlines l (by simp)
    have htail : Newlines lines := fun l' hl' => hlines l' (by simp [hl'])
    have hwait : step ⟨body, .afterBranch branch chain stop false⟩ l =
        .ok ⟨body, .afterBranch branch chain stop true⟩ := by simp [step, hl]
    have hended : step ⟨body.push (closeBranches branch chain .none stop), .ended⟩ l =
        .ok ⟨body.push (closeBranches branch chain .none stop), .statement⟩ := by
      simp [step, endedStep, hl]
    rw [List.cons_append, run_cons hwait, run_cons hended, run_separators (separators_of_newlines htail),
      run_skip (fun l' hl' => by simp [step, htail l' hl'])]
    exact run_congr (by simp [step, ht, helse]) rest

/-- What follows the first branch of a conditional, from the brace that closes the branch on. -/
theorem alternative_leads (hp : ∀ j, i ≤ j → Sound tokens p j) (h : Ahead tokens i rest)
    (branch : OpenBranch) (chain : List OpenBranch) (brace : Token) :
    Leads tokens (alternative p) i rest ⟨body, .afterBranch branch chain brace.span false⟩
      fun otherwise taken _ s' =>
        otherwise.Printable ∧ Spells taken otherwise.lexemes otherwise.pieces ∧
        ∃ inner last, brace :: taken = inner ++ [last] ∧
          s' = ⟨body.push (closeBranches branch chain otherwise last.span), .ended⟩ := by
  obtain ⟨lines, t, rest', rfl, hlines, ht⟩ := h.exists_unskipped newline_noEnd
  have hahead := h.append lines
  have hskipped := hlines
  have hlines := newlines_of_skipped hlines
  by_cases helse : t.isKeyword "else" = true
  · obtain ⟨hkind, htext⟩ := of_isKeyword helse
    have hrun (lines : List Token) (hlines : Newlines lines) :
        run ⟨body, .afterBranch branch chain brace.span false⟩ (lines ++ t :: rest') =
          run ⟨body, .alternative branch chain⟩ rest' :=
      run_else hlines helse branch chain brace.span false
    refine .look (m := index) rfl (.skip newline_noEnd h hskipped ht
      ((hrun lines hlines).trans (hrun [] (by simp [Newlines])).symm) ?_)
    refine .current hahead ?_
    rw [if_pos helse]
    refine .advance (w := ⟨body, .alternative branch chain⟩) hahead
      (by simp [step, hkind, helse]) (by simp [hkind]) fun hahead₁ => ?_
    obtain ⟨u, rest₁, rfl⟩ := hahead₁.exists_cons
    have hword : Spells (lines ++ [t]) [.keyword "else"] [] := by
      simpa using (Spells.skipped (separators_of_newlines hlines)).append (Spells.keyword helse).drop
    refine .current hahead₁ ?_
    split
    next hif =>
      refine ((hp _ (by omega)).conditional hahead₁ body (branch :: chain) hif
        (by simp [step, hif])).bind ?_
      rintro c taken rest₂ _ - hahead₂ ⟨hc, inner, stop, rfl, hspan, rfl⟩
      refine .pure hahead₂ ⟨hc.printable, ?_, brace :: (lines ++ t :: inner), stop, by simp, ?_⟩
      · simpa [Statement.lexemes, Alternative.lexemes, Alternative.pieces, Statement.piece,
          Statement.nodes, Statement.span] using hword.append hc.spells
      · rw [hspan]
        rfl
    next hif =>
      refine (block_leads (fun j hj => hp j (by omega)) hahead₁ body (.lastBranch branch chain)
        (by simp [step, hif])).bind ?_
      rintro statements taken rest₂ _ - hahead₂ ⟨hbody, inner, close, rfl, rfl, hspells⟩
      refine .pure hahead₂ ⟨hbody, ?_, brace :: (lines ++ t :: inner), close, by simp, rfl⟩
      simpa [Alternative.lexemes, Alternative.pieces] using hword.append hspells
  · have helse := Bool.eq_false_iff.2 helse
    have hback : goTo i tokens (i + lines.length) = .read () i := by
      have hlength := h.length_le
      simp only [List.length_append, List.length_cons] at hlength
      rw [goTo, if_pos (by omega)]
    have hnone : alternative p tokens i = .read .none i := by
      rw [alternative, bind_read (m := index) rfl, skipNewlines,
        bind_read (skip_eq newline_noEnd h hskipped ht), bind_read (current_eq hahead),
        if_neg (by simp [helse]), bind_read hback]
      rfl
    rw [Leads, hnone]
    exact ⟨[], _, _, rfl, rfl, h,
      run_afterBranch_ended hlines (of_decide_eq_false ht) helse branch chain brace.span,
      trivial, .nil, [], brace, rfl, rfl⟩

/-- A token after an expression that is not in brackets. -/
theorem step_operated_goal (hb : Below 1 (t :: rest))
    (hgoal : Context.skipsNewline ⟨[], goal⟩ = false) :
    step ⟨body, .operated [] ⟨[], goal⟩ e⟩ t = goalStep body goal e t := by
  simp [step, operatedStep, binary?_eq_none (hb t rfl), hgoal, applyAll, closeStep]

theorem previous_eq {j : Nat} (h : Ahead tokens i (inner ++ t :: rest))
    (hj : j = i + inner.length + 1) : previous tokens j = .read t j := by
  show tokenAt (j - 1) tokens j = _
  rw [tokenAt, hj, Nat.add_sub_cancel, h.getElem?_append]

theorem conditional_leads (hp : ∀ j, i < j → Sound tokens p j) :
    ReadsConditional tokens (conditional p) i := by
  intro t rest s h body chain hif hstep
  obtain ⟨hkind, htext⟩ := of_isKeyword hif
  refine .advance h hstep (by simp [hkind]) fun hahead => ?_
  refine (expression_leads (fun j hj => hp j (by omega)) (by decide) hahead body [] _ false
    (by simp [Starts]) (by simp)).bind ?_
  rintro condition taken₁ rest₁ _ rfl hahead₁ ⟨hcondition, rfl, hbelow⟩
  refine (block_leads (fun j hj => hp j (by omega)) hahead₁ body (.firstBranch t.span condition chain)
    ?_).bind ?_
  · intro u hu
    obtain ⟨u, rest₁, rfl⟩ := hahead₁.exists_cons
    cases hu
    exact step_operated_goal hbelow rfl
  rintro statements _ rest₂ _ rfl hahead₂ ⟨hbody, before, brace, rfl, rfl, hblock⟩
  refine .look (m := index) rfl ((alternative_leads (fun j hj => hp j (by omega)) hahead₂
    ⟨t.span, condition, statements⟩ chain brace).bind ?_)
  rintro otherwise taken₃ rest₃ _ rfl hahead₃ ⟨hotherwise, hspells, inner, last, heq, rfl⟩
  have hbrace : brace :: (taken₃ ++ rest₃) = inner ++ last :: rest₃ := by
    rw [← List.cons_append, heq, List.append_assoc, List.singleton_append]
  have hahead' : Ahead tokens i ((t :: (taken₁ ++ (before ++ inner))) ++ last :: rest₃) := by
    simpa [hbrace] using h
  have hlength := congrArg List.length heq
  simp only [List.length_cons, List.length_append, List.length_nil] at hlength
  have hprevious := previous_eq hahead'
    (j := i + 1 + taken₁.length + (before ++ [brace]).length + taken₃.length) (by simp; omega)
  refine .look (m := index) rfl ?_
  rw [if_neg (by omega)]
  refine .look hprevious (.pure hahead₃ ?_)
  have htaken : t :: (taken₁ ++ (before ++ [brace] ++ taken₃)) =
      t :: (taken₁ ++ (before ++ inner)) ++ [last] := by simp [heq]
  have hparts := (Spells.keyword hif).append (hcondition.spells.append (hblock.append hspells))
  rw [List.singleton_append, htaken] at hparts
  rw [List.append_nil, htaken]
  refine ⟨⟨by simp, ?_, hcondition.printable, hbody, hotherwise⟩, _, last, rfl, rfl, rfl⟩
  simpa [Statement.lexemes] using hparts.close fun hQ hlast hrow => hrow.branch hQ hlast

/-! ## Statements -/

theorem named_leads {cause : ParseCause} {β : Type} {f : Named → Descent β}
    {post : β → List Token → List Token → State → Prop} (h : Ahead tokens i (t :: rest))
    (hok : t.kind = .identifier → step s t = .ok w)
    (herror : t.kind ≠ .identifier → step s t = .error cause)
    (hf : t.kind = .identifier → Ahead tokens (i + 1) rest →
      Leads tokens (f ⟨t.text, t.span⟩) (i + 1) rest w fun b taken => post b (t :: taken)) :
    Leads tokens (named cause >>= f) i (t :: rest) s post := by
  refine Leads.bind (R := fun name taken rest' s' => t.kind = .identifier ∧
    name = ⟨t.text, t.span⟩ ∧ taken = [t] ∧ rest' = rest ∧ s' = w) ?_ ?_
  · exact .consume h (by decide) hok herror fun ht hahead => .pure hahead ⟨ht, rfl, rfl, rfl, rfl⟩
  · rintro _ _ _ _ - hahead ⟨ht, rfl, rfl, rfl, rfl⟩
    exact hf ht hahead

theorem parameters_leads (h : Ahead tokens i rest) (start : Span) (name : Named) :
    Leads tokens (listed (named .missingParameterName) .unclosedParameters) i rest
      ⟨body, .firstParameter start name⟩ fun result taken _ s' =>
        s' = ⟨body, .block (.function start name result.1)⟩ ∧
        Spells taken ([.mark .comma].intercalate (result.1.map Named.lexemes) ++ [.mark .rightParen])
          (result.1.map Named.piece) := by
  refine (listed_leads Named.lexemes Named.piece (fun _ => True)
    (parameterStates_fits body start name) h ?_).mono ?_
  · intro before j rest t _ hahead ht
    refine Leads.consume (w := ⟨body, .afterParameter start name (⟨t.text, t.span⟩ :: before)⟩)
      hahead (by decide) (fun hkind => by simp [parameterStates, step, hkind]) (fun hkind => ?_)
      fun hkind hahead' => .pure hahead' ⟨?_, trivial, fun lines u rest' heq hlines hu => ?_⟩
    · simp only [parameterStates, step]
    · exact Spells.name hkind
    · exact ⟨_, heq ▸ run_afterParameter hlines start name _ _, rfl⟩
  · rintro ⟨parameters, stop⟩ taken rest' s' - ⟨hs, -, inner, close, -, -, hspells⟩
    exact ⟨hs, hspells⟩

theorem function_leads (hp : ∀ j, i < j → Sound tokens p j) (h : Ahead tokens i (t :: rest))
    (ht : t.isKeyword "function" = true) :
    Leads tokens (function p) i (t :: rest) ⟨body, .statement⟩ (Pushed body) := by
  obtain ⟨hkind, htext⟩ := of_isKeyword ht
  refine .advance (w := ⟨body, .functionName t.span⟩) h
    (by simp [step, statementStep, keywordStatement, hkind, htext]) (by simp [hkind])
    fun hahead => ?_
  obtain ⟨name, rest, rfl⟩ := hahead.exists_cons
  refine named_leads (w := ⟨body, .parameters t.span ⟨name.text, name.span⟩⟩) hahead
    (fun hname => by simp [step, hname]) (fun hname => by simp [step, hname]) fun hname hahead₁ => ?_
  obtain ⟨bracket, rest, rfl⟩ := hahead₁.exists_cons
  refine .consume (w := ⟨body, .firstParameter t.span ⟨name.text, name.span⟩⟩) hahead₁ (by decide)
    (fun hopen => by simp [step, hopen]) (fun hopen => by simp [step, hopen]) fun hopen hahead₂ => ?_
  refine (parameters_leads hahead₂ t.span ⟨name.text, name.span⟩).bind ?_
  rintro ⟨parameters, stop⟩ taken₃ rest₃ _ rfl hahead₃ ⟨rfl, hparameters⟩
  refine (block_leads (fun j hj => hp j (by omega)) hahead₃ body
    (.function t.span ⟨name.text, name.span⟩ parameters) (fun _ _ => rfl)).bind ?_
  rintro statements _ rest₄ _ rfl hahead₄ ⟨hbody, inner, close, rfl, rfl, hblock⟩
  have hahead' : Ahead tokens i
      ((t :: name :: bracket :: (taken₃ ++ inner)) ++ close :: rest₄) := by simpa using h
  refine .look (previous_eq hahead' (by simp; omega)) (.pure hahead₄ ⟨⟨by simp, ?_, hbody⟩, rfl⟩)
  have hparts := (Spells.keyword ht).append ((Spells.name hname).append
    ((Spells.mark hopen).drop.append (hparameters.append hblock)))
  simp only [← List.append_assoc] at hparts
  have hclosed := hparts.close fun hQ hclose hrow =>
    Row.function (f := ⟨name.text, name.span⟩) hQ (by simpa [Named.piece, Span.piece] using hrow)
      hclose
  simpa [Statement.lexemes, Lexeme.listed] using hclosed

/-- The expression that ends a statement. -/
theorem value_leads (hp : ∀ j, i < j → Sound tokens p j) (h : Ahead tokens i rest)
    {make : Expr → Statement} (hgoal : Context.skipsNewline ⟨[], goal⟩ = false)
    (hmake : ∀ value t, goalStep body goal value t = endedStep (body.push (make value)) t) :
    Leads tokens (do let value ← expression p 1; pure (make value)) i rest
      ⟨body, .operand [] [] ⟨[], goal⟩ false⟩ fun statement taken _ s' =>
        s' = ⟨body.push statement, .ended⟩ ∧ ∃ value, statement = make value ∧ value.Printable ∧
          Spells taken value.lexemes [value.piece] := by
  refine (expression_leads hp (by decide) h body [] _ false (by simp [Starts]) (by simp)).bind ?_
  rintro value taken rest' _ - hahead ⟨hvalue, rfl, hbelow⟩
  obtain ⟨t, rest', rfl⟩ := hahead.exists_cons
  refine .congr (w := ⟨body.push (make value), .ended⟩) (run_congr ?_ rest') (.pure hahead ?_)
  · rw [step_operated_goal hbelow hgoal, hmake]
    rfl
  · exact ⟨rfl, value, rfl, hvalue.printable, by simpa using hvalue.spells⟩

theorem declaration_leads (hp : ∀ j, i < j → Sound tokens p j) (h : Ahead tokens i (t :: rest))
    (ht : t.isKeyword "let" = true) :
    Leads tokens (declaration p) i (t :: rest) ⟨body, .statement⟩ (Pushed body) := by
  obtain ⟨hkind, htext⟩ := of_isKeyword ht
  refine .advance (w := ⟨body, .declaredName t.span⟩) h
    (by simp [step, statementStep, keywordStatement, hkind, htext]) (by simp [hkind])
    fun hahead => ?_
  obtain ⟨name, rest, rfl⟩ := hahead.exists_cons
  refine named_leads (w := ⟨body, .declaredEquals t.span ⟨name.text, name.span⟩⟩) hahead
    (fun hname => by simp [step, hname]) (fun hname => by simp [step, hname]) fun hname hahead₁ => ?_
  obtain ⟨sign, rest, rfl⟩ := hahead₁.exists_cons
  by_cases hsign : sign.kind = .operator ∧ sign.text ≠ "="
  · -- the sign is taken before its text is looked at
    have hconsume : consume .operator .missingEquals tokens (i + 1 + 1) =
        .read sign (i + 1 + 1 + 1) := by
      rw [consume, bind_read (current_eq hahead₁), if_pos hsign.1,
        advance_eq hahead₁ (by simp [hsign.1])]
    rw [Leads, bind_read hconsume, if_neg hsign.2]
    show run _ (sign :: rest) = _
    simp [run, step, hsign]
  have hequals (hop : sign.kind = .operator) : sign.text = "=" := by
    simpa [hop] using hsign
  refine .consume (w := ⟨body, .operand [] [] ⟨[], .declare t.span ⟨name.text, name.span⟩⟩ false⟩)
    hahead₁ (by decide) (fun hop => by simp [step, hop, hequals hop])
    (fun hop => by simp [step, hop]) fun hop hahead₂ => ?_
  rw [if_pos (hequals hop)]
  refine (value_leads (fun j hj => hp j (by omega)) hahead₂ rfl fun _ _ => rfl).mono ?_
  rintro _ taken rest' _ - ⟨rfl, value, rfl, hvalue, hspells⟩
  refine ⟨⟨by simp, ?_, hvalue⟩, rfl⟩
  have hparts := (Spells.keyword ht).append ((Spells.name hname).append
    ((Spells.operator hop).drop.append hspells))
  rw [hequals hop] at hparts
  exact hparts.join fun hQ hrow => hrow.declare hQ

theorem assignment_leads (hp : ∀ j, i < j → Sound tokens p j) (h : Ahead tokens i (t :: rest))
    (ht : t.kind = .identifier) (hcall : ∀ u ∈ rest.head?, u.kind ≠ .leftParen) :
    Leads tokens (assignment p) i (t :: rest) ⟨body, .statement⟩ (Pushed body) := by
  refine .advance (w := ⟨body, .afterName ⟨t.text, t.span⟩⟩) h (by simp [step, statementStep, ht])
    (by simp [ht]) fun hahead => ?_
  obtain ⟨sign, rest, rfl⟩ := hahead.exists_cons
  have hopen := hcall sign rfl
  refine .current hahead ?_
  split
  next op hop =>
    split at hop
    next hsign =>
      refine .advance (w := ⟨body, .operand [] [] ⟨[], .assign ⟨t.text, t.span⟩ op sign.span⟩ false⟩)
        hahead (by simp [step, afterNameStep, hsign, hop]) (by simp [hsign]) fun hahead₁ => ?_
      refine (value_leads (fun j hj => hp j (by omega)) hahead₁ rfl fun _ _ => rfl).mono ?_
      rintro _ taken rest' _ - ⟨rfl, value, rfl, hvalue, hspells⟩
      refine ⟨⟨by simp, ?_, hvalue⟩, rfl⟩
      have hparts := (Spells.name ht).append ((Spells.operator hsign).append hspells)
      rw [← assignmentSymbol_of_assignment? hop] at hparts
      exact hparts.join fun hQ hrow => hrow.assign hQ op
    next => cases hop
  next hop => exact .refuse (by simp only [step, afterNameStep, hopen, hop, if_false])

theorem statement_leads (hp : ∀ j, i < j → Sound tokens p j) :
    ReadsStatement tokens (statement p) i := by
  intro t rest h body hseparator hend hbrace
  refine .advancing (.current h ?_) fun _ _ _ hread => hread.1.ne rfl
  split
  next ht =>
    refine .advance (w := ⟨body.push (.comment t.text t.span), .ended⟩) h
      (by simp [step, statementStep, ht]) (by simp [ht]) fun hahead => .pure hahead ?_
    refine ⟨⟨by simp, ?_, trivial⟩, rfl⟩
    have htoken : Spells [t] [.word .comment t.text] [t.span.piece] :=
      .token (by simp [Token.lexeme, ht]) hseparator hend
    exact htoken.join fun _ hrow => hrow.comment t.text
  next ht =>
    refine .advance (w := ⟨body, .directiveName t.span⟩) h
      (by simp [step, statementStep, ht]) (by simp [ht]) fun hahead => ?_
    obtain ⟨name, rest, rfl⟩ := hahead.exists_cons
    refine named_leads (w := ⟨body.push (.directive ⟨name.text, name.span⟩
      (t.span.through name.span)), .ended⟩) hahead (fun hname => by simp [step, hname])
      (fun hname => by simp [step, hname]) fun hname hahead₁ => .pure hahead₁ ?_
    refine ⟨⟨by simp, ?_, trivial⟩, rfl⟩
    have hparts := (Spells.mark ht).append (.name hname)
    exact hparts.join fun hQ hrow => hrow.directive (f := ⟨name.text, name.span⟩) hQ
  next ht =>
    have hkeyword {word : String} (htext : t.text = word) : t.isKeyword word = true := by
      simp [Token.isKeyword, ht, htext]
    split
    next htext => exact declaration_leads hp h (hkeyword htext)
    next hlet =>
      split
      next htext => exact function_leads hp h (hkeyword htext)
      next hfunction =>
        split
        next htext =>
          refine .advance (w := ⟨body, .operand [] [] ⟨[], .yield t.span⟩ false⟩) h
            (by simp [step, statementStep, keywordStatement, ht, htext]) (by simp [ht])
            fun hahead => ?_
          refine (value_leads (fun j hj => hp j (by omega)) hahead rfl fun _ _ => rfl).mono ?_
          rintro _ taken rest' _ - ⟨rfl, value, rfl, hvalue, hspells⟩
          refine ⟨⟨by simp, ?_, hvalue⟩, rfl⟩
          have hparts := (Spells.keyword (hkeyword htext)).append hspells
          exact hparts.join fun hQ hrow => hrow.yield hQ
        next hreturn =>
          split
          next htext =>
            refine (conditional_leads hp h body [] (hkeyword htext)
              (by simp [step, statementStep, keywordStatement, ht, htext])).bind ?_
            rintro c _ rest' _ - hahead ⟨hc, inner, stop, rfl, hspan, rfl⟩
            exact .pure hahead ⟨by simpa using hc, by rw [hspan]; rfl⟩
          next hif =>
            exact .refuse (by
              simp [step, statementStep, keywordStatement, ht, hlet, hfunction, hreturn, hif])
  next ht =>
    have hahead := h.next (by simp [ht])
    obtain ⟨u, rest, rfl⟩ := hahead.exists_cons
    refine .look (a := u) (hahead.peek_eq) ?_
    split
    next hu =>
      refine .advance (w := ⟨body, .afterName ⟨t.text, t.span⟩⟩) h
        (by simp [step, statementStep, ht]) (by simp [ht]) fun hahead => ?_
      refine Leads.bind (arguments_leads (fun j hj => hp j (by omega)) hahead hu body none
        ⟨t.text, t.span⟩ (by simp [step, afterNameStep, hu, callContext])) ?_
      rintro ⟨es, stop⟩ taken rest₂ _ - hahead₂ ⟨rfl, hes, inner, close, rfl, rfl, hspells⟩
      refine .pure hahead₂ ⟨⟨by simp, ?_, hes⟩, rfl⟩
      simpa [Statement.lexemes, Statement.piece, Expr.piece, Statement.nodes, Expr.nodes,
        Statement.span, Expr.span] using call_spells ht hspells
    next hu => exact assignment_leads hp h ht (by simpa using hu)
  next hcomment hat hkeyword hidentifier =>
    refine .refuse ?_
    simp only [step, statementStep]
    split <;> simp_all [Token.isSeparator]

/-! ## Programs -/

/-- As many nested parts are enough as there are tokens. -/
theorem parts_sound (depth : Nat) (hdepth : tokens.length ≤ i + depth) :
    Sound tokens (parts depth) i := by
  induction depth generalizing i with
  | zero =>
    have hnone {rest : List Token} (h : Ahead tokens i rest) : False := by
      obtain ⟨t, rest, rfl⟩ := h.exists_cons
      have hlength := h.length_le
      simp only [List.length_cons] at hlength
      omega
    exact ⟨fun h => (hnone h).elim, fun h => (hnone h).elim, fun _ _ h => (hnone h).elim,
      fun h => (hnone h).elim⟩
  | succ depth ih =>
    have hp (j : Nat) (hj : i < j) : Sound tokens (parts depth) j := ih (by omega)
    exact ⟨statement_leads hp, conditional_leads hp, fun hleast => expression_leads hp hleast,
      unary_leads hp⟩

/-- All tokens up to the end of the file are read as the parser reads them. -/
theorem program_leads (hdepth : tokens.length ≤ depth) (h : Ahead tokens 0 (t :: rest)) :
    Leads tokens (program depth) 0 (t :: rest) .start fun program taken rest' s' =>
      StatementsSoFar program.statements.reverse taken ∧
      ∃ stop r, rest' = stop :: r ∧ stop.kind = .endOfFile ∧
        program.span = t.span.through stop.span ∧ s' = ⟨⟨program.statements.reverse, []⟩, .statement⟩ := by
  refine .current h ?_
  refine Leads.bind (R := fun statements taken rest' s' =>
    StatementsSoFar statements.reverse taken ∧ (∃ stop r, rest' = stop :: r ∧ stop.kind = .endOfFile) ∧
      s' = ⟨⟨statements.reverse, []⟩, .statement⟩) ?_ ?_
  · refine .loop (I := fun before taken _ s' => StatementsSoFar before taken ∧
      s' = ⟨⟨before, []⟩, .statement⟩) ?_ h ⟨.nil, rfl⟩
    rintro before taken rest₁ _ hahead₁ ⟨hbefore, rfl⟩
    refine skip_leads separator_noEnd hahead₁ fun lines u rest₂ heq hlines hu hahead₂ => ?_
    refine ⟨_, by rw [heq]; exact run_separators hlines _ _, .current hahead₂ ?_⟩
    split
    next hend =>
      refine .pure hahead₂ ⟨⟨by simpa using hbefore.printable, ?_⟩, ⟨u, rest₂, rfl, hend⟩, by simp⟩
      simpa using hbefore.spells.append (.skipped hlines)
    next hend =>
      refine (ended_leads (parts_sound depth (by omega)) hahead₂ before hu hend fun _ => rfl).mono ?_
      rintro _ taken₃ rest₃ _ - ⟨s, rfl, hne, hs, hspells, rfl⟩
      exact ⟨by simp [hne], hbefore.cons hlines hs hspells, rfl⟩
  · rintro statements taken _ _ - hahead ⟨hread, ⟨stop, r, rfl, hstop⟩, rfl⟩
    exact .current hahead (.pure hahead ⟨by simpa using hread, stop, r, rfl, hstop, rfl, rfl⟩)

end Descent

/-! ## What the descent answers -/

variable {tokens : List Token}

/-- The tokens that are looked at: those up to the first end of file. -/
def upToEnd (tokens : List Token) : List Token :=
  tokens.takeWhile (fun t => t.kind ≠ .endOfFile) ++ [endToken tokens]

theorem noEnd_takeWhile (tokens : List Token) :
    NoEnd (tokens.takeWhile fun t => t.kind ≠ .endOfFile) := by
  intro t ht
  simpa using List.all_eq_true.1 List.all_takeWhile t ht

theorem upToEnd_initial (tokens : List Token) : upToEnd tokens <+: withEnd tokens := by
  cases hfind : tokens.find? (fun t => t.kind = .endOfFile) with
  | none =>
    have hnoEnd : NoEnd tokens := by simpa [NoEnd] using List.find?_eq_none.1 hfind
    have hlast : tokens.getLast?.map Token.kind ≠ some .endOfFile := by
      intro hlast
      obtain ⟨t, ht, hkind⟩ := Option.map_eq_some_iff.1 hlast
      exact hnoEnd t (List.mem_of_getLast? ht) hkind
    have hall : (tokens ++ []).takeWhile (fun t : Token => t.kind ≠ TokenKind.endOfFile) = tokens :=
      takeWhile_noEnd hnoEnd (by simp)
    rw [List.append_nil] at hall
    have heq : upToEnd tokens = withEnd tokens := by
      rw [upToEnd, hall, withEnd, if_neg hlast, endToken, hfind]
    exact heq ▸ List.prefix_rfl
  | some stop =>
    obtain ⟨hstop, before, after, rfl, hbefore⟩ := List.find?_eq_some_iff_append.1 hfind
    have hnoEnd : NoEnd before := by simpa [NoEnd] using hbefore
    have hend : endToken (before ++ stop :: after) = stop := by rw [endToken, hfind]
    rw [upToEnd, takeWhile_noEnd hnoEnd (by simpa using hstop), hend, withEnd]
    have hbefore' : before ++ [stop] <+: before ++ stop :: after := ⟨after, by simp⟩
    split
    · exact hbefore'
    · exact hbefore'.trans (List.prefix_append _ _)

theorem ahead_upToEnd (tokens : List Token) : Descent.Ahead (withEnd tokens) 0 (upToEnd tokens) :=
  ⟨⟨_, _, rfl, noEnd_takeWhile tokens, kind_endToken tokens⟩, upToEnd_initial tokens⟩

theorem getLast?_withEnd (tokens : List Token) :
    (withEnd tokens).getLast?.map Token.kind = some .endOfFile := by
  rw [withEnd]
  split
  next h => exact h
  next => simp

/-- The descent has no fault: it answers what the parser answers, and what it reads is what stands
before the end of the file. -/
theorem Descent.program_reads (tokens : List Token) (hdepth : (withEnd tokens).length ≤ depth) :
    match Descent.program depth (withEnd tokens) 0 with
    | .read p _ => Program.ofTokens tokens = .ok p ∧ p.Printable ∧
        Spells (tokens.takeWhile fun t => t.kind ≠ .endOfFile) p.lexemes
          (p.statements.map Statement.piece)
    | .refused e => Program.ofTokens tokens = .error e
    | .failed _ => False := by
  have hahead := ahead_upToEnd tokens
  obtain ⟨first, rest, hfirst⟩ := hahead.exists_cons
  rw [hfirst] at hahead
  have hleads := Descent.program_leads hdepth hahead
  rw [Descent.Leads, ← hfirst] at hleads
  cases hread : Descent.program depth (withEnd tokens) 0 with
  | failed fault => simp [hread] at hleads
  | refused e =>
    simp only [hread] at hleads ⊢
    rw [upToEnd] at hleads
    rw [Program.ofTokens, hleads]
  | read p j =>
    simp only [hread] at hleads ⊢
    obtain ⟨taken, rest', s, hsplit, -, hahead', hrun, hstatements, stop, r, rfl, hstop, hspan, rfl⟩ :=
      hleads
    -- the end of the file is what comes after the statements
    have htaken : NoEnd taken := by
      have honce := (ahead_upToEnd tokens).once
      rw [hsplit] at honce
      exact honce.noEnd_before
    have hbefore := congrArg (List.takeWhile fun t => t.kind ≠ .endOfFile) hsplit
    rw [upToEnd, takeWhile_noEnd (noEnd_takeWhile tokens) (by simp [kind_endToken]),
      takeWhile_noEnd htaken (by simp [hstop])] at hbefore
    subst hbefore
    cases List.append_cancel_left hsplit
    have hhead : (tokens.takeWhile fun t => t.kind ≠ .endOfFile).head?.getD (endToken tokens) =
        first := by
      have := congrArg List.head? hfirst
      rw [upToEnd, List.head?_append, List.head?_cons, List.head?_cons] at this
      cases hW : (tokens.takeWhile fun t => t.kind ≠ .endOfFile).head? <;>
        exact Option.some.inj (by rwa [hW] at this)
    have hend : Parser.run .start (upToEnd tokens) =
        .ok ⟨⟨p.statements.reverse, []⟩, .statement⟩ := by
      rw [hrun]
      simp [Parser.run, Parser.step, Parser.statementStep, hstop]
    rw [upToEnd] at hend
    rw [Program.ofTokens, hend]
    refine ⟨?_, ?_, ?_⟩
    · simp only [hhead, List.reverse_reverse, ← hspan]
    · exact Statement.allPrintable_iff.2 (by simpa using hstatements.printable)
    · simpa [Program.lexemes] using hstatements.spells

theorem Program.spells_of_ofTokens {p : Program} (h : Program.ofTokens tokens = .ok p) :
    p.Printable ∧ Spells (tokens.takeWhile fun t => t.kind ≠ .endOfFile) p.lexemes
      (p.statements.map Statement.piece) := by
  have hreads := Descent.program_reads tokens (Nat.le_refl _)
  split at hreads
  next hread =>
    rw [h] at hreads
    cases hreads.1
    exact hreads.2
  next => simp [h] at hreads
  next => exact hreads.elim

/-- The descent comes to an end on every list of tokens, whatever its kinds are and wherever an end of
file stands, and answers what the parser answers. The list that is read ends with an end of file. No
index leaves it, every part that is read moves the index on, a conditional without an `else` does not
fall back behind its own end, and neither a loop nor the nesting of parts takes more turns than tokens
are left: each of these would be a fault, and a fault is no answer. -/
theorem Descent.answer_program (tokens : List Token) {depth : Nat}
    (hdepth : (withEnd tokens).length ≤ depth) :
    (withEnd tokens).getLast?.map Token.kind = some .endOfFile ∧
      (Descent.program depth (withEnd tokens) 0).answer? = some (Program.ofTokens tokens) := by
  refine ⟨getLast?_withEnd tokens, ?_⟩
  have hreads := Descent.program_reads tokens hdepth
  split at hreads
  next hread => rw [hread, hreads.1, Outcome.answer?]
  next hread => rw [hread, hreads, Outcome.answer?]
  next => exact hreads.elim

/-- The tokens of `if a` with an empty block and, after a newline, of an `else` with nothing after it,
not even an end of file. -/
theorem Descent.answer_program_conditional :
    let tokens : List Token := [⟨.keyword, "if", .empty⟩, ⟨.identifier, "a", .empty⟩,
      ⟨.leftBrace, "", .empty⟩, ⟨.rightBrace, "", .empty⟩, ⟨.newline, "", .empty⟩,
      ⟨.keyword, "else", .empty⟩]
    (withEnd tokens).length ≤ 7 ∧
      (Descent.program 7 (withEnd tokens) 0).answer? =
        some (.error ⟨.missingBlock, .empty⟩) := by
  refine ⟨by decide, ?_⟩
  rw [(Descent.answer_program _ (by decide)).2]
  rfl

end ScriptBlocks
