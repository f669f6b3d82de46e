import ScriptBlocks.Proofs.Parsing

/-!
# Errors stand at the first impossible token

Whatever is open in a state of the parser can be closed: operands are supplied, brackets and blocks are
closed from the inside out. So every list of tokens that the parser has not refused is the start of a
program, and the token that it refuses is the first one with which no program goes on.
-/
namespace ScriptBlocks

/-- The only end of file is the last token. -/
def EndsOnce (tokens : List Token) : Prop :=
  ∃ before stop, tokens = before ++ [stop] ∧ NoEnd before ∧ stop.kind = .endOfFile

/-- Some program starts with these tokens. -/
def Viable (tokens : List Token) : Prop :=
  ∃ rest p, EndsOnce (tokens ++ rest) ∧ Program.ofTokens (tokens ++ rest) = .ok p

namespace Parser

variable {s s' : State} {t : Token} {tokens : List Token} {body : Body}

/-! ## Every state can be completed -/

/-- Some tokens lead from the state to the end of a program. -/
def Completes (s : State) : Prop :=
  ∃ rest, NoEnd rest ∧ ∀ stop : Token, stop.kind = .endOfFile →
    ∃ s', run s (rest ++ [stop]) = .ok s'

theorem Completes.of_step (h : Completes s') (hstep : step s t = .ok s')
    (ht : t.kind ≠ .endOfFile) : Completes s := by
  obtain ⟨rest, hrest, hrun⟩ := h
  refine ⟨t :: rest, noEnd_cons.2 ⟨ht, hrest⟩, fun stop hstop => ?_⟩
  rw [List.cons_append, run_cons hstep]
  exact hrun stop hstop

/-- A token of this kind, at no place. -/
def plainToken (kind : TokenKind) (text : String) : Token :=
  ⟨kind, text, .empty⟩

/-- The blocks around a statement are closed one after the other. -/
theorem completes_statement (statements : List Statement) (outer : List (Owner × List Statement)) :
    Completes ⟨⟨statements, outer⟩, .statement⟩ := by
  induction outer generalizing statements with
  | nil =>
    refine ⟨[], noEnd_nil, fun stop hstop => ⟨⟨⟨statements, []⟩, .statement⟩, ?_⟩⟩
    exact run_cons (by simp [step, statementStep, hstop]) []
  | cons block outer ih =>
    obtain ⟨owner, before⟩ := block
    have hended (body : List Statement) : Completes ⟨⟨body, outer⟩, .ended⟩ :=
      (ih body).of_step (t := plainToken .semicolon ";") rfl (by decide)
    have hclosed : Completes (closeBlock owner statements.reverse ⟨before, outer⟩ .empty) := by
      cases owner with
      | function start name parameters => exact hended _
      | firstBranch start condition chain =>
        exact (ih _).of_step (t := plainToken .semicolon ";") rfl (by decide)
      | lastBranch branch chain => exact hended _
    exact hclosed.of_step (t := plainToken .rightBrace "\x7d") rfl (by decide)

theorem completes_ended (body : Body) : Completes ⟨body, .ended⟩ :=
  (completes_statement body.statements body.outer).of_step (t := plainToken .newline "\n") rfl
    (by decide)

theorem completes_block (body : Body) (owner : Owner) : Completes ⟨body, .block owner⟩ :=
  (completes_statement [] _).of_step (t := plainToken .leftBrace "\x7b") rfl (by decide)

/-- Some token closes the innermost bracket around an expression, or ends the expression. -/
theorem exists_close (body : Body) (brackets : List Bracket) (goal : Goal) (value : Expr) :
    ∃ t s, t.kind ≠ .newline ∧ t.kind ≠ .operator ∧ t.kind ≠ .endOfFile ∧
      closeStep body ⟨brackets, goal⟩ value t = .ok s ∧ Completes s := by
  induction brackets generalizing value with
  | nil =>
    cases goal with
    | declare | assign | yield =>
      exact ⟨plainToken .semicolon ";", _, by decide, by decide, by decide, rfl,
        completes_statement _ _⟩
    | condition start chain =>
      exact ⟨plainToken .leftBrace "\x7b", _, by decide, by decide, by decide, rfl,
        completes_statement _ _⟩
    | argument function before =>
      exact ⟨plainToken .rightParen ")", _, by decide, by decide, by decide, rfl,
        completes_ended _⟩
  | cons bracket brackets ih =>
    obtain ⟨kind, signs, binaries⟩ := bracket
    have hoperated (operand : Expr) :
        Completes (complete body signs binaries ⟨brackets, goal⟩ operand) := by
      obtain ⟨t, s, hline, hop, hend, hclose, hs⟩ :=
        ih (applyAll binaries (applySigns signs operand))
      refine hs.of_step ?_ hend
      simpa [complete, step, operatedStep, hline, hop] using hclose
    cases kind with
    | paren | argument =>
      exact ⟨plainToken .rightParen ")", _, by decide, by decide, by decide, rfl, hoperated _⟩

theorem completes_operated (body : Body) (binaries : List OpenBinary) (context : Context)
    (value : Expr) : Completes ⟨body, .operated binaries context value⟩ := by
  obtain ⟨t, s, hline, hop, hend, hclose, hs⟩ :=
    exists_close body context.brackets context.goal (applyAll binaries value)
  refine hs.of_step ?_ hend
  simpa [step, operatedStep, hline, hop] using hclose

theorem completes_operand (body : Body) (signs : Signs) (binaries : List OpenBinary)
    (context : Context) (newlines : Bool) :
    Completes ⟨body, .operand signs binaries context newlines⟩ :=
  (completes_operated body binaries context _).of_step (t := plainToken .string "") rfl
    (by decide)

theorem completes_firstArgument (body : Body) (context : Context) :
    Completes ⟨body, .firstArgument context⟩ :=
  (completes_operated body [] context _).of_step (t := plainToken .string "") rfl
    (by decide)

theorem completes_afterParameter (body : Body) (start : Span) (name : Named) (before : List Named) :
    Completes ⟨body, .afterParameter start name before⟩ :=
  (completes_block body _).of_step (t := plainToken .rightParen ")") rfl (by decide)

theorem completes_firstParameter (body : Body) (start : Span) (name : Named) :
    Completes ⟨body, .firstParameter start name⟩ :=
  (completes_block body _).of_step (t := plainToken .rightParen ")") rfl (by decide)

theorem completes_parameters (body : Body) (start : Span) (name : Named) :
    Completes ⟨body, .parameters start name⟩ :=
  (completes_firstParameter body start name).of_step (t := plainToken .leftParen "(") rfl
    (by decide)

theorem completes_declaredEquals (body : Body) (start : Span) (target : Named) :
    Completes ⟨body, .declaredEquals start target⟩ :=
  (completes_operand body [] [] _ false).of_step (t := plainToken .operator "=") rfl
    (by decide)

/-- Every state is on the way to a program. -/
theorem completes (s : State) : Completes s := by
  obtain ⟨body, mode⟩ := s
  cases mode with
  | statement => exact completes_statement body.statements body.outer
  | ended => exact completes_ended body
  | directiveName start =>
    exact (completes_ended _).of_step (t := plainToken .identifier "a") rfl (by decide)
  | declaredName start =>
    exact (completes_declaredEquals body start _).of_step (t := plainToken .identifier "a") rfl
      (by decide)
  | declaredEquals start target => exact completes_declaredEquals body start target
  | functionName start =>
    exact (completes_parameters body start _).of_step (t := plainToken .identifier "a") rfl
      (by decide)
  | parameters start name => exact completes_parameters body start name
  | firstParameter start name => exact completes_firstParameter body start name
  | nextParameter start name before =>
    exact (completes_afterParameter body start name _).of_step (t := plainToken .identifier "a") rfl
      (by decide)
  | afterParameter start name before => exact completes_afterParameter body start name before
  | block owner => exact completes_block body owner
  | afterName name =>
    exact (completes_firstArgument body _).of_step (t := plainToken .leftParen "(") rfl
      (by decide)
  | afterBranch branch chain stop newline =>
    have hstep : step ⟨body, .afterBranch branch chain stop newline⟩ (plainToken .semicolon ";") =
        .ok ⟨body.push (closeBranches branch chain .none stop), .statement⟩ := by
      cases newline <;> rfl
    exact (completes_statement _ _).of_step hstep (by decide)
  | alternative branch chain =>
    exact (completes_statement [] _).of_step (t := plainToken .leftBrace "\x7b") rfl
      (by decide)
  | firstArgument context => exact completes_firstArgument body context
  | operand signs binaries context newlines =>
    exact completes_operand body signs binaries context newlines
  | operandName signs binaries context name =>
    exact (completes_firstArgument body _).of_step (t := plainToken .leftParen "(") rfl
      (by decide)
  | operated binaries context value => exact completes_operated body binaries context value
  | closing context value =>
    obtain ⟨t, s, hline, -, hend, hclose, hs⟩ := exists_close body context.brackets context.goal value
    refine hs.of_step ?_ hend
    simpa [step, hline] using hclose

/-! ## Where a run stops -/

/-- A run that fails does so at one of its tokens, which the state before it refuses. -/
theorem run_error {e : ParseError} (h : run s tokens = .error e) :
    ∃ before t after s', tokens = before ++ t :: after ∧ run s before = .ok s' ∧
      step s' t = .error e.cause ∧ e.span = t.span := by
  induction tokens generalizing s with
  | nil => cases h
  | cons t tokens ih =>
    cases hstep : step s t with
    | error cause =>
      simp only [run, hstep, Except.error.injEq] at h
      exact ⟨[], t, tokens, s, rfl, rfl, by rw [hstep, ← h], by rw [← h]⟩
    | ok next =>
      rw [run_cons hstep] at h
      obtain ⟨before, t', after, s', rfl, hrun, herror, hspan⟩ := ih h
      exact ⟨t :: before, t', after, s', rfl, by rw [run_cons hstep, hrun], herror, hspan⟩

/-- What follows a refused token does not matter. -/
theorem run_refused {cause : ParseCause} (hrun : run s tokens = .ok s')
    (hstep : step s' t = .error cause) (rest : List Token) :
    run s (tokens ++ t :: rest) = .error ⟨cause, t.span⟩ := by
  rw [run_append hrun, run, hstep]

end Parser

section

variable {tokens : List Token} {t : Token}

theorem EndsOnce.takeWhile (h : EndsOnce tokens) :
    (tokens.takeWhile fun t => t.kind ≠ .endOfFile) ++ [endToken tokens] = tokens := by
  obtain ⟨before, stop, rfl, hbefore, hstop⟩ := h
  rw [takeWhile_noEnd hbefore (by simp [hstop])]
  have hfind : (before ++ [stop]).find? (fun t => t.kind = .endOfFile) = some stop := by
    rw [List.find?_append, List.find?_eq_none.2 (by simpa [NoEnd] using hbefore)]
    simp [hstop]
  rw [endToken, hfind]

theorem EndsOnce.ofTokens_ok_iff (h : EndsOnce tokens) :
    (∃ p, Program.ofTokens tokens = .ok p) ↔ ∃ s, Parser.run .start tokens = .ok s := by
  rw [Program.ofTokens, h.takeWhile]
  cases Parser.run .start tokens <;> simp

theorem EndsOnce.run_of_error {e : ParseError} (h : EndsOnce tokens)
    (he : Program.ofTokens tokens = .error e) : Parser.run .start tokens = .error e := by
  rw [Program.ofTokens, h.takeWhile] at he
  cases hrun : Parser.run .start tokens with
  | error e' => simpa [hrun] using he
  | ok s => simp [hrun] at he

/-- Tokens that the parser takes are the start of a program. -/
theorem viable_of_run {s : Parser.State} (h : Parser.run .start tokens = .ok s)
    (hnoEnd : NoEnd tokens) : Viable tokens := by
  obtain ⟨rest, hrest, hcomplete⟩ := Parser.completes s
  obtain ⟨s', hrun⟩ := hcomplete (Parser.plainToken .endOfFile "") rfl
  have honce : EndsOnce (tokens ++ (rest ++ [Parser.plainToken .endOfFile ""])) :=
    ⟨tokens ++ rest, Parser.plainToken .endOfFile "", by simp, by simp [hnoEnd, hrest], rfl⟩
  obtain ⟨p, hp⟩ := honce.ofTokens_ok_iff.2 ⟨s', by rw [Parser.run_append h, hrun]⟩
  exact ⟨_, p, honce, hp⟩

/-- No program goes on with a refused token. -/
theorem not_viable_of_refused {s : Parser.State} {cause : ParseCause}
    (h : Parser.run .start tokens = .ok s) (hstep : Parser.step s t = .error cause) :
    ¬ Viable (tokens ++ [t]) := by
  rintro ⟨rest, p, honce, hp⟩
  obtain ⟨s', hrun⟩ := honce.ofTokens_ok_iff.1 ⟨p, hp⟩
  have hrefused := Parser.run_refused h hstep rest
  rw [List.append_assoc, List.singleton_append] at hrun
  rw [hrefused] at hrun
  cases hrun

/-- No token before the last one is the end of the file. -/
theorem EndsOnce.noEnd_before {before after : List Token} (h : EndsOnce (before ++ t :: after)) :
    NoEnd before := by
  obtain ⟨whole, stop, heq, hwhole, -⟩ := h
  have hlast := congrArg List.dropLast heq
  rw [List.dropLast_append_cons, List.dropLast_concat] at hlast
  rw [← hlast] at hwhole
  exact (noEnd_append.1 hwhole).1

end

/-- Syntax errors are reported at the first impossible token. The error has the place of a token such
that the tokens before it are the start of some program, while no program starts with them and that
token. Where no two tokens stand at one place, this is the token at the place of the error. -/
theorem Program.error_at_first_impossible {tokens : List Token} {e : ParseError}
    (h : EndsOnce tokens) (he : Program.ofTokens tokens = .error e) :
    (∃ (i : Nat) (hi : i < tokens.length), tokens[i].span = e.span ∧
      Viable (tokens.take i) ∧ ¬ Viable (tokens.take (i + 1))) ∧
    ((tokens.map Token.span).Nodup → ∀ (i : Nat) (hi : i < tokens.length),
      tokens[i].span = e.span → Viable (tokens.take i) ∧ ¬ Viable (tokens.take (i + 1))) := by
  obtain ⟨before, t, after, s, rfl, hrun, hstep, hspan⟩ := Parser.run_error (h.run_of_error he)
  have hfirst : Viable ((before ++ t :: after).take before.length) ∧
      ¬ Viable ((before ++ t :: after).take (before.length + 1)) := by
    have htake : (before ++ t :: after).take (before.length + 1) = before ++ [t] := by
      rw [List.take_length_add_append]
      rfl
    rw [List.take_left, htake]
    exact ⟨viable_of_run hrun h.noEnd_before, not_viable_of_refused hrun hstep⟩
  have hlength : before.length < (before ++ t :: after).length := by simp
  have hget : (before ++ t :: after)[before.length].span = e.span := by simp [hspan]
  refine ⟨⟨before.length, hlength, hget, hfirst⟩, fun hnodup i hi hi' => ?_⟩
  obtain rfl : i = before.length := by
    refine (List.getElem?_inj (by simpa using hi) hnodup).1 ?_
    rw [List.getElem?_map, List.getElem?_map, List.getElem?_eq_getElem hi,
      List.getElem?_eq_getElem hlength, Option.map_some, Option.map_some, hi', hget]
  exact hfirst

/-- In `x = a b` the name `b` is refused: `x = a` is a program, and no program starts with `x = a b`. -/
theorem Program.error_at_first_impossible_name :
    EndsOnce [⟨.identifier, "x", ⟨1, 1, 0, 1⟩⟩, ⟨.operator, "=", ⟨1, 3, 2, 1⟩⟩,
      ⟨.identifier, "a", ⟨1, 5, 4, 1⟩⟩, ⟨.identifier, "b", ⟨1, 7, 6, 1⟩⟩,
      ⟨.endOfFile, "", ⟨1, 8, 7, 1⟩⟩] ∧
    Viable [⟨.identifier, "x", ⟨1, 1, 0, 1⟩⟩, ⟨.operator, "=", ⟨1, 3, 2, 1⟩⟩,
      ⟨.identifier, "a", ⟨1, 5, 4, 1⟩⟩] ∧
    ¬ Viable [⟨.identifier, "x", ⟨1, 1, 0, 1⟩⟩, ⟨.operator, "=", ⟨1, 3, 2, 1⟩⟩,
      ⟨.identifier, "a", ⟨1, 5, 4, 1⟩⟩, ⟨.identifier, "b", ⟨1, 7, 6, 1⟩⟩] := by
  have honce : EndsOnce ([⟨.identifier, "x", ⟨1, 1, 0, 1⟩⟩, ⟨.operator, "=", ⟨1, 3, 2, 1⟩⟩,
      ⟨.identifier, "a", ⟨1, 5, 4, 1⟩⟩, ⟨.identifier, "b", ⟨1, 7, 6, 1⟩⟩] ++
      [⟨.endOfFile, "", ⟨1, 8, 7, 1⟩⟩]) := ⟨_, _, rfl, by simp, rfl⟩
  have herror := (Program.error_at_first_impossible (e := ⟨.unexpectedAfterStatement "b", ⟨1, 7, 6, 1⟩⟩)
    honce rfl).2 (by decide) 3 (by decide) rfl
  exact ⟨honce, herror⟩

end ScriptBlocks
