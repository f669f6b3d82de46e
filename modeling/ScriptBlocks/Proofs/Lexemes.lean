import ScriptBlocks.Proofs.Layout

/-!
# What tokens and programs say

A program is printed as the list of what its tokens say, without separators and places.
-/
namespace ScriptBlocks

/-! ## What tokens say -/

/-- What a token says apart from its place. Numbers are told apart by their value, brackets, commas
and the sign of a directive by their kind alone. -/
inductive Lexeme where
  | word (kind : TokenKind) (text : String)
  | number (value : Option Binary64)
  | mark (kind : TokenKind)
  deriving DecidableEq, Repr

def Token.lexeme (t : Token) : Lexeme :=
  match t.kind with
  | .number => .number (readNumber? t.text)
  | .leftParen | .rightParen | .leftBrace | .rightBrace | .comma | .at => .mark t.kind
  | kind => .word kind t.text

/-- The lexemes of a token list. Separators and the end of the file say nothing. -/
def lexemes (tokens : List Token) : List Lexeme :=
  (tokens.filter fun t => !t.isSeparator && t.kind ≠ .endOfFile).map Token.lexeme

namespace Lexeme

def keyword (text : String) : Lexeme := .word .keyword text

def name (text : String) : Lexeme := .word .identifier text

def operator (symbol : String) : Lexeme := .word .operator symbol

/-- Items with commas between them, in brackets. -/
def listed (items : List (List Lexeme)) : List Lexeme :=
  .mark .leftParen :: ([.mark .comma].intercalate items ++ [.mark .rightParen])

/-- Statements in braces. -/
def braced (inner : List Lexeme) : List Lexeme :=
  .mark .leftBrace :: (inner ++ [.mark .rightBrace])

end Lexeme

/-! ## Printing programs -/

def Literal.lexeme : Literal → Lexeme
  | .number value => .number (some value)
  | .text value => .word .string value
  | .boolean value => .keyword (if value then "true" else "false")
  | .color value => .word .color value

mutual

/-- What an expression says, in the order of the source. -/
def Expr.lexemes : Expr → List Lexeme
  | .literal value _ => [value.lexeme]
  | .name n _ => [.name n]
  | .paren inner _ => .mark .leftParen :: (inner.lexemes ++ [.mark .rightParen])
  | .unary op _ operand _ => .operator op.symbol :: operand.lexemes
  | .binary op _ left right _ => left.lexemes ++ .operator op.symbol :: right.lexemes
  | .call n arguments _ => .name n :: Lexeme.listed (Expr.lexemesEach arguments)

def Expr.lexemesEach : List Expr → List (List Lexeme)
  | [] => []
  | e :: es => e.lexemes :: Expr.lexemesEach es

end

def Named.lexemes (name : Named) : List Lexeme :=
  [.name name.name]

mutual

/-- What a statement says, in the order of the source. -/
def Statement.lexemes : Statement → List Lexeme
  | .declare target value _ =>
    .keyword "let" :: .name target.name :: .operator "=" :: value.lexemes
  | .assign target op _ value _ =>
    .name target.name :: .operator (assignmentSymbol op) :: value.lexemes
  | .yield value _ => .keyword "return" :: value.lexemes
  | .function name parameters body _ =>
    .keyword "function" :: .name name.name ::
      (Lexeme.listed (parameters.map Named.lexemes) ++ Lexeme.braced (Statement.lexemesAll body))
  | .call name arguments _ => .name name :: Lexeme.listed (Expr.lexemesEach arguments)
  | .branch condition body otherwise _ =>
    .keyword "if" :: (condition.lexemes ++ (Lexeme.braced (Statement.lexemesAll body) ++
      otherwise.lexemes))
  | .directive name _ => [.mark .at, .name name.name]
  | .comment text _ => [.word .comment text]

def Alternative.lexemes : Alternative → List Lexeme
  | .none => []
  | .block body => .keyword "else" :: Lexeme.braced (Statement.lexemesAll body)
  | .branch condition body otherwise _ =>
    .keyword "else" :: .keyword "if" :: (condition.lexemes ++
      (Lexeme.braced (Statement.lexemesAll body) ++ otherwise.lexemes))

def Statement.lexemesAll : List Statement → List Lexeme
  | [] => []
  | s :: statements => s.lexemes ++ Statement.lexemesAll statements

end

/-- What a program says, in the order of the source. -/
def Program.lexemes (p : Program) : List Lexeme :=
  Statement.lexemesAll p.statements

section

variable {t : Token} {tokens tokens' : List Token}

@[simp] theorem lexemes_append :
    lexemes (tokens ++ tokens') = lexemes tokens ++ lexemes tokens' := by
  simp [lexemes]

theorem lexemes_separator (h : t.isSeparator = true) : lexemes [t] = [] := by
  simp [lexemes, h]

end

@[simp] theorem Expr.lexemesEach_eq_map (es : List Expr) :
    Expr.lexemesEach es = es.map Expr.lexemes := by
  induction es with
  | nil => rfl
  | cons e es ih => rw [Expr.lexemesEach, ih, List.map_cons]

@[simp] theorem Statement.lexemesAll_eq_flatMap (statements : List Statement) :
    Statement.lexemesAll statements = statements.flatMap Statement.lexemes := by
  induction statements with
  | nil => rfl
  | cons s statements ih => rw [Statement.lexemesAll, ih, List.flatMap_cons]

/-- Items after each of which a comma has been read, and the last item. -/
theorem Lexeme.flatMap_comma_append (items : List (List Lexeme)) (item : List Lexeme) :
    items.flatMap (· ++ [.mark .comma]) ++ item =
      [Lexeme.mark .comma].intercalate (items ++ [item]) := by
  induction items with
  | nil => simp [List.intercalate]
  | cons x xs ih =>
    rw [List.flatMap_cons, List.append_assoc, ih]
    cases xs <;> simp [List.intercalate]

theorem Lexeme.mem_listed {items : List (List Lexeme)} {item : List Lexeme} {l : Lexeme}
    (hitem : item ∈ items) (h : l ∈ item) : l ∈ listed items := by
  have hmem : l ∈ [Lexeme.mark .comma].intercalate items := by
    induction items with
    | nil => cases hitem
    | cons first items ih =>
      rcases List.mem_cons.1 hitem with rfl | hitem
      · cases items <;> simp [List.intercalate, h]
      · have hrest := ih hitem
        cases items <;> simp_all [List.intercalate]
  simp [listed, hmem]

/-! ## Operators and printable programs -/

theorem BinaryOp.precedence_pos (op : BinaryOp) : 0 < op.precedence := by
  rcases op with op | op | op <;> cases op <;> decide

theorem BinaryOp.precedence_lt (op : BinaryOp) : op.precedence < 6 := by
  rcases op with op | op | op <;> cases op <;> decide

/-- Operators are known by their symbols. -/
theorem BinaryOp.symbol_of_ofSymbol? {symbol : String} {op : BinaryOp}
    (h : BinaryOp.ofSymbol? symbol = some op) : op.symbol = symbol := by
  simpa using List.find?_some h

theorem UnaryOp.symbol_of_ofSymbol? {symbol : String} {op : UnaryOp}
    (h : UnaryOp.ofSymbol? symbol = some op) : op.symbol = symbol := by
  simpa using List.find?_some h

theorem assignmentSymbol_of_assignment? {symbol : String} {op : Option ArithmeticOp}
    (h : assignment? symbol = some op) : assignmentSymbol op = symbol := by
  rw [assignment?] at h
  split at h
  next hs =>
    cases h
    exact hs.symm
  next =>
    obtain ⟨op', hop, rfl⟩ := Option.map_eq_some_iff.1 h
    simpa [assignmentSymbol] using List.find?_some hop

theorem Expr.allPrintable_iff {es : List Expr} : Expr.AllPrintable es ↔ ∀ e ∈ es, e.Printable := by
  induction es with
  | nil => simp [Expr.AllPrintable]
  | cons e es ih => simp [Expr.AllPrintable, ih]

theorem Statement.allPrintable_iff {statements : List Statement} :
    Statement.AllPrintable statements ↔ ∀ s ∈ statements, s.Printable := by
  induction statements with
  | nil => simp [Statement.AllPrintable]
  | cons s statements ih => simp [Statement.AllPrintable, ih]

end ScriptBlocks
