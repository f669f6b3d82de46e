import ScriptBlocks.Program.Parser

/-!
# Layouts of programs

A printable program can be written as tokens without brackets of its own: where an operand would be
read differently, the tree has a bracket already. Its layouts differ in the newlines and semicolons
between statements, in the newlines inside brackets and in how numbers are written.
-/
namespace ScriptBlocks

/-! ## Programs without places -/

mutual

/-- An expression without the places where it is written. -/
def Expr.bare : Expr → Expr
  | .literal value _ => .literal value .empty
  | .name n _ => .name n .empty
  | .paren inner _ => .paren inner.bare .empty
  | .unary op _ operand _ => .unary op .empty operand.bare .empty
  | .binary op _ left right _ => .binary op .empty left.bare right.bare .empty
  | .call n arguments _ => .call n (Expr.bareAll arguments) .empty

def Expr.bareAll : List Expr → List Expr
  | [] => []
  | e :: es => e.bare :: Expr.bareAll es

end

def Named.bare (name : Named) : Named :=
  ⟨name.name, .empty⟩

mutual

/-- A statement without the places where it is written. -/
def Statement.bare : Statement → Statement
  | .declare target value _ => .declare target.bare value.bare .empty
  | .assign target op _ value _ => .assign target.bare op .empty value.bare .empty
  | .yield value _ => .yield value.bare .empty
  | .function name parameters body _ =>
    .function name.bare (parameters.map Named.bare) (Statement.bareAll body) .empty
  | .call name arguments _ => .call name (Expr.bareAll arguments) .empty
  | .branch condition body otherwise _ =>
    .branch condition.bare (Statement.bareAll body) otherwise.bare .empty
  | .directive name _ => .directive name.bare .empty
  | .comment text _ => .comment text .empty

def Alternative.bare : Alternative → Alternative
  | .none => .none
  | .block body => .block (Statement.bareAll body)
  | .branch condition body otherwise _ =>
    .branch condition.bare (Statement.bareAll body) otherwise.bare .empty

def Statement.bareAll : List Statement → List Statement
  | [] => []
  | s :: statements => s.bare :: Statement.bareAll statements

end

/-- A program without the places where it is written. -/
def Program.bare (p : Program) : Program :=
  ⟨Statement.bareAll p.statements, .empty⟩

/-! ## Printable programs -/

def Expr.isBinary : Expr → Bool
  | .binary _ _ _ _ _ => true
  | _ => false

/-- How tightly an expression holds together. Signs and primaries do so more tightly than any
binary operator. -/
def Expr.strength : Expr → Nat
  | .binary op _ _ _ _ => op.precedence
  | _ => 6

mutual

/-- Every operand that needs a bracket has one. -/
def Expr.Printable : Expr → Prop
  | .literal _ _ => True
  | .name _ _ => True
  | .paren inner _ => inner.Printable
  | .unary _ _ operand _ => operand.isBinary = false ∧ operand.Printable
  | .binary op _ left right _ =>
    (op.precedence ≤ left.strength ∧ left.Printable) ∧
      op.precedence < right.strength ∧ right.Printable
  | .call _ arguments _ => Expr.AllPrintable arguments

def Expr.AllPrintable : List Expr → Prop
  | [] => True
  | e :: es => e.Printable ∧ Expr.AllPrintable es

end

mutual

def Statement.Printable : Statement → Prop
  | .declare _ value _ => value.Printable
  | .assign _ _ _ value _ => value.Printable
  | .yield value _ => value.Printable
  | .function _ _ body _ => Statement.AllPrintable body
  | .call _ arguments _ => Expr.AllPrintable arguments
  | .branch condition body otherwise _ =>
    condition.Printable ∧ Statement.AllPrintable body ∧ otherwise.Printable
  | .directive _ _ => True
  | .comment _ _ => True

def Alternative.Printable : Alternative → Prop
  | .none => True
  | .block body => Statement.AllPrintable body
  | .branch condition body otherwise _ =>
    condition.Printable ∧ Statement.AllPrintable body ∧ otherwise.Printable

def Statement.AllPrintable : List Statement → Prop
  | [] => True
  | s :: statements => s.Printable ∧ Statement.AllPrintable statements

end

def Program.Printable (p : Program) : Prop :=
  Statement.AllPrintable p.statements

/-! ## Tokens of a layout -/

namespace Token

/-- The token is written for a literal. Of the texts of a number all are allowed that read as it. -/
def Writes (t : Token) : Literal → Prop
  | .number value => t.kind = .number ∧ readNumber? t.text = some value
  | .text value => t.kind = .string ∧ t.text = value
  | .boolean value => t.kind = .keyword ∧ t.text = if value then "true" else "false"
  | .color value => t.kind = .color ∧ t.text = value

def Names (t : Token) (name : String) : Prop :=
  t.kind = .identifier ∧ t.text = name

def IsOperator (t : Token) (symbol : String) : Prop :=
  t.kind = .operator ∧ t.text = symbol

/-- Before such a token a statement needs no separator. -/
def EndsStatement (t : Token) : Prop :=
  t.kind = .rightBrace ∨ t.kind = .comment ∨ t.kind = .endOfFile

end Token

def Newlines (tokens : List Token) : Prop :=
  ∀ t ∈ tokens, t.kind = .newline

def Separators (tokens : List Token) : Prop :=
  ∀ t ∈ tokens, t.isSeparator = true

/-- The sign of an assignment. -/
def assignmentSymbol : Option ArithmeticOp → String
  | none => "="
  | some op => op.symbol ++ "="

/-- Items with commas between them and the bracket that closes their list. Newlines may stand
anywhere around the items. -/
inductive Listed {α : Type} (Writes : α → List Token → Prop) : List α → List Token → Prop
  | none {lines : List Token} {close : Token} (hlines : Newlines lines)
      (hclose : close.kind = .rightParen) : Listed Writes [] (lines ++ [close])
  | last {x : α} {before item after : List Token} {close : Token} (hbefore : Newlines before)
      (hitem : Writes x item) (hafter : Newlines after) (hclose : close.kind = .rightParen) :
      Listed Writes [x] (before ++ (item ++ (after ++ [close])))
  | next {x y : α} {xs : List α} {before item after rest : List Token} {comma : Token}
      (hbefore : Newlines before) (hitem : Writes x item) (hafter : Newlines after)
      (hcomma : comma.kind = .comma) (hrest : Listed Writes (y :: xs) rest) :
      Listed Writes (x :: y :: xs) (before ++ (item ++ (after ++ comma :: rest)))

/-- The tokens are a layout of the expression. -/
inductive Expr.Layout : Expr → List Token → Prop
  | literal {value : Literal} {span : Span} {t : Token} (h : t.Writes value) :
      Expr.Layout (.literal value span) [t]
  | name {name : String} {span : Span} {t : Token} (h : t.Names name) :
      Expr.Layout (.name name span) [t]
  | paren {inner : Expr} {span : Span} {bracket close : Token} {before tokens after : List Token}
      (hopen : bracket.kind = .leftParen) (hbefore : Newlines before)
      (hinner : inner.Layout tokens) (hafter : Newlines after)
      (hclose : close.kind = .rightParen) :
      Expr.Layout (.paren inner span) (bracket :: (before ++ (tokens ++ (after ++ [close]))))
  | unary {op : UnaryOp} {opSpan span : Span} {operand : Expr} {sign : Token}
      {tokens : List Token} (hsign : sign.IsOperator op.symbol) (h : operand.Layout tokens) :
      Expr.Layout (.unary op opSpan operand span) (sign :: tokens)
  | binary {op : BinaryOp} {opSpan span : Span} {left right : Expr} {sign : Token}
      {tokens tokens' : List Token} (hleft : left.Layout tokens)
      (hsign : sign.IsOperator op.symbol) (hright : right.Layout tokens') :
      Expr.Layout (.binary op opSpan left right span) (tokens ++ sign :: tokens')
  | call {name : String} {arguments : List Expr} {span : Span} {t bracket : Token}
      {tokens : List Token} (hname : t.Names name) (hopen : bracket.kind = .leftParen)
      (h : Listed Expr.Layout arguments tokens) :
      Expr.Layout (.call name arguments span) (t :: bracket :: tokens)

/-- A name is written as one token. -/
def Named.Layout (name : Named) (tokens : List Token) : Prop :=
  ∃ t : Token, tokens = [t] ∧ t.Names name.name

/-- A statement may stand directly before these statements: they are none, or the first one is a
comment. -/
def Statement.mayFollow : List Statement → Prop
  | [] => True
  | .comment _ _ :: _ => True
  | _ => False

mutual

/-- The tokens are a layout of the statement, without what separates it from the next one. -/
inductive Statement.Layout : Statement → List Token → Prop
  | declare {target : Named} {value : Expr} {span : Span} {word name sign : Token}
      {tokens : List Token} (hword : word.isKeyword "let" = true) (hname : name.Names target.name)
      (hsign : sign.IsOperator "=") (hvalue : value.Layout tokens) :
      Statement.Layout (.declare target value span) (word :: name :: sign :: tokens)
  | assign {target : Named} {op : Option ArithmeticOp} {opSpan span : Span} {value : Expr}
      {name sign : Token} {tokens : List Token} (hname : name.Names target.name)
      (hsign : sign.IsOperator (assignmentSymbol op)) (hvalue : value.Layout tokens) :
      Statement.Layout (.assign target op opSpan value span) (name :: sign :: tokens)
  | yield {value : Expr} {span : Span} {word : Token} {tokens : List Token}
      (hword : word.isKeyword "return" = true) (hvalue : value.Layout tokens) :
      Statement.Layout (.yield value span) (word :: tokens)
  | function {name : Named} {parameters : List Named} {body : List Statement} {span : Span}
      {word t bracket : Token} {tokens block : List Token}
      (hword : word.isKeyword "function" = true) (hname : t.Names name.name)
      (hopen : bracket.kind = .leftParen) (hparameters : Listed Named.Layout parameters tokens)
      (hbody : BlockLayout body block) :
      Statement.Layout (.function name parameters body span)
        (word :: t :: bracket :: (tokens ++ block))
  | call {name : String} {arguments : List Expr} {span : Span} {t bracket : Token}
      {tokens : List Token} (hname : t.Names name) (hopen : bracket.kind = .leftParen)
      (h : Listed Expr.Layout arguments tokens) :
      Statement.Layout (.call name arguments span) (t :: bracket :: tokens)
  | branch {condition : Expr} {body : List Statement} {otherwise : Alternative} {span : Span}
      {word : Token} {tokens block rest : List Token} (hword : word.isKeyword "if" = true)
      (hcondition : condition.Layout tokens) (hbody : BlockLayout body block)
      (hrest : otherwise.Layout rest) :
      Statement.Layout (.branch condition body otherwise span) (word :: (tokens ++ (block ++ rest)))
  | directive {name : Named} {span : Span} {sign t : Token} (hsign : sign.kind = .at)
      (hname : t.Names name.name) : Statement.Layout (.directive name span) [sign, t]
  | comment {text : String} {span : Span} {t : Token} (hkind : t.kind = .comment)
      (htext : t.text = text) : Statement.Layout (.comment text span) [t]

/-- The tokens are a layout of what follows the first branch of a conditional. -/
inductive Alternative.Layout : Alternative → List Token → Prop
  | none : Alternative.Layout .none []
  | block {body : List Statement} {lines block : List Token} {word : Token}
      (hlines : Newlines lines) (hword : word.isKeyword "else" = true)
      (hbody : BlockLayout body block) :
      Alternative.Layout (.block body) (lines ++ word :: block)
  | branch {condition : Expr} {body : List Statement} {otherwise : Alternative} {span : Span}
      {lines tokens block rest : List Token} {word word' : Token} (hlines : Newlines lines)
      (hword : word.isKeyword "else" = true) (hword' : word'.isKeyword "if" = true)
      (hcondition : condition.Layout tokens) (hbody : BlockLayout body block)
      (hrest : otherwise.Layout rest) :
      Alternative.Layout (.branch condition body otherwise span)
        (lines ++ word :: word' :: (tokens ++ (block ++ rest)))

/-- The tokens are a layout of a block with its braces. -/
inductive BlockLayout : List Statement → List Token → Prop
  | block {body : List Statement} {brace close : Token} {separators tokens : List Token}
      (hopen : brace.kind = .leftBrace) (hseparators : Separators separators)
      (hbody : StatementsLayout body tokens) (hclose : close.kind = .rightBrace) :
      BlockLayout body (brace :: (separators ++ (tokens ++ [close])))

/-- The tokens are a layout of statements one after the other, with separators after each. -/
inductive StatementsLayout : List Statement → List Token → Prop
  | nil : StatementsLayout [] []
  | cons {s : Statement} {statements : List Statement} {tokens separators rest : List Token}
      (hs : s.Layout tokens) (hseparators : Separators separators)
      (hfollow : separators = [] → Statement.mayFollow statements)
      (hrest : StatementsLayout statements rest) :
      StatementsLayout (s :: statements) (tokens ++ (separators ++ rest))

end

/-- The tokens are a layout of the program. They may end without an end of file, and what follows
one does not matter. -/
inductive Program.Layout (p : Program) : List Token → Prop
  | program {separators tokens tail : List Token} (hseparators : Separators separators)
      (hstatements : StatementsLayout p.statements tokens)
      (htail : ∀ t ∈ tail.head?, t.kind = .endOfFile) :
      Program.Layout p (separators ++ (tokens ++ tail))

/-! ## The end of a layout

Nothing in the layout of a statement is taken for the end of the file.
-/

def NoEnd (tokens : List Token) : Prop :=
  ∀ t ∈ tokens, t.kind ≠ .endOfFile

section

variable {t : Token} {tokens tokens' : List Token}

@[simp] theorem noEnd_nil : NoEnd [] := by
  simp [NoEnd]

@[simp] theorem noEnd_cons : NoEnd (t :: tokens) ↔ t.kind ≠ .endOfFile ∧ NoEnd tokens := by
  simp [NoEnd]

@[simp] theorem noEnd_append : NoEnd (tokens ++ tokens') ↔ NoEnd tokens ∧ NoEnd tokens' := by
  simp [NoEnd, or_imp, forall_and]

theorem Newlines.noEnd (h : Newlines tokens) : NoEnd tokens :=
  fun t ht => by simp [h t ht]

theorem Separators.noEnd (h : Separators tokens) : NoEnd tokens := by
  intro t ht hend
  have := h t ht
  simp [Token.isSeparator, hend] at this

theorem Token.Writes.noEnd {value : Literal} (h : t.Writes value) : t.kind ≠ .endOfFile := by
  cases value <;> simp [h.1]

theorem Token.Names.noEnd {name : String} (h : t.Names name) : t.kind ≠ .endOfFile := by
  simp [h.1]

theorem Token.IsOperator.noEnd {symbol : String} (h : t.IsOperator symbol) :
    t.kind ≠ .endOfFile := by
  simp [h.1]

theorem Token.noEnd_of_isKeyword {word : String} (h : t.isKeyword word = true) :
    t.kind ≠ .endOfFile := by
  intro hend
  simp [Token.isKeyword, hend] at h

end

mutual

theorem Expr.Layout.noEnd : ∀ (e : Expr) {tokens : List Token}, e.Layout tokens → NoEnd tokens
  | .literal _ _, _, .literal h => by simp [h.noEnd]
  | .name _ _, _, .name h => by simp [h.noEnd]
  | .paren inner _, _, .paren hopen hbefore hinner hafter hclose => by
    simp [hopen, hbefore.noEnd, Expr.Layout.noEnd inner hinner, hafter.noEnd, hclose]
  | .unary _ _ operand _, _, .unary hsign h => by
    simp [hsign.noEnd, Expr.Layout.noEnd operand h]
  | .binary _ _ left right _, _, .binary hleft hsign hright => by
    simp [Expr.Layout.noEnd left hleft, hsign.noEnd, Expr.Layout.noEnd right hright]
  | .call _ arguments _, _, .call hname hopen h => by
    simp [hname.noEnd, hopen, noEnd_of_arguments arguments h]

theorem noEnd_of_arguments : ∀ (es : List Expr) {tokens : List Token},
    Listed Expr.Layout es tokens → NoEnd tokens
  | [], _, .none hlines hclose => by simp [hlines.noEnd, hclose]
  | [e], _, .last hbefore hitem hafter hclose => by
    simp [hbefore.noEnd, Expr.Layout.noEnd e hitem, hafter.noEnd, hclose]
  | e :: e' :: es, _, .next hbefore hitem hafter hcomma hrest => by
    simp [hbefore.noEnd, Expr.Layout.noEnd e hitem, hafter.noEnd, hcomma,
      noEnd_of_arguments (e' :: es) hrest]

end

theorem noEnd_of_parameters : ∀ (parameters : List Named) {tokens : List Token},
    Listed Named.Layout parameters tokens → NoEnd tokens
  | [], _, .none hlines hclose => by simp [hlines.noEnd, hclose]
  | [_], _, .last hbefore hitem hafter hclose => by
    obtain ⟨t, rfl, ht⟩ := hitem
    simp [hbefore.noEnd, ht.noEnd, hafter.noEnd, hclose]
  | _ :: y :: xs, _, .next hbefore hitem hafter hcomma hrest => by
    obtain ⟨t, rfl, ht⟩ := hitem
    simp [hbefore.noEnd, ht.noEnd, hafter.noEnd, hcomma, noEnd_of_parameters (y :: xs) hrest]

mutual

theorem Statement.Layout.noEnd : ∀ (s : Statement) {tokens : List Token}, s.Layout tokens →
    NoEnd tokens
  | .declare _ value _, _, .declare hword hname hsign hvalue => by
    simp [Token.noEnd_of_isKeyword hword, hname.noEnd, hsign.noEnd, Expr.Layout.noEnd value hvalue]
  | .assign _ _ _ value _, _, .assign hname hsign hvalue => by
    simp [hname.noEnd, hsign.noEnd, Expr.Layout.noEnd value hvalue]
  | .yield value _, _, .yield hword hvalue => by
    simp [Token.noEnd_of_isKeyword hword, Expr.Layout.noEnd value hvalue]
  | .function _ parameters body _, _,
      .function hword hname hopen hparameters (.block hbrace hseparators hbody hclose) => by
    simp [Token.noEnd_of_isKeyword hword, hname.noEnd, hopen,
      noEnd_of_parameters parameters hparameters, hbrace, hseparators.noEnd,
      noEnd_of_statements body hbody, hclose]
  | .call _ arguments _, _, .call hname hopen h => by
    simp [hname.noEnd, hopen, noEnd_of_arguments arguments h]
  | .branch condition body otherwise _, _,
      .branch hword hcondition (.block hbrace hseparators hbody hclose) hrest => by
    simp [Token.noEnd_of_isKeyword hword, Expr.Layout.noEnd condition hcondition, hbrace,
      hseparators.noEnd, noEnd_of_statements body hbody, hclose,
      Alternative.Layout.noEnd otherwise hrest]
  | .directive _ _, _, .directive hsign hname => by simp [hsign, hname.noEnd]
  | .comment _ _, _, .comment hkind _ => by simp [hkind]

theorem Alternative.Layout.noEnd : ∀ (otherwise : Alternative) {tokens : List Token},
    otherwise.Layout tokens → NoEnd tokens
  | .none, _, .none => by simp
  | .block body, _, .block hlines hword (.block hbrace hseparators hbody hclose) => by
    simp [hlines.noEnd, Token.noEnd_of_isKeyword hword, hbrace, hseparators.noEnd,
      noEnd_of_statements body hbody, hclose]
  | .branch condition body otherwise _, _,
      .branch hlines hword hword' hcondition (.block hbrace hseparators hbody hclose) hrest => by
    simp [hlines.noEnd, Token.noEnd_of_isKeyword hword, Token.noEnd_of_isKeyword hword',
      Expr.Layout.noEnd condition hcondition, hbrace, hseparators.noEnd,
      noEnd_of_statements body hbody, hclose, Alternative.Layout.noEnd otherwise hrest]

theorem noEnd_of_statements : ∀ (statements : List Statement) {tokens : List Token},
    StatementsLayout statements tokens → NoEnd tokens
  | [], _, .nil => by simp
  | s :: statements, _, .cons hs hseparators _ hrest => by
    simp [Statement.Layout.noEnd s hs, hseparators.noEnd, noEnd_of_statements statements hrest]

end

end ScriptBlocks
