import ScriptBlocks.Literal
import ScriptBlocks.Span

/-!
# Programs

The tree of a program: expressions, statements and their ranges in the source.
-/
namespace ScriptBlocks

inductive UnaryOp where
  | plus
  | minus
  | not
  deriving DecidableEq, Repr

inductive ArithmeticOp where
  | add
  | subtract
  | multiply
  | divide
  | modulo
  deriving DecidableEq, Repr

inductive ComparisonOp where
  | equal
  | notEqual
  | less
  | greater
  | lessOrEqual
  | greaterOrEqual
  deriving DecidableEq, Repr

inductive LogicOp where
  | and
  | or
  deriving DecidableEq, Repr

inductive BinaryOp where
  | arithmetic (op : ArithmeticOp)
  | comparison (op : ComparisonOp)
  | logic (op : LogicOp)
  deriving DecidableEq, Repr

def UnaryOp.symbol : UnaryOp → String
  | .plus => "+"
  | .minus => "-"
  | .not => "!"

def UnaryOp.ofSymbol? (symbol : String) : Option UnaryOp :=
  [.plus, .minus, .not].find? (fun op : UnaryOp => op.symbol == symbol)

def ArithmeticOp.symbol : ArithmeticOp → String
  | .add => "+"
  | .subtract => "-"
  | .multiply => "*"
  | .divide => "/"
  | .modulo => "%"

def ComparisonOp.symbol : ComparisonOp → String
  | .equal => "=="
  | .notEqual => "!="
  | .less => "<"
  | .greater => ">"
  | .lessOrEqual => "<="
  | .greaterOrEqual => ">="

def LogicOp.symbol : LogicOp → String
  | .and => "&&"
  | .or => "||"

namespace BinaryOp

def symbol : BinaryOp → String
  | .arithmetic op => op.symbol
  | .comparison op => op.symbol
  | .logic op => op.symbol

def all : List BinaryOp :=
  [.arithmetic .add, .arithmetic .subtract, .arithmetic .multiply, .arithmetic .divide,
   .arithmetic .modulo, .comparison .equal, .comparison .notEqual, .comparison .less,
   .comparison .greater, .comparison .lessOrEqual, .comparison .greaterOrEqual, .logic .and,
   .logic .or]

def ofSymbol? (symbol : String) : Option BinaryOp :=
  all.find? (fun op => op.symbol == symbol)

/-- How tightly an operator binds. All operators group to the left. -/
def precedence : BinaryOp → Nat
  | .logic .or => 1
  | .logic .and => 2
  | .comparison _ => 3
  | .arithmetic .add => 4
  | .arithmetic .subtract => 4
  | .arithmetic _ => 5

end BinaryOp

/-- The arithmetic that an assignment sign performs before it stores, if any; the result is `none`
when the symbol is no assignment sign. -/
def assignment? (symbol : String) : Option (Option ArithmeticOp) :=
  if symbol = "=" then some none
  else
    ([.add, .subtract, .multiply, .divide, .modulo].find?
      (fun op : ArithmeticOp => op.symbol ++ "=" == symbol)).map some

inductive Expr where
  | literal (value : Literal) (span : Span)
  | name (name : String) (span : Span)
  | paren (inner : Expr) (span : Span)
  | unary (op : UnaryOp) (opSpan : Span) (operand : Expr) (span : Span)
  | binary (op : BinaryOp) (opSpan : Span) (left right : Expr) (span : Span)
  | call (name : String) (arguments : List Expr) (span : Span)

def Expr.span : Expr → Span
  | .literal _ span => span
  | .name _ span => span
  | .paren _ span => span
  | .unary _ _ _ span => span
  | .binary _ _ _ _ span => span
  | .call _ _ span => span

/-- A name together with the place where it is written. -/
structure Named where
  name : String
  span : Span
  deriving DecidableEq, Repr

mutual

inductive Statement where
  | declare (target : Named) (value : Expr) (span : Span)
  | assign (target : Named) (op : Option ArithmeticOp) (opSpan : Span) (value : Expr)
      (span : Span)
  | yield (value : Expr) (span : Span)
  | function (name : Named) (parameters : List Named) (body : List Statement) (span : Span)
  | call (name : String) (arguments : List Expr) (span : Span)
  | branch (condition : Expr) (body : List Statement) (otherwise : Alternative) (span : Span)
  | directive (name : Named) (span : Span)
  | comment (text : String) (span : Span)

/-- What follows the first branch of a conditional: nothing, a block, or another conditional. -/
inductive Alternative where
  | none
  | block (body : List Statement)
  | branch (condition : Expr) (body : List Statement) (otherwise : Alternative) (span : Span)

end

def Statement.span : Statement → Span
  | .declare _ _ span => span
  | .assign _ _ _ _ span => span
  | .yield _ span => span
  | .function _ _ _ span => span
  | .call _ _ span => span
  | .branch _ _ _ span => span
  | .directive _ span => span
  | .comment _ span => span

structure Program where
  statements : List Statement
  span : Span

end ScriptBlocks
