import ScriptBlocks.Proofs.Lexemes

/-!
# Nodes of programs

A node of a program has a range in the source and parts with ranges of their own: names, operators,
and the nodes below it. Here the nodes of a program are listed, each with its parts in the order in
which they are written.
-/
namespace ScriptBlocks

/-- The range of a node and those of its parts. -/
structure Node where
  span : Span
  parts : List Span
  deriving DecidableEq, Repr

mutual

/-- The nodes of an expression, the expression itself first. -/
@[simp] def Expr.nodes : Expr → List Node
  | .literal _ span => [⟨span, []⟩]
  | .name _ span => [⟨span, []⟩]
  | .paren inner span => ⟨span, [inner.span]⟩ :: inner.nodes
  | .unary _ opSpan operand span => ⟨span, [opSpan, operand.span]⟩ :: operand.nodes
  | .binary _ opSpan left right span =>
    ⟨span, [left.span, opSpan, right.span]⟩ :: (left.nodes ++ right.nodes)
  | .call _ arguments span => ⟨span, arguments.map Expr.span⟩ :: Expr.nodesAll arguments

def Expr.nodesAll : List Expr → List Node
  | [] => []
  | e :: es => e.nodes ++ Expr.nodesAll es

end

/-- The ranges of what follows the first branch of a conditional. -/
def Alternative.spans : Alternative → List Span
  | .none => []
  | .block body => body.map Statement.span
  | .branch _ _ _ span => [span]

/-- The parts of a conditional. -/
def branchParts (condition : Expr) (body : List Statement) (otherwise : Alternative) : List Span :=
  condition.span :: (body.map Statement.span ++ otherwise.spans)

mutual

/-- The nodes of a statement, the statement itself first. -/
@[simp] def Statement.nodes : Statement → List Node
  | .declare target value span => ⟨span, [target.span, value.span]⟩ :: value.nodes
  | .assign target _ opSpan value span => ⟨span, [target.span, opSpan, value.span]⟩ :: value.nodes
  | .yield value span => ⟨span, [value.span]⟩ :: value.nodes
  | .function name parameters body span =>
    ⟨span, name.span :: (parameters.map Named.span ++ body.map Statement.span)⟩ ::
      Statement.nodesAll body
  | .call _ arguments span => ⟨span, arguments.map Expr.span⟩ :: Expr.nodesAll arguments
  | .branch condition body otherwise span =>
    ⟨span, branchParts condition body otherwise⟩ ::
      (condition.nodes ++ (Statement.nodesAll body ++ otherwise.nodes))
  | .directive name span => [⟨span, [name.span]⟩]
  | .comment _ span => [⟨span, []⟩]

@[simp] def Alternative.nodes : Alternative → List Node
  | .none => []
  | .block body => Statement.nodesAll body
  | .branch condition body otherwise span =>
    ⟨span, branchParts condition body otherwise⟩ ::
      (condition.nodes ++ (Statement.nodesAll body ++ otherwise.nodes))

def Statement.nodesAll : List Statement → List Node
  | [] => []
  | s :: statements => s.nodes ++ Statement.nodesAll statements

end

/-- The nodes of a program, the program itself first. -/
def Program.nodes (p : Program) : List Node :=
  ⟨p.span, p.statements.map Statement.span⟩ :: Statement.nodesAll p.statements

@[simp] theorem Expr.nodesAll_eq_flatMap (es : List Expr) :
    Expr.nodesAll es = es.flatMap Expr.nodes := by
  induction es with
  | nil => rfl
  | cons e es ih => rw [Expr.nodesAll, ih, List.flatMap_cons]

@[simp] theorem Statement.nodesAll_eq_flatMap (statements : List Statement) :
    Statement.nodesAll statements = statements.flatMap Statement.nodes := by
  induction statements with
  | nil => rfl
  | cons s statements ih => rw [Statement.nodesAll, ih, List.flatMap_cons]

/-! ### Properties of all ranges and names -/

/-- The property holds of the range of the node and of those of its parts. -/
def Node.Everywhere (Q : Span → Prop) (n : Node) : Prop :=
  Q n.span ∧ ∀ s ∈ n.parts, Q s

variable {Q : Span → Prop} {N : String → Prop}

/-- The ranges have one property and the names another. -/
structure Expr.Everywhere (Q : Span → Prop) (N : String → Prop) (e : Expr) : Prop where
  ranges : ∀ n ∈ e.nodes, n.Everywhere Q
  names : ∀ x, .name x ∈ e.lexemes → N x

structure Statement.Everywhere (Q : Span → Prop) (N : String → Prop) (s : Statement) : Prop where
  ranges : ∀ n ∈ s.nodes, n.Everywhere Q
  names : ∀ x, .name x ∈ s.lexemes → N x

structure Alternative.Everywhere (Q : Span → Prop) (N : String → Prop) (a : Alternative) : Prop where
  ranges : ∀ n ∈ a.nodes, n.Everywhere Q
  names : ∀ x, .name x ∈ a.lexemes → N x

theorem Expr.Everywhere.span {e : Expr} (h : e.Everywhere Q N) : Q e.span := by
  cases e with
  | _ => exact (h.ranges _ List.mem_cons_self).1

namespace Expr.Everywhere

variable {span opSpan : Span} {e left right : Expr}

theorem paren (h : (paren e span).Everywhere Q N) : e.Everywhere Q N := by
  obtain ⟨hr, hn⟩ := h
  simp only [nodes, List.forall_mem_cons] at hr
  exact ⟨hr.2, fun x hx => hn x (by simp [lexemes, hx])⟩

theorem unary {op : UnaryOp} (h : (unary op opSpan e span).Everywhere Q N) :
    Q opSpan ∧ e.Everywhere Q N := by
  obtain ⟨hr, hn⟩ := h
  simp only [nodes, List.forall_mem_cons, Node.Everywhere] at hr
  exact ⟨hr.1.2.1, hr.2, fun x hx => hn x (by simp [lexemes, hx])⟩

theorem binary {op : BinaryOp} (h : (binary op opSpan left right span).Everywhere Q N) :
    Q opSpan ∧ left.Everywhere Q N ∧ right.Everywhere Q N := by
  obtain ⟨hr, hn⟩ := h
  simp only [nodes, List.forall_mem_cons, List.forall_mem_append, Node.Everywhere] at hr
  exact ⟨hr.1.2.2.1, ⟨hr.2.1, fun x hx => hn x (by simp [lexemes, hx])⟩,
    hr.2.2, fun x hx => hn x (by simp [lexemes, hx])⟩

/-- A call, as an expression or as a statement. -/
theorem arguments {f : String} {arguments : List Expr}
    (hr : ∀ n ∈ (call f arguments span).nodes, n.Everywhere Q)
    (hn : ∀ x, .name x ∈ (call f arguments span).lexemes → N x) :
    Q span ∧ N f ∧ ∀ e ∈ arguments, e.Everywhere Q N := by
  simp only [nodes, List.forall_mem_cons, nodesAll_eq_flatMap, List.forall_mem_flatMap,
    Node.Everywhere] at hr
  refine ⟨hr.1.1, hn f (by simp [lexemes]), fun e he => ⟨hr.2 e he, fun x hx => hn x ?_⟩⟩
  have hmem := Lexeme.mem_listed (List.mem_map_of_mem he) hx
  simp [lexemes, hmem]

end Expr.Everywhere

theorem Expr.Everywhere.spans {arguments : List Expr} (h : ∀ e ∈ arguments, e.Everywhere Q N) :
    ∀ s ∈ arguments.map Expr.span, Q s :=
  List.forall_mem_map.2 fun e he => (h e he).span

namespace Statement.Everywhere

variable {span : Span} {value condition : Expr} {body : List Statement} {otherwise : Alternative}

theorem declare {target : Named} (h : (declare target value span).Everywhere Q N) :
    Q target.span ∧ value.Everywhere Q N := by
  obtain ⟨hr, hn⟩ := h
  simp only [nodes, List.forall_mem_cons, Node.Everywhere] at hr
  exact ⟨hr.1.2.1, hr.2, fun x hx => hn x (by simp [lexemes, hx])⟩

theorem assign {target : Named} {op : Option ArithmeticOp} {opSpan : Span}
    (h : (assign target op opSpan value span).Everywhere Q N) :
    Q target.span ∧ Q opSpan ∧ value.Everywhere Q N := by
  obtain ⟨hr, hn⟩ := h
  simp only [nodes, List.forall_mem_cons, Node.Everywhere] at hr
  exact ⟨hr.1.2.1, hr.1.2.2.1, hr.2, fun x hx => hn x (by simp [lexemes, hx])⟩

theorem yield (h : (yield value span).Everywhere Q N) : Q span ∧ value.Everywhere Q N := by
  obtain ⟨hr, hn⟩ := h
  simp only [nodes, List.forall_mem_cons, Node.Everywhere] at hr
  exact ⟨hr.1.1, hr.2, fun x hx => hn x (by simp [lexemes, hx])⟩

theorem all (hr : ∀ n ∈ nodesAll body, n.Everywhere Q)
    (hn : ∀ x, (∃ s ∈ body, .name x ∈ s.lexemes) → N x) : ∀ s ∈ body, s.Everywhere Q N := by
  rw [nodesAll_eq_flatMap, List.forall_mem_flatMap] at hr
  exact fun s hs => ⟨hr s hs, fun x hx => hn x ⟨s, hs, hx⟩⟩

theorem function {name : Named} {parameters : List Named}
    (h : (function name parameters body span).Everywhere Q N) :
    Q name.span ∧ (∀ p ∈ parameters, Q p.span ∧ N p.name) ∧ ∀ s ∈ body, s.Everywhere Q N := by
  obtain ⟨hr, hn⟩ := h
  simp only [nodes, List.forall_mem_cons, List.forall_mem_append, List.forall_mem_map,
    Node.Everywhere] at hr
  refine ⟨hr.1.2.1, fun p hp => ⟨hr.1.2.2.1 p hp, hn _ ?_⟩, all hr.2 fun x hx => hn x ?_⟩
  · have hmem : .name p.name ∈ Lexeme.listed (parameters.map Named.lexemes) :=
      Lexeme.mem_listed (List.mem_map_of_mem hp) List.mem_cons_self
    simp [lexemes, hmem]
  · simp [lexemes, Lexeme.braced, hx]

theorem call {f : String} {arguments : List Expr} (h : (call f arguments span).Everywhere Q N) :
    Q span ∧ N f ∧ ∀ e ∈ arguments, e.Everywhere Q N :=
  Expr.Everywhere.arguments h.ranges h.names

theorem branch (h : (branch condition body otherwise span).Everywhere Q N) :
    condition.Everywhere Q N ∧ (∀ s ∈ body, s.Everywhere Q N) ∧ otherwise.Everywhere Q N := by
  obtain ⟨hr, hn⟩ := h
  simp only [nodes, List.forall_mem_cons, List.forall_mem_append] at hr
  exact ⟨⟨hr.2.1, fun x hx => hn x (by simp [lexemes, hx])⟩,
    all hr.2.2.1 fun x hx => hn x (by simp [lexemes, Lexeme.braced, hx]),
    hr.2.2.2, fun x hx => hn x (by simp [lexemes, hx])⟩

theorem directive {name : Named} (h : (directive name span).Everywhere Q N) : Q name.span :=
  (h.ranges _ List.mem_cons_self).2 _ List.mem_cons_self

end Statement.Everywhere

/-- An alternative with a condition of its own says what a conditional says. -/
theorem Alternative.Everywhere.branch {condition : Expr} {body : List Statement}
    {otherwise : Alternative} {span : Span}
    (h : (branch condition body otherwise span).Everywhere Q N) :
    (Statement.branch condition body otherwise span).Everywhere Q N :=
  ⟨h.ranges, fun x hx => h.names x (List.mem_cons_of_mem _ hx)⟩

theorem Alternative.Everywhere.block {body : List Statement} (h : (block body).Everywhere Q N) :
    ∀ s ∈ body, s.Everywhere Q N :=
  Statement.Everywhere.all h.ranges fun x hx =>
    h.names x (by simp [lexemes, Lexeme.braced, hx])

end ScriptBlocks
