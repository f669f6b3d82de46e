import ScriptBlocks.Program.Parser
import ScriptBlocks.Proofs.Nodes

/-!
# Ranges of nodes

A state of the parser is a row of pieces of the source: the nodes that it has put together and the
tokens that are still open, in the order in which they are written. A token adds itself at the end of
the row, and closing a node replaces the last pieces by one, whose range goes from the first of them
to the last token. So the parts of every node lie inside its range, one after the other.
-/
namespace ScriptBlocks

variable {last first : Piece} {parts : List Span}

/-- Ranges that lie inside another, one after the other. -/
structure Span.Encloses (whole : Span) (parts : List Span) : Prop where
  within : ∀ s ∈ parts, whole.offset ≤ s.offset ∧ s.stop ≤ whole.stop
  increasing : parts.Pairwise fun s t => s.offset < t.offset ∧ s.stop ≤ t.offset

/-- All ranges of a node have a property, and its parts lie inside it, one after the other. -/
structure Node.Tidy (Q : Span → Prop) (n : Node) : Prop where
  everywhere : n.Everywhere Q
  encloses : n.span.Encloses n.parts

/-- A range of the source together with the nodes in it. -/
structure Piece where
  span : Span
  nodes : List Node

def Span.piece (s : Span) : Piece :=
  ⟨s, []⟩

def Expr.piece (e : Expr) : Piece :=
  ⟨e.span, e.nodes⟩

def Statement.piece (s : Statement) : Piece :=
  ⟨s.span, s.nodes⟩

def Alternative.pieces : Alternative → List Piece
  | .none => []
  | .block body => body.map Statement.piece
  | .branch condition body otherwise span =>
    [⟨span, Alternative.nodes (.branch condition body otherwise span)⟩]

theorem Expr.map_span_pieces (es : List Expr) :
    (es.map Expr.piece).map Piece.span = es.map Expr.span := by
  rw [List.map_map]
  rfl

theorem Expr.flatMap_nodes_pieces (es : List Expr) :
    (es.map Expr.piece).flatMap Piece.nodes = es.flatMap Expr.nodes := by
  rw [List.flatMap_map]
  rfl

theorem Statement.map_span_pieces (body : List Statement) :
    (body.map Statement.piece).map Piece.span = body.map Statement.span := by
  rw [List.map_map]
  rfl

theorem Statement.flatMap_nodes_pieces (body : List Statement) :
    (body.map Statement.piece).flatMap Piece.nodes = body.flatMap Statement.nodes := by
  rw [List.flatMap_map]
  rfl

def Named.piece (name : Named) : Piece :=
  name.span.piece

theorem Named.map_span_pieces (names : List Named) :
    (names.map Named.piece).map Piece.span = names.map Named.span := by
  rw [List.map_map]
  rfl

theorem Named.flatMap_nodes_pieces (names : List Named) :
    (names.map Named.piece).flatMap Piece.nodes = [] := by
  simp [List.flatMap_map, piece, Span.piece]

theorem Alternative.map_span_pieces (a : Alternative) : a.pieces.map Piece.span = a.spans := by
  cases a with
  | none => rfl
  | block body => exact Statement.map_span_pieces body
  | branch => rfl

theorem Alternative.flatMap_nodes_pieces (a : Alternative) :
    a.pieces.flatMap Piece.nodes = a.nodes := by
  cases a with
  | none => rfl
  | block body => rw [pieces, nodes, Statement.flatMap_nodes_pieces, Statement.nodesAll_eq_flatMap]
  | branch => simp [pieces]

/-- Ranges may be joined without losing the property. -/
def Span.Closed (Q : Span → Prop) : Prop :=
  ∀ {s t}, Q s → Q t → Q (s.through t)

/-- The token comes after this offset. -/
structure Token.Follows (Q : Span → Prop) (b : Nat) (t : Token) : Prop where
  offset : b ≤ t.span.offset
  length : 0 < t.span.length
  property : Q t.span

/-- Pieces of the source between two offsets, one after the other. -/
structure Row (Q : Span → Prop) (a b : Nat) (pieces : List Piece) : Prop where
  bounds : a ≤ b
  tidy : ∀ p ∈ pieces, Q p.span ∧ 0 < p.span.length ∧ ∀ n ∈ p.nodes, n.Tidy Q
  within : ∀ p ∈ pieces, a ≤ p.span.offset ∧ p.span.stop ≤ b
  increasing : pieces.Pairwise fun p q => p.span.stop ≤ q.span.offset

namespace Row

variable {Q : Span → Prop} {a b : Nat} {pieces pre row : List Piece} {t : Token}

theorem nil (h : a ≤ b) : Row Q a b [] :=
  ⟨h, by simp, by simp, .nil⟩

theorem mono {b' : Nat} (h : Row Q a b pieces) (hb : b ≤ b') : Row Q a b' pieces where
  bounds := Nat.le_trans h.bounds hb
  tidy := h.tidy
  within p hp := ⟨(h.within p hp).1, Nat.le_trans (h.within p hp).2 hb⟩
  increasing := h.increasing

theorem sublist {pieces' : List Piece} (h : Row Q a b pieces) (hs : pieces'.Sublist pieces) :
    Row Q a b pieces' where
  bounds := h.bounds
  tidy p hp := h.tidy p (hs.subset hp)
  within p hp := h.within p (hs.subset hp)
  increasing := h.increasing.sublist hs

/-- A token that is passed over. -/
theorem skip (h : Row Q a b pieces) (ht : t.Follows Q b) : Row Q a t.span.stop pieces :=
  h.mono (Nat.le_trans ht.offset (Nat.le_add_right _ _))

/-- A token that stays open. -/
theorem push (h : Row Q a b pieces) (ht : t.Follows Q b) :
    Row Q a t.span.stop (pieces ++ [t.span.piece]) := by
  refine ⟨(h.skip ht).bounds, ?_, ?_, ?_⟩
  · rw [List.forall_mem_append]
    exact ⟨h.tidy, by simp [Span.piece, ht.property, ht.length]⟩
  · rw [List.forall_mem_append]
    exact ⟨(h.skip ht).within, by simp [Span.piece, Nat.le_trans h.bounds ht.offset]⟩
  · rw [List.pairwise_append]
    refine ⟨h.increasing, List.pairwise_singleton _ _, fun p hp q hq => ?_⟩
    rw [List.mem_singleton.1 hq]
    exact Nat.le_trans (h.within p hp).2 ht.offset

/-- The row ends where its last piece ends. -/
theorem shrink (h : Row Q a b (pre ++ [last])) : Row Q a last.span.stop (pre ++ [last]) := by
  have hlast := (h.within last (by simp)).1
  obtain ⟨-, -, hpairs⟩ := List.pairwise_append.1 h.increasing
  refine ⟨Nat.le_trans hlast (Nat.le_add_right _ _), h.tidy, fun p hp => ⟨(h.within p hp).1, ?_⟩,
    h.increasing⟩
  rcases List.mem_append.1 hp with hp | hp
  · exact Nat.le_trans (hpairs p hp last (by simp)) (Nat.le_add_right _ _)
  · obtain rfl := List.mem_singleton.1 hp
    exact Nat.le_refl _

/-- The row starts where its first piece starts. -/
theorem advance (h : Row Q a b (first :: row)) : Row Q first.span.offset b (first :: row) := by
  have hstart : first.span.offset ≤ first.span.stop := Nat.le_add_right _ _
  refine ⟨Nat.le_trans hstart (h.within first (by simp)).2, h.tidy,
    fun p hp => ⟨?_, (h.within p hp).2⟩, h.increasing⟩
  rcases List.mem_cons.1 hp with rfl | hp
  · exact Nat.le_refl _
  · exact Nat.le_trans hstart ((List.pairwise_cons.1 h.increasing).1 p hp)

/-- The ranges of pieces lie one after the other. -/
theorem increasing_spans (h : Row Q a b pieces) :
    (pieces.map Piece.span).Pairwise fun s t => s.offset < t.offset ∧ s.stop ≤ t.offset := by
  rw [List.pairwise_map]
  refine h.increasing.imp_of_mem fun {p q} hp _ hpq => ⟨?_, hpq⟩
  have hlength := (h.tidy p hp).2.1
  simp only [Span.stop] at hpq
  omega

/-- A node around a row, with some of its pieces as parts. -/
theorem tidy_node {whole : Span} (h : Row Q whole.offset whole.stop row) (hwhole : Q whole)
    (hparts : parts.Sublist (row.map Piece.span)) : Node.Tidy Q ⟨whole, parts⟩ := by
  have hsub {s : Span} (hs : s ∈ parts) : ∃ p ∈ row, p.span = s :=
    List.mem_map.1 (hparts.subset hs)
  refine ⟨⟨hwhole, fun s hs => ?_⟩, fun s hs => ?_, h.increasing_spans.sublist hparts⟩
  · obtain ⟨p, hp, rfl⟩ := hsub hs
    exact (h.tidy p hp).1
  · obtain ⟨p, hp, rfl⟩ := hsub hs
    exact h.within p hp

/-- The last pieces become one node, which ends where the row ends. -/
theorem close {stop : Span} (hQ : Span.Closed Q) (h : Row Q a stop.stop (pre ++ first :: row))
    (hstop : Q stop) (hparts : parts.Sublist ((first :: row).map Piece.span)) :
    Row Q a stop.stop (pre ++ [⟨first.span.through stop,
      ⟨first.span.through stop, parts⟩ :: (first :: row).flatMap Piece.nodes⟩]) := by
  have hrow : Row Q a stop.stop (first :: row) := h.sublist (List.sublist_append_right _ _)
  obtain ⟨hpre, -, hpairs⟩ := List.pairwise_append.1 h.increasing
  obtain ⟨hfirst, hfirstPos, -⟩ := hrow.tidy first (by simp)
  obtain ⟨hoffset, hle⟩ := hrow.within first (by simp)
  have hwhole : (first.span.through stop).stop = stop.stop := by
    rw [Span.stop_through]
    omega
  have hnode : Node.Tidy Q ⟨first.span.through stop, parts⟩ := by
    refine tidy_node ?_ (hQ hfirst hstop) hparts
    rw [hwhole]
    exact hrow.advance
  refine ⟨h.bounds, ?_, ?_, ?_⟩
  · rw [List.forall_mem_append, List.forall_mem_singleton]
    refine ⟨fun p hp => h.tidy p (List.mem_append_left _ hp), hQ hfirst hstop, ?_, ?_⟩
    · show 0 < (first.span.through stop).length
      simp only [Span.stop, Span.offset_through] at hwhole hle
      omega
    · rw [List.forall_mem_cons, List.forall_mem_flatMap]
      exact ⟨hnode, fun p hp => (hrow.tidy p hp).2.2⟩
  · rw [List.forall_mem_append, List.forall_mem_singleton]
    refine ⟨fun p hp => h.within p (List.mem_append_left _ hp), ?_, Nat.le_of_eq hwhole⟩
    exact hoffset
  · rw [List.pairwise_append]
    refine ⟨hpre, List.pairwise_singleton _ _, fun p hp q hq => ?_⟩
    rw [List.mem_singleton.1 hq]
    exact hpairs p hp first (by simp)

/-- The last pieces become one node, which ends with the last of them. -/
theorem join (hQ : Span.Closed Q) (row : List Piece)
    (h : Row Q a b (pre ++ first :: (row ++ [last])))
    (hparts : parts.Sublist ((first :: (row ++ [last])).map Piece.span)) :
    Row Q a b (pre ++ [⟨first.span.through last.span,
      ⟨first.span.through last.span, parts⟩ ::
        (first :: (row ++ [last])).flatMap Piece.nodes⟩]) := by
  have hassoc : pre ++ first :: (row ++ [last]) = pre ++ first :: row ++ [last] := by simp
  have hlast : Q last.span ∧ last.span.stop ≤ b :=
    ⟨(h.tidy last (by simp)).1, (h.within last (by simp)).2⟩
  rw [hassoc] at h
  have hshrunk := h.shrink
  rw [← hassoc] at hshrunk
  exact (hshrunk.close hQ hlast.1 hparts).mono hlast.2

/-- A token that is a node by itself. -/
theorem leaf {s : Span} (h : Row Q a b (pre ++ [s.piece])) :
    Row Q a b (pre ++ [⟨s, [⟨s, []⟩]⟩]) := by
  have hs := (h.tidy s.piece (by simp)).1
  have hnode : Node.Tidy Q ⟨s, []⟩ := ⟨⟨hs, by simp⟩, by simp, .nil⟩
  refine ⟨h.bounds, ?_, ?_, ?_⟩
  · have htidy := h.tidy
    rw [List.forall_mem_append, List.forall_mem_singleton] at htidy ⊢
    exact ⟨htidy.1, htidy.2.1, htidy.2.2.1, by simpa using hnode⟩
  · have hwithin := h.within
    rw [List.forall_mem_append, List.forall_mem_singleton] at hwithin ⊢
    exact hwithin
  · have hincreasing := h.increasing
    rw [List.pairwise_append] at hincreasing ⊢
    simpa [Span.piece] using hincreasing

/-! ### Closing nodes -/

section

variable {opSpan start stop : Span} {e left right value condition : Expr} {arguments : List Expr}
variable {f target : Named} {parameters : List Named} {body : List Statement}
variable {otherwise : Alternative}

theorem literal (value : Literal) (h : Row Q a b (pre ++ [stop.piece])) :
    Row Q a b (pre ++ [(Expr.literal value stop).piece]) :=
  h.leaf

theorem name (h : Row Q a b (pre ++ [f.piece])) :
    Row Q a b (pre ++ [(Expr.name f.name f.span).piece]) :=
  h.leaf

theorem comment (text : String) (h : Row Q a b (pre ++ [stop.piece])) :
    Row Q a b (pre ++ [(Statement.comment text stop).piece]) :=
  h.leaf

theorem unary (hQ : Span.Closed Q) (op : UnaryOp) (h : Row Q a b (pre ++ [opSpan.piece, e.piece])) :
    Row Q a b (pre ++ [(Expr.unary op opSpan e (opSpan.through e.span)).piece]) := by
  have hjoin := join hQ [] h (.refl _)
  simpa [Expr.piece, Expr.nodes, Expr.span, Span.piece] using hjoin

theorem binary (hQ : Span.Closed Q) (op : BinaryOp)
    (h : Row Q a b (pre ++ [left.piece, opSpan.piece, right.piece])) :
    Row Q a b (pre ++
      [(Expr.binary op opSpan left right (left.span.through right.span)).piece]) := by
  have hjoin := join hQ [opSpan.piece] h (.refl _)
  simpa [Expr.piece, Expr.nodes, Expr.span, Span.piece] using hjoin

theorem paren (hQ : Span.Closed Q) (h : Row Q a stop.stop (pre ++ [start.piece, e.piece]))
    (hstop : Q stop) :
    Row Q a stop.stop (pre ++ [(Expr.paren e (start.through stop)).piece]) := by
  have hclose := h.close hQ hstop (List.sublist_cons_self _ _)
  simpa [Expr.piece, Expr.nodes, Expr.span, Span.piece] using hclose

theorem call (hQ : Span.Closed Q)
    (h : Row Q a stop.stop (pre ++ f.piece :: arguments.map Expr.piece)) (hstop : Q stop) :
    Row Q a stop.stop (pre ++ [(Expr.call f.name arguments (f.span.through stop)).piece]) := by
  have hclose := h.close hQ hstop (List.sublist_cons_self _ _)
  rw [List.flatMap_cons, Expr.map_span_pieces, Expr.flatMap_nodes_pieces] at hclose
  rwa [Expr.piece, Expr.nodes, Expr.nodesAll_eq_flatMap]

theorem declare (hQ : Span.Closed Q)
    (h : Row Q a b (pre ++ [start.piece, target.piece, value.piece])) :
    Row Q a b (pre ++ [(Statement.declare target value (start.through value.span)).piece]) := by
  have hjoin := join hQ [target.piece] h (List.sublist_cons_self _ _)
  simpa [Statement.piece, Statement.nodes, Statement.span, Span.piece, Named.piece, Expr.piece] using hjoin

theorem assign (hQ : Span.Closed Q) (op : Option ArithmeticOp)
    (h : Row Q a b (pre ++ [target.piece, opSpan.piece, value.piece])) :
    Row Q a b (pre ++
      [(Statement.assign target op opSpan value (target.span.through value.span)).piece]) := by
  have hjoin := join hQ [opSpan.piece] h (.refl _)
  simpa [Statement.piece, Statement.nodes, Statement.span, Span.piece, Named.piece, Expr.piece] using hjoin

theorem yield (hQ : Span.Closed Q) (h : Row Q a b (pre ++ [start.piece, value.piece])) :
    Row Q a b (pre ++ [(Statement.yield value (start.through value.span)).piece]) := by
  have hjoin := join hQ [] h (List.sublist_cons_self _ _)
  simpa [Statement.piece, Statement.nodes, Statement.span, Span.piece, Named.piece, Expr.piece] using hjoin

theorem directive (hQ : Span.Closed Q) (h : Row Q a b (pre ++ [start.piece, f.piece])) :
    Row Q a b (pre ++ [(Statement.directive f (start.through f.span)).piece]) := by
  have hjoin := join hQ [] h (List.sublist_cons_self _ _)
  simpa [Statement.piece, Statement.nodes, Statement.span, Span.piece, Named.piece] using hjoin

theorem function (hQ : Span.Closed Q)
    (h : Row Q a stop.stop (pre ++ start.piece :: f.piece ::
      (parameters.map Named.piece ++ body.map Statement.piece))) (hstop : Q stop) :
    Row Q a stop.stop (pre ++
      [(Statement.function f parameters body (start.through stop)).piece]) := by
  have hclose := h.close hQ hstop (List.sublist_cons_self _ _)
  rw [List.flatMap_cons, List.flatMap_cons, List.flatMap_append, Statement.flatMap_nodes_pieces,
    Named.flatMap_nodes_pieces, List.map_cons, List.map_append, Statement.map_span_pieces,
    Named.map_span_pieces] at hclose
  rwa [Statement.piece, Statement.nodes, Statement.nodesAll_eq_flatMap]

theorem branch (hQ : Span.Closed Q)
    (h : Row Q a stop.stop (pre ++ start.piece :: condition.piece ::
      (body.map Statement.piece ++ otherwise.pieces))) (hstop : Q stop) :
    Row Q a stop.stop (pre ++
      [(Statement.branch condition body otherwise (start.through stop)).piece]) := by
  have hclose := h.close hQ hstop (List.sublist_cons_self _ _)
  rw [List.flatMap_cons, List.flatMap_cons, List.flatMap_append, Statement.flatMap_nodes_pieces,
    Alternative.flatMap_nodes_pieces, List.map_cons, List.map_append, Statement.map_span_pieces,
    Alternative.map_span_pieces] at hclose
  rwa [Statement.piece, Statement.nodes, Statement.nodesAll_eq_flatMap]

end

end Row
end ScriptBlocks
