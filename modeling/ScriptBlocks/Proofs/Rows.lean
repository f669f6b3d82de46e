import ScriptBlocks.Proofs.Lexemes
import ScriptBlocks.Proofs.Ranges

/-!
# Rows of tokens

What is read from tokens one after the other says what they say, and its pieces lie where they lie. So
the ranges of a program that is read are those of its tokens, put together.
-/
namespace ScriptBlocks

/-- Tokens that follow each other from an offset on. -/
def Sequel (Q : Span → Prop) : Nat → List Token → Prop
  | _, [] => True
  | b, t :: tokens => t.Follows Q b ∧ Sequel Q t.span.stop tokens

/-- The offset after the last token. -/
def endOf : Nat → List Token → Nat
  | b, [] => b
  | _, t :: tokens => endOf t.span.stop tokens

theorem sequel_append {Q : Span → Prop} {b : Nat} {tokens tokens' : List Token} :
    Sequel Q b (tokens ++ tokens') ↔ Sequel Q b tokens ∧ Sequel Q (endOf b tokens) tokens' := by
  induction tokens generalizing b with
  | nil => simp [Sequel, endOf]
  | cons t tokens ih => simp [Sequel, endOf, ih, and_assoc]

theorem endOf_append (b : Nat) (tokens tokens' : List Token) :
    endOf b (tokens ++ tokens') = endOf (endOf b tokens) tokens' := by
  induction tokens generalizing b with
  | nil => rfl
  | cons t tokens ih => exact ih t.span.stop

/-- The tokens say this, and these pieces lie where the tokens do. -/
structure Spells (tokens : List Token) (said : List Lexeme) (pieces : List Piece) : Prop where
  said_eq : lexemes tokens = said
  row : ∀ {Q : Span → Prop} {a b : Nat} {pre : List Piece}, Span.Closed Q → Row Q a b pre →
    Sequel Q b tokens → Row Q a (endOf b tokens) (pre ++ pieces)

namespace Spells

variable {t : Token} {tokens tokens' : List Token} {said said' : List Lexeme}
variable {pieces pieces' : List Piece}

theorem nil : Spells [] [] [] :=
  ⟨rfl, fun _ h _ => by simpa [endOf] using h⟩

theorem token {l : Lexeme} (hl : t.lexeme = l) (h : t.isSeparator = false)
    (hend : t.kind ≠ .endOfFile) : Spells [t] [l] [t.span.piece] :=
  ⟨by simp [lexemes, h, hend, hl], fun _ h ht => h.push ht.1⟩

theorem append (h : Spells tokens said pieces) (h' : Spells tokens' said' pieces') :
    Spells (tokens ++ tokens') (said ++ said') (pieces ++ pieces') := by
  refine ⟨by rw [lexemes_append, h.said_eq, h'.said_eq], fun hQ hrow htokens => ?_⟩
  obtain ⟨hfirst, hlast⟩ := sequel_append.1 htokens
  rw [endOf_append, ← List.append_assoc]
  exact h'.row hQ (h.row hQ hrow hfirst) hlast

theorem skipped (h : Separators tokens) : Spells tokens [] [] := by
  induction tokens with
  | nil => exact nil
  | cons t tokens ih =>
    have ht : Spells [t] [] [] :=
      ⟨lexemes_separator (h t (by simp)), fun _ hrow ht => by simpa [endOf] using hrow.skip ht.1⟩
    exact ht.append (ih fun t' ht' => h t' (by simp [ht']))

/-- Pieces are put together. -/
theorem join (h : Spells tokens said pieces)
    (hrow : ∀ {Q : Span → Prop} {a b : Nat} {pre : List Piece}, Span.Closed Q →
      Row Q a b (pre ++ pieces) → Row Q a b (pre ++ pieces')) : Spells tokens said pieces' :=
  ⟨h.said_eq, fun hQ hpre htokens => hrow hQ (h.row hQ hpre htokens)⟩

/-- Of some tokens only what they say is kept. -/
theorem drop (h : Spells tokens said pieces) : Spells tokens said [] :=
  h.join fun _ hrow => hrow.sublist (by simp)

/-- Pieces are put together at the token that ends them. -/
theorem close (h : Spells (tokens ++ [t]) said pieces)
    (hrow : ∀ {Q : Span → Prop} {a : Nat} {pre : List Piece}, Span.Closed Q → Q t.span →
      Row Q a t.span.stop (pre ++ pieces) → Row Q a t.span.stop (pre ++ pieces')) :
    Spells (tokens ++ [t]) said pieces' := by
  refine ⟨h.said_eq, fun hQ hpre htokens => ?_⟩
  have hlast := (sequel_append.1 htokens).2.1.property
  have := h.row hQ hpre htokens
  rw [endOf_append] at this ⊢
  exact hrow hQ hlast this

/-! ## Single tokens -/

theorem mark {kind : TokenKind} (h : t.kind = kind)
    (hkind : kind ∈ [.leftParen, .rightParen, .leftBrace, .rightBrace, .comma, .at] := by decide) :
    Spells [t] [.mark kind] [t.span.piece] := by
  refine token ?_ ?_ ?_ <;> cases kind <;> simp_all [Token.lexeme, Token.isSeparator]

theorem operator (h : t.kind = .operator) : Spells [t] [.operator t.text] [t.span.piece] :=
  token (by simp [Token.lexeme, Lexeme.operator, h]) (by simp [Token.isSeparator, h]) (by simp [h])

theorem name (h : t.kind = .identifier) : Spells [t] [.name t.text] [t.span.piece] :=
  token (by simp [Token.lexeme, Lexeme.name, h]) (by simp [Token.isSeparator, h]) (by simp [h])

theorem keyword {word : String} (h : t.isKeyword word = true) :
    Spells [t] [.keyword word] [t.span.piece] := by
  obtain ⟨hkind, rfl⟩ : t.kind = .keyword ∧ t.text = word := by simpa [Token.isKeyword] using h
  exact token (by simp [Token.lexeme, Lexeme.keyword, hkind]) (by simp [Token.isSeparator, hkind])
    (by simp [hkind])

end Spells
end ScriptBlocks
