import ScriptBlocks.Proofs.Readers

/-!
# The parser invents and loses nothing

What the tokens before the end of the file say is what the program that is read from them says.
-/
namespace ScriptBlocks

/-- Before the end of the file only separators say nothing. -/
theorem lexemes_eq_filter {tokens : List Token} (h : NoEnd tokens) :
    lexemes tokens = (tokens.filter fun t => !t.isSeparator).map Token.lexeme := by
  rw [lexemes, List.filter_congr fun t ht => ?_]
  simp [h t ht]

/-- The parser invents and loses nothing. A program that it returns has a bracket around every operand
that needs one, and says in the order of the source what the tokens before the end of the file say. -/
theorem Program.lexemes_of_ofTokens {tokens : List Token} {p : Program}
    (h : Program.ofTokens tokens = .ok p) :
    p.Printable ∧
      p.lexemes = ((tokens.takeWhile fun t => t.kind ≠ .endOfFile).filter fun t =>
        !t.isSeparator).map Token.lexeme := by
  obtain ⟨hprintable, hspells⟩ := Program.spells_of_ofTokens h
  exact ⟨hprintable, by rw [← hspells.said_eq, lexemes_eq_filter (noEnd_takeWhile tokens)]⟩

/-- The tokens of `x = a - b * -c` and of a comment, with separators around them and a brace after the
end of the file. -/
theorem Program.lexemes_of_ofTokens_precedence :
    ∃ p, Program.ofTokens [⟨.newline, "\n", .empty⟩, ⟨.identifier, "x", .empty⟩,
        ⟨.operator, "=", .empty⟩, ⟨.identifier, "a", .empty⟩, ⟨.operator, "-", .empty⟩,
        ⟨.identifier, "b", .empty⟩, ⟨.operator, "*", .empty⟩, ⟨.operator, "-", .empty⟩,
        ⟨.identifier, "c", .empty⟩, ⟨.semicolon, ";", .empty⟩, ⟨.comment, "done", .empty⟩,
        ⟨.endOfFile, "", .empty⟩, ⟨.rightBrace, "", .empty⟩] = .ok p ∧
      p.Printable ∧ p.lexemes = [.name "x", .operator "=", .name "a", .operator "-", .name "b",
        .operator "*", .operator "-", .name "c", .word .comment "done"] := by
  have hread {tokens : List Token} {said : List Lexeme} (hok : ∃ p, Program.ofTokens tokens = .ok p)
      (hsaid : ((tokens.takeWhile fun t => t.kind ≠ .endOfFile).filter fun t =>
        !t.isSeparator).map Token.lexeme = said) :
      ∃ p, Program.ofTokens tokens = .ok p ∧ p.Printable ∧ p.lexemes = said := by
    obtain ⟨p, hp⟩ := hok
    obtain ⟨hprintable, hlexemes⟩ := Program.lexemes_of_ofTokens hp
    exact ⟨p, hp, hprintable, hlexemes.trans hsaid⟩
  exact hread ⟨_, rfl⟩ (by decide)

end ScriptBlocks
