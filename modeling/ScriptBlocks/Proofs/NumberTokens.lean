import ScriptBlocks.Proofs.Numerals
import ScriptBlocks.Proofs.Places
import ScriptBlocks.Proofs.Writing

/-!
# Numbers in the source

The reader of tokens decides at a point by one character whether the number goes on. What it takes is a
numeral, and the longest one that stands there. Numerals are decimals and read as numbers, so a token
that is taken for a number is one for the parser too.
-/
namespace ScriptBlocks
namespace Token

theorem Numeral.isUnsignedDecimal {cs : List Char} (h : Numeral cs) : isUnsignedDecimal cs = true := by
  have hdigits {digits : List Char} (h : Digits digits) :
      ∀ c ∈ digits, Text.isDecimalDigit c = true := fun c hc =>
    (Text.isDecimalDigit_of_ascii (isDigit_ascii (h.2 c hc))).trans (h.2 c hc)
  rw [isUnsignedDecimal_iff]
  cases h with
  | whole h => exact ⟨cs, [], by simpa using hdigits h, by simpa using h.1, .inl ⟨rfl, rfl⟩⟩
  | @decimal whole fraction hw hf =>
    exact ⟨whole, fraction, List.forall_mem_append.2 ⟨hdigits hw, hdigits hf⟩, by simp [hw.1],
      .inr rfl⟩
  | @fraction digits h => exact ⟨[], digits, hdigits h, h.1, .inr rfl⟩

theorem Numeral.reads {text : String} (h : Numeral text.toList) :
    isDecimal text = true ∧ (readNumber? text).isSome = true := by
  have hdecimal := h.isUnsignedDecimal
  have hsign := splitSign_of_decimal hdecimal
  have hblank : ∀ c ∈ text.toList, Text.isBlank c = false := by
    intro c hc
    obtain hdigit | rfl := h.chars c hc
    · exact isDigit_not_blank hdigit
    · decide
  have hascii : ∀ c ∈ text.toList, c.toNat < 128 := by
    intro c hc
    obtain hdigit | rfl := h.chars c hc
    · exact isDigit_ascii hdigit
    · decide
  obtain ⟨⟨digits, exponent⟩, hread⟩ :=
    Option.isSome_iff_exists.1 (readUnsigned?_of_decimal hdecimal hascii)
  constructor
  · rwa [isDecimal, Text.trim_eq_self hblank, hsign]
  · simp [readNumber?, hsign, hread]

/-- The text of the token is a numeral, the longest one at its place, and reads as a number. -/
structure IsNumber (source : List Char) (t : Token) : Prop where
  numeral : Numeral t.text.toList
  here : t.text.toList <+: source.drop t.span.offset
  longest : ∀ cs, Numeral cs → cs <+: source.drop t.span.offset → cs.length ≤ t.text.toList.length
  decimal : isDecimal t.text = true
  reads : (readNumber? t.text).isSome = true

theorem isNumber_of_ofSource {source : String} {tokens : List Token}
    (h : ofSource source = .ok tokens) {t : Token} (ht : t ∈ tokens) (hkind : t.kind = .number) :
    t.IsNumber source.toList := by
  have htiled : Tiled [] source.toList tokens := scan_tiled rfl h
  obtain ⟨c, rest, r, hread, hr, htext, hdrop⟩ := htiled.exists_read t ht (by simp [hkind])
  rw [List.nil_append] at hdrop
  rw [hr] at hkind
  obtain ⟨hc, rfl⟩ | ⟨-, rfl⟩ | ⟨hne, -⟩ := read_cases hread
  · have htext : t.text.toList = c :: readNumberTail c rest := by rw [htext, String.toList_ofList]
    have hnumeral : Numeral t.text.toList := htext ▸ numeral_readNumberTail hc
    refine ⟨hnumeral, ?_, fun cs hcs hpre => ?_, hnumeral.reads.1, hnumeral.reads.2⟩
    · rw [hdrop, htext]
      exact List.cons_prefix_cons.2 ⟨rfl, readNumberTail_starts c rest⟩
    · rw [hdrop] at hpre
      rw [htext]
      exact length_le_readNumberTail hcs hpre
  · simp only [readName] at hkind
    split at hkind <;> cases hkind
  · exact absurd hkind hne

end Token

namespace Parser

/-- Only a number that does not read as one is refused for its form. -/
theorem of_step_invalidNumber {s : State} {t : Token} {text : String}
    (h : step s t = .error (.invalidNumber text)) :
    t.kind = .number ∧ readNumber? t.text = none := by
  have hstatement (body : Body) : statementStep body t ≠ .error (.invalidNumber text) := by
    simp only [statementStep, keywordStatement]
    repeat' split
    all_goals simp
  have hended (body : Body) : endedStep body t ≠ .error (.invalidNumber text) := by
    rw [endedStep]
    split <;> simp [hstatement]
  have hclose (body : Body) (context : Context) (value : Expr) :
      closeStep body context value t ≠ .error (.invalidNumber text) := by
    rw [closeStep]
    simp only [goalStep, openBlock]
    repeat' split
    all_goals simp [hended]
  have hoperated (body : Body) (binaries : List OpenBinary) (context : Context) (value : Expr) :
      operatedStep body binaries context value t ≠ .error (.invalidNumber text) := by
    rw [operatedStep]
    repeat' split
    all_goals simp [hclose]
  have hoperand (body : Body) (signs : Signs) (binaries : List OpenBinary) (context : Context)
      (newlines : Bool) (h : operandStep body signs binaries context newlines t =
        .error (.invalidNumber text)) : t.kind = .number ∧ readNumber? t.text = none := by
    rw [operandStep] at h
    split at h
    next hkind =>
      split at h
      next => cases h
      next hnone => exact ⟨hkind, hnone⟩
    all_goals repeat' split at h
    all_goals cases h
  simp only [step, openBlock, afterNameStep, firstArgumentStep] at h
  repeat' split at h
  all_goals first
    | cases h
    | exact hoperand _ _ _ _ _ h
    | simp only [hstatement, hended, hclose, hoperated] at h

end Parser

/-- Lexer and parser agree on numbers. What is taken for a number in a source is a numeral, as long as
possible, that counts as a decimal and reads as a number. So no source is refused because a number in
it is none. -/
theorem Program.numbers_agree (source : String) :
    (∀ tokens, Token.ofSource source = .ok tokens →
      ∀ t ∈ tokens, t.kind = .number → t.IsNumber source.toList) ∧
    ∀ e, Program.ofSource source = .error (.parse e) → ∀ text, e.cause ≠ .invalidNumber text := by
  refine ⟨fun tokens h t ht hkind => Token.isNumber_of_ofSource h ht hkind, fun e h text hcause => ?_⟩
  rw [Program.ofSource] at h
  split at h
  next => cases h
  next tokens hlex =>
    have htiled : Token.Tiled [] source.toList tokens := Token.scan_tiled rfl hlex
    split at h
    next hparse =>
      cases h
      obtain ⟨before, t, after, s, rfl, -, hstep, -⟩ :=
        Parser.run_error (htiled.endsOnce.run_of_error hparse)
      rw [hcause] at hstep
      obtain ⟨hkind, hnone⟩ := Parser.of_step_invalidNumber hstep
      have hreads := (Token.isNumber_of_ofSource hlex (t := t) (by simp) hkind).reads
      simp [hnone] at hreads
    next => cases h

/-- A second point starts a number of its own. -/
theorem Program.numbers_agree_points :
    let tokens : List Token := [⟨.identifier, "x", ⟨1, 1, 0, 1⟩⟩, ⟨.operator, "=", ⟨1, 2, 1, 1⟩⟩,
      ⟨.number, "1.25", ⟨1, 3, 2, 4⟩⟩, ⟨.number, ".5", ⟨1, 7, 6, 2⟩⟩, ⟨.endOfFile, "", ⟨1, 9, 8, 1⟩⟩]
    Token.ofSource "x=1.25.5" = .ok tokens ∧
      ∀ t ∈ tokens, t.kind = .number → t.IsNumber "x=1.25.5".toList :=
  have h : Token.ofSource "x=1.25.5" = .ok _ := by cbv
  ⟨h, (Program.numbers_agree "x=1.25.5").1 _ h⟩

end ScriptBlocks
