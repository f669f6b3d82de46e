import ScriptBlocks.Proofs.Tiling

/-!
# Lexing undoes writing tokens out

Tokens are written one after the other with blanks between them. The reader of each kind of token stops
where its text ends: what follows is a blank or nothing, and no reader goes on at a blank.
-/
namespace ScriptBlocks.Token

variable {p : Char → Bool} {kind : TokenKind} {text : List Char}

/-! ## Written tokens -/

/-- A character between the quotes of a string. -/
def escape (c : Char) : List Char :=
  if c = '\\' ∨ c = '"' then ['\\', c] else if c = '\n' then ['\\', 'n'] else [c]

def Digits (cs : List Char) : Prop :=
  cs ≠ [] ∧ ∀ c ∈ cs, c.isDigit = true

/-- Digits, digits around a point, or digits after a point. -/
inductive Numeral : List Char → Prop
  | whole {digits : List Char} (h : Digits digits) : Numeral digits
  | decimal {whole fraction : List Char} (hwhole : Digits whole) (hfraction : Digits fraction) :
      Numeral (whole ++ '.' :: fraction)
  | fraction {digits : List Char} (h : Digits digits) : Numeral ('.' :: digits)

/-- The characters that are tokens by themselves. -/
def marks : List (Char × TokenKind) :=
  [('(', .leftParen), (')', .rightParen), ('\x7b', .leftBrace), ('\x7d', .rightBrace), (',', .comma),
   ('@', .at), (';', .semicolon), ('\n', .newline)]

/-- A token of this kind and with this value is written in this way. -/
inductive Written : TokenKind → List Char → List Char → Prop
  | keyword {word : String} (h : word ∈ keywords) : Written .keyword word.toList word.toList
  | identifier {c : Char} {cs : List Char} (hc : startsName c = true)
      (hcs : ∀ d ∈ cs, continuesName d = true) (h : String.ofList (c :: cs) ∉ keywords) :
      Written .identifier (c :: cs) (c :: cs)
  | number {cs : List Char} (h : Numeral cs) : Written .number cs cs
  | string (value : List Char) : Written .string value ('"' :: (value.flatMap escape ++ ['"']))
  | color {digits : List Char} (hlength : digits.length = 6)
      (h : ∀ d ∈ digits, d.isDigit = true ∨ ('a' ≤ d ∧ d ≤ 'f')) :
      Written .color ('#' :: digits) ('#' :: digits)
  | operator {c : Char} (h : c ∈ ['+', '-', '*', '/', '%', '=', '!', '<', '>']) :
      Written .operator [c] [c]
  | assigning {c : Char} (h : c ∈ ['+', '-', '*', '/', '%', '=', '!', '<', '>']) :
      Written .operator [c, '='] [c, '=']
  | doubled {c : Char} (h : c ∈ ['&', '|']) : Written .operator [c, c] [c, c]
  | mark {c : Char} {kind : TokenKind} (h : (c, kind) ∈ marks) : Written kind [c] [c]
  | comment {text : List Char} (htrim : Text.trim text = text) (hfree : ¬ ['*', '/'] <:+: text) :
      Written .comment text ('/' :: '*' :: ' ' :: (text ++ [' ', '*', '/']))

/-- Tokens written one after the other, with blanks between neighbours. -/
inductive Spaced : List (TokenKind × List Char) → List Char → Prop
  | nil : Spaced [] []
  | last {kind : TokenKind} {value text : List Char} (h : Written kind value text) :
      Spaced [(kind, value)] text
  | next {kind : TokenKind} {value text blanks rest : List Char} {item : TokenKind × List Char}
      {items : List (TokenKind × List Char)} (h : Written kind value text) (hblanks : blanks ≠ [])
      (hall : ∀ c ∈ blanks, c = ' ' ∨ c = '\t' ∨ c = '\r' ∨ c = Char.ofNat 0xFEFF)
      (hrest : Spaced (item :: items) rest) :
      Spaced ((kind, value) :: item :: items) (text ++ (blanks ++ rest))

/-! ## Where readers stop -/

/-- The characters are none, or the first one is a blank. -/
def Cut (rest : List Char) : Prop :=
  ∀ c ∈ rest.head?, isSkipped c = true

section

variable {c d : Char} {rest tail value cs : List Char}

theorem isSkipped_iff :
    isSkipped c = true ↔ c = ' ' ∨ c = '\t' ∨ c = '\r' ∨ c = Char.ofNat 0xFEFF := by
  simp [isSkipped, or_assoc]

/-- A class without the blanks. -/
def Solid (p : Char → Bool) : Prop :=
  ∀ c, isSkipped c = true → p c = false

theorem solid_of_blanks (h : p ' ' = false ∧ p '\t' = false ∧ p '\r' = false ∧
    p (Char.ofNat 0xFEFF) = false) : Solid p := by
  intro c hc
  rcases isSkipped_iff.1 hc with rfl | rfl | rfl | rfl
  · exact h.1
  · exact h.2.1
  · exact h.2.2.1
  · exact h.2.2.2

theorem solid_continuesName : Solid continuesName :=
  solid_of_blanks (by decide +kernel)

theorem solid_startsName : Solid startsName :=
  solid_of_blanks (by decide +kernel)

theorem solid_isDigit : Solid Char.isDigit :=
  solid_of_blanks (by decide)

theorem solid_isHexDigit : Solid isHexDigit :=
  solid_of_blanks (by decide)

theorem Solid.not_skipped (h : Solid p) (hc : p c = true) : isSkipped c = false := by
  cases hskip : isSkipped c with
  | false => rfl
  | true => simp [h c hskip] at hc

theorem takeWhile_cut (hp : Solid p) (htail : ∀ c ∈ tail, p c = true) (hcut : Cut rest) :
    (tail ++ rest).takeWhile p = tail := by
  rw [List.takeWhile_append_of_pos htail]
  cases rest with
  | nil => simp
  | cons c rest => simp [hp c (hcut c rfl)]

/-- What follows does not start with a character that is no blank. -/
theorem Cut.ne (h : Cut rest) (hc : isSkipped c = false) (tail : List Char) : rest ≠ c :: tail := by
  rintro rfl
  simp [h c rfl] at hc

/-! ## Reading a written token -/

/-- A class that leaves a character out does not hold of it. -/
theorem ne_of_class (hc : p c = true) (hd : p d = false) : c ≠ d := by
  rintro rfl
  simp [hc] at hd

theorem startsName_eq_false_of_isDigit (h : c.isDigit = true) : startsName c = false := by
  have hbounds : 48 ≤ c.toNat ∧ c.toNat ≤ 57 := by
    simpa [Char.isDigit, UInt32.le_iff_toNat_le] using h
  have hascii : c.toNat < 128 := by omega
  have halpha : c.isAlpha = false := by
    simp [Char.isAlpha, Char.isUpper, Char.isLower, UInt32.le_iff_toNat_le]
    omega
  have hline : c ≠ '_' := by
    rintro rfl
    simp at hbounds
  simp [startsName, Text.isAlphabetic_of_ascii hascii, halpha, hline]

theorem read_name (hc : startsName c = true) (htail : ∀ d ∈ tail, continuesName d = true)
    (hcut : Cut rest) :
    read c (tail ++ rest) = .ok ⟨if keywords.contains (String.ofList (c :: tail)) then .keyword
      else .identifier, c :: tail, tail.length⟩ := by
  have hdigit : c.isDigit = false := by
    cases h : c.isDigit with
    | false => rfl
    | true => simp [startsName_eq_false_of_isDigit h] at hc
  have hslash : c ≠ '/' := ne_of_class hc (by decide)
  have hquote : c ≠ '"' := ne_of_class hc (by decide)
  have hhash : c ≠ '#' := ne_of_class hc (by decide)
  have hpoint : c ≠ '.' := ne_of_class hc (by decide)
  simp [read, hslash, hquote, hhash, hdigit, hpoint, hc, readName,
    takeWhile_cut solid_continuesName htail hcut]

theorem digits_takeWhile (hc : c.isDigit = true) (rest : List Char) :
    Digits (c :: rest.takeWhile Char.isDigit) :=
  ⟨by simp, List.forall_mem_cons.2 ⟨hc, fun _ hd => List.mem_takeWhile_imp hd⟩⟩

theorem numeral_readNumberTail (hc : c.isDigit = true ∨ c = '.' ∧ ∃ d ∈ rest.head?, d.isDigit = true) :
    Numeral (c :: readNumberTail c rest) := by
  rw [readNumberTail]
  rcases hc with hc | ⟨rfl, d, hd, hdigit⟩
  · rw [if_neg (ne_of_class hc (by decide))]
    split
    next d more hpoint =>
      split
      next hd =>
        have hfraction := digits_takeWhile hd more
        rw [← List.takeWhile_cons_of_pos hd] at hfraction
        exact .decimal (digits_takeWhile hc rest) hfraction
      next => exact .whole (digits_takeWhile hc rest)
    next => exact .whole (digits_takeWhile hc rest)
  · obtain ⟨rest, rfl⟩ := List.head?_eq_some_iff.1 hd
    simpa [hdigit] using Numeral.fraction (digits_takeWhile hdigit rest)

/-- Digits at the start of some characters are among the first digits there. -/
theorem digits_initial {digits : List Char} (h : Digits digits) (hpre : digits <+: cs) :
    digits <+: cs.takeWhile Char.isDigit := by
  obtain ⟨rest, rfl⟩ := hpre
  rw [List.takeWhile_append_of_pos h.2]
  exact List.prefix_append _ _

theorem length_le_readNumberTail (h : Numeral cs) (hpre : cs <+: c :: rest) :
    cs.length ≤ (c :: readNumberTail c rest).length := by
  have hwhole : (rest.takeWhile Char.isDigit).length ≤ (readNumberTail c rest).length := by
    rw [readNumberTail]
    repeat' split
    all_goals simp
  have hpoint : Char.isDigit '.' = false := by decide
  have hlength {digits : List Char} (h : Digits digits) (hpre : digits <+: c :: rest) :
      digits.length ≤ (c :: readNumberTail c rest).length := by
    have hle := (digits_initial h hpre).length_le
    rw [List.takeWhile_cons] at hle
    split at hle
    · exact hle.trans (by simpa using hwhole)
    · simp [h.1] at hle
  cases h with
  | whole h => exact hlength h hpre
  | @decimal whole fraction hw hf =>
    obtain ⟨d, whole, rfl⟩ := List.exists_cons_of_ne_nil hw.1
    obtain ⟨e, fraction, rfl⟩ := List.exists_cons_of_ne_nil hf.1
    obtain ⟨after, heq⟩ := hpre
    obtain ⟨rfl, rfl⟩ : d = c ∧ whole ++ '.' :: e :: (fraction ++ after) = rest := by
      simpa using heq
    obtain ⟨hd, hwhole⟩ := List.forall_mem_cons.1 hw.2
    have htake : (whole ++ '.' :: e :: (fraction ++ after)).takeWhile Char.isDigit = whole := by
      rw [List.takeWhile_append_of_pos hwhole, List.takeWhile_cons_of_neg (by simp [hpoint]),
        List.append_nil]
    have hdrop : (whole ++ '.' :: e :: (fraction ++ after)).dropWhile Char.isDigit =
        '.' :: e :: (fraction ++ after) := by
      rw [List.dropWhile_append_of_pos hwhole, List.dropWhile_cons_of_neg (by simp [hpoint])]
    have hle := (digits_initial hf (List.prefix_append _ after)).length_le
    rw [readNumberTail, if_neg (ne_of_class hd hpoint), htake, hdrop]
    simp only [hf.2 e (by simp), if_true]
    simpa using hle
  | @fraction digits h =>
    obtain ⟨rfl, hrest⟩ := List.cons_prefix_cons.1 hpre
    have hle := (digits_initial h hrest).length_le
    simpa using hle.trans hwhole

theorem Numeral.chars (h : Numeral tail) : ∀ c ∈ tail, c.isDigit = true ∨ c = '.' := by
  intro c hc
  cases h with
  | whole h => exact .inl (h.2 c hc)
  | decimal hwhole hfraction =>
    obtain hc | hc := List.mem_append.1 hc
    · exact .inl (hwhole.2 c hc)
    · exact (List.mem_cons.1 hc).symm.imp (hfraction.2 c) id
  | fraction h => exact (List.mem_cons.1 hc).symm.imp (h.2 c) id

theorem Numeral.starts (h : Numeral (c :: tail)) (rest : List Char) :
    c.isDigit = true ∨ c = '.' ∧ ∃ d ∈ (tail ++ rest).head?, d.isDigit = true := by
  generalize hcs : c :: tail = cs at h
  cases h with
  | whole h => exact .inl (h.2 c (by simp [← hcs]))
  | decimal hwhole _ =>
    obtain ⟨d, whole, rfl⟩ := List.exists_cons_of_ne_nil hwhole.1
    exact .inl ((List.cons.inj hcs).1 ▸ hwhole.2 d List.mem_cons_self)
  | fraction h =>
    obtain ⟨rfl, rfl⟩ := List.cons.inj hcs
    obtain ⟨d, digits, rfl⟩ := List.exists_cons_of_ne_nil h.1
    exact .inr ⟨rfl, d, rfl, h.2 d List.mem_cons_self⟩

/-- A numeral is read up to its end, since the longest one at its place has no blank. -/
theorem read_numeral (h : Numeral (c :: tail)) (hcut : Cut rest) :
    read c (tail ++ rest) = .ok ⟨.number, c :: tail, tail.length⟩ := by
  have hstart := h.starts rest
  have htail : readNumberTail c (tail ++ rest) = tail := by
    have hle := length_le_readNumberTail h (List.prefix_append (c :: tail) rest)
    obtain ⟨more, hmore⟩ := List.prefix_of_prefix_length_le (List.prefix_append tail rest)
      (readNumberTail_starts c (tail ++ rest)) (by simpa using hle)
    cases more with
    | nil => simpa using hmore.symm
    | cons d more =>
      have hd := (numeral_readNumberTail hstart).chars d (by simp [← hmore])
      have hrest : d :: more <+: rest := by
        have hpre := readNumberTail_starts c (tail ++ rest)
        rwa [← hmore, List.prefix_append_right_inj] at hpre
      obtain ⟨after, rfl⟩ := hrest
      have hskip := hcut d rfl
      rcases hd with hd | rfl
      · simp [solid_isDigit d hskip] at hd
      · cases hskip
  have hne : c ≠ '/' ∧ c ≠ '"' ∧ c ≠ '#' := by
    rcases hstart with hc | ⟨rfl, -⟩
    · exact ⟨ne_of_class hc (by decide), ne_of_class hc (by decide), ne_of_class hc (by decide)⟩
    · decide
  have hclass : (c.isDigit || (c = '.' && ((tail ++ rest).head?.map Char.isDigit).getD false)) =
      true := by
    rcases hstart with hc | ⟨rfl, d, hd, hdigit⟩
    · simp [hc]
    · simp [Option.mem_def.1 hd, hdigit]
  simp only [read, hne, hclass, htail, if_true, if_false]

theorem readQuoted_escaped (value rest : List Char) :
    readQuoted (value.flatMap escape ++ '"' :: rest) =
      .ok (value, (value.flatMap escape).length + 1) := by
  induction value with
  | nil => rfl
  | cons c value ih =>
    rw [List.flatMap_cons, List.append_assoc]
    by_cases hc : c = '\\' ∨ c = '"'
    · have hcode : unescape c = c := by rcases hc with rfl | rfl <;> decide
      simp only [escape, if_pos hc, List.cons_append, List.nil_append, readQuoted, ih, hcode,
        List.length_cons]
    by_cases hline : c = '\n'
    · subst hline
      have hcode : unescape 'n' = '\n' := by decide
      simp only [escape, if_neg hc, if_true, List.cons_append, List.nil_append, readQuoted, ih, hcode,
        List.length_cons]
    · rw [not_or] at hc
      simp [escape, hc.1, hc.2, hline, readQuoted, ih]

theorem read_string (value rest : List Char) :
    read '"' (value.flatMap escape ++ ['"'] ++ rest) =
      .ok ⟨.string, value, (value.flatMap escape ++ ['"']).length⟩ := by
  have hread := readQuoted_escaped value rest
  simp only [List.append_assoc, List.singleton_append, List.length_append, List.length_singleton]
  simp [read, readString, hread]

theorem toLower_eq_self (h : d.isDigit = true ∨ ('a' ≤ d ∧ d ≤ 'f')) : d.toLower = d := by
  have hbounds : (48 ≤ d.toNat ∧ d.toNat ≤ 57) ∨ (97 ≤ d.toNat ∧ d.toNat ≤ 102) := by
    simpa [Char.isDigit, Char.le_def, UInt32.le_iff_toNat_le] using h
  rw [Char.toLower, dif_neg]
  simp only [ge_iff_le, UInt32.le_iff_toNat_le]
  intro hupper
  have hle : 65 ≤ d.toNat ∧ d.toNat ≤ 90 := hupper
  omega

theorem read_color {digits : List Char} (hlength : digits.length = 6)
    (h : ∀ d ∈ digits, d.isDigit = true ∨ ('a' ≤ d ∧ d ≤ 'f')) (hcut : Cut rest) :
    read '#' (digits ++ rest) = .ok ⟨.color, '#' :: digits, digits.length⟩ := by
  have hhex : ∀ d ∈ digits, isHexDigit d = true := by
    intro d hd
    rcases h d hd with hd | ⟨ha, hf⟩
    · simp [isHexDigit, hd]
    · simp [isHexDigit, ha, hf]
  have hlower : digits.map Char.toLower = digits :=
    (List.map_congr_left fun d hd => toLower_eq_self (h d hd)).trans (List.map_id' digits)
  simp [read, readColor, takeWhile_cut solid_isHexDigit hhex hcut, hlength, hlower]

theorem readComment_eq_none (hslash : ∀ tail, rest ≠ '/' :: tail) (hstar : ∀ tail, rest ≠ '*' :: tail) :
    readComment? rest = none := by
  unfold readComment?
  split
  next tail => exact absurd rfl (hslash tail)
  next tail => exact absurd rfl (hstar tail)
  next => rfl

theorem read_operator (hc : c ∈ ['+', '-', '*', '/', '%', '=', '!', '<', '>'])
    (hslash : ∀ tail, rest ≠ '/' :: tail) (hstar : ∀ tail, rest ≠ '*' :: tail) :
    read c rest = .ok (readOperator c rest) := by
  have hnone := readComment_eq_none hslash hstar
  simp only [List.mem_cons, List.not_mem_nil, or_false] at hc
  rcases hc with rfl | rfl | rfl | rfl | rfl | rfl | rfl | rfl | rfl <;>
    simp [read, hnone, isOperatorStart, startsName, Text.isAlphabetic]

theorem read_doubled (hc : c ∈ ['&', '|']) (rest : List Char) :
    read c (c :: rest) = .ok ⟨.operator, [c, c], 1⟩ := by
  simp only [List.mem_cons, List.not_mem_nil, or_false] at hc
  rcases hc with rfl | rfl <;>
    simp [read, readDoubled, isOperatorStart, startsName, Text.isAlphabetic]

theorem read_mark (hc : (c, kind) ∈ marks) (rest : List Char) :
    read c rest = .ok ⟨kind, [c], 0⟩ := by
  simp only [marks, List.mem_cons, Prod.mk.injEq, List.not_mem_nil, or_false] at hc
  rcases hc with ⟨rfl, rfl⟩ | ⟨rfl, rfl⟩ | ⟨rfl, rfl⟩ | ⟨rfl, rfl⟩ | ⟨rfl, rfl⟩ | ⟨rfl, rfl⟩ |
    ⟨rfl, rfl⟩ | ⟨rfl, rfl⟩ <;>
    simp [read, punctuation?, isOperatorStart, startsName, Text.isAlphabetic]

/-- A text without an end of a comment is read through, unless it is one together with what follows. -/
theorem readBlockComment_append (h : ¬ ['*', '/'] <:+: text) (hd : d ≠ '/') (tail : List Char) :
    readBlockComment? (text ++ d :: tail) = (readBlockComment? (d :: tail)).map (text ++ ·) := by
  induction text with
  | nil => simp
  | cons c text ih =>
    have hfree : ¬ ['*', '/'] <:+: text := fun hin => h (hin.trans (List.suffix_cons c text).isInfix)
    have hstop : ∀ more, ¬ (c = '*' ∧ text ++ d :: tail = '/' :: more) := by
      rintro more ⟨rfl, hmore⟩
      cases text with
      | nil => exact hd (List.cons.inj hmore).1
      | cons e text =>
        obtain rfl : e = '/' := (List.cons.inj hmore).1
        exact h ⟨[], text, rfl⟩
    rw [List.cons_append, readBlockComment?, ih hfree, Option.map_map]
    · rfl
    · intro more hc hmore
      exact hstop more ⟨hc, hmore⟩

/-- Blanks around a trimmed text are trimmed away. -/
theorem trim_padded (h : Text.trim text = text) : Text.trim (' ' :: (text ++ [' '])) = text := by
  have hblank : Text.isBlank ' ' = true := by decide
  have hfirst : text.dropWhile Text.isBlank = text := by
    refine (List.dropWhile_suffix Text.isBlank).eq_of_length_le ?_
    have hlength := (List.dropWhile_suffix (l := (text.dropWhile Text.isBlank).reverse)
      Text.isBlank).length_le
    have htrim := congrArg List.length h
    simp only [Text.trim, List.length_reverse] at hlength htrim
    omega
  have hlast : text.reverse.dropWhile Text.isBlank = text.reverse := by
    rw [Text.trim, hfirst] at h
    exact List.reverse_eq_iff.1 h
  rw [Text.trim, List.dropWhile_cons_of_pos hblank, List.dropWhile_append, hfirst]
  split
  next hempty =>
    rw [List.isEmpty_iff] at hempty
    simp [hempty, hblank]
  next =>
    rw [List.reverse_append, List.reverse_singleton, List.singleton_append,
      List.dropWhile_cons_of_pos hblank, hlast, List.reverse_reverse]

theorem read_comment (htrim : Text.trim text = text) (hfree : ¬ ['*', '/'] <:+: text)
    (rest : List Char) : read '/' ('*' :: ' ' :: (text ++ [' ', '*', '/']) ++ rest) =
      .ok ⟨.comment, text, ('*' :: ' ' :: (text ++ [' ', '*', '/'])).length⟩ := by
  have hstop : readBlockComment? (' ' :: '*' :: '/' :: rest) = some [' '] := by
    simp [readBlockComment?]
  have hcontents : readBlockComment? (' ' :: (text ++ ' ' :: '*' :: '/' :: rest)) =
      some (' ' :: (text ++ [' '])) := by
    have happend := readBlockComment_append hfree (d := ' ') (by decide) ('*' :: '/' :: rest)
    rw [hstop] at happend
    simp [readBlockComment?, happend]
  simp [read, readComment?, hcontents, trim_padded htrim]

theorem operator_not_skipped : ∀ c ∈ ['+', '-', '*', '/', '%', '=', '!', '<', '>'],
    isSkipped c = false := by
  simp [isSkipped]

theorem Numeral.ne_nil (h : Numeral tail) : tail ≠ [] := by
  cases h with
  | whole h => exact h.1
  | decimal _ _ => simp
  | fraction _ => simp

theorem Numeral.not_skipped (h : Numeral (c :: tail)) : isSkipped c = false := by
  obtain hc | rfl := h.chars c List.mem_cons_self
  · exact solid_isDigit.not_skipped hc
  · decide

/-- Keywords are spelled like names. -/
theorem keyword_spelling {word : String} (h : word ∈ keywords) :
    ∃ c cs, word.toList = c :: cs ∧ startsName c = true ∧ ∀ d ∈ cs, continuesName d = true := by
  simp only [keywords, List.mem_cons, List.not_mem_nil, or_false] at h
  rcases h with rfl | rfl | rfl | rfl | rfl | rfl | rfl <;>
    exact ⟨_, _, rfl, by decide, List.all_eq_true.1 (by decide)⟩

/-- A written token starts with a character that is no blank, and is read as itself when a blank or
nothing follows. -/
theorem read_written (h : Written kind value text) (hcut : Cut rest) :
    ∃ c tail, text = c :: tail ∧ isSkipped c = false ∧
      read c (tail ++ rest) = .ok ⟨kind, value, tail.length⟩ := by
  cases h with
  | @keyword word h =>
    obtain ⟨c, cs, hword, hc, hcs⟩ := keyword_spelling h
    refine ⟨c, cs, hword, solid_startsName.not_skipped hc, ?_⟩
    rw [read_name hc hcs hcut, ← hword, String.ofList_toList, if_pos (List.contains_iff_mem.2 h)]
  | @identifier c cs hc hcs h =>
    refine ⟨c, cs, rfl, solid_startsName.not_skipped hc, ?_⟩
    rw [read_name hc hcs hcut, if_neg (mt List.contains_iff_mem.1 h)]
  | number h =>
    obtain ⟨c, cs, rfl⟩ := List.exists_cons_of_ne_nil h.ne_nil
    exact ⟨c, cs, rfl, h.not_skipped, read_numeral h hcut⟩
  | string value => exact ⟨'"', _, rfl, by decide, read_string value rest⟩
  | color hlength h => exact ⟨'#', _, rfl, by decide, read_color hlength h hcut⟩
  | @operator c h =>
    refine ⟨c, [], rfl, operator_not_skipped c h, ?_⟩
    rw [List.nil_append, read_operator h (hcut.ne (by decide)) (hcut.ne (by decide))]
    unfold readOperator
    split
    next tail => exact absurd rfl (hcut.ne (by decide) tail)
    next => rfl
  | @assigning c h =>
    refine ⟨c, ['='], rfl, operator_not_skipped c h, ?_⟩
    rw [read_operator h (by simp) (by simp)]
    rfl
  | @doubled c h =>
    have hc : ∀ c ∈ ['&', '|'], isSkipped c = false := by simp [isSkipped]
    exact ⟨c, [c], rfl, hc c h, read_doubled h rest⟩
  | @mark c kind h =>
    have hc : ∀ mark ∈ marks, isSkipped mark.1 = false := by simp [marks, isSkipped]
    exact ⟨c, [], rfl, hc (c, kind) h, read_mark h rest⟩
  | comment htrim hfree => exact ⟨'/', _, rfl, by decide, read_comment htrim hfree rest⟩

end

/-! ## Reading a written text -/

theorem scan_blanks {blanks : List Char} (h : ∀ c ∈ blanks, isSkipped c = true) (p : Position)
    (rest : List Char) : scan p (blanks ++ rest) = scan (p.after blanks) rest := by
  induction blanks generalizing p with
  | nil => rfl
  | cons c blanks ih =>
    obtain ⟨hc, hrest⟩ := List.forall_mem_cons.1 h
    rw [List.cons_append, scan, if_pos hc, ih hrest, Position.after_cons]

/-- A written token is the next one. -/
theorem scan_written {value rest : List Char} (h : Written kind value text) (hcut : Cut rest)
    (p : Position) : scan p (text ++ rest) = (scan (p.after text) rest).map
      (⟨kind, String.ofList value, p.span text.length⟩ :: ·) := by
  obtain ⟨c, tail, rfl, hc, hread⟩ := read_written h hcut
  rw [List.cons_append, scan]
  simp [hc, hread]

theorem scan_spaced {items : List (TokenKind × List Char)} (h : Spaced items text) (p : Position) :
    ∃ tokens, scan p text = .ok tokens ∧
      tokens.map (fun t => (t.kind, t.text.toList)) = items ++ [(.endOfFile, [])] := by
  induction h generalizing p with
  | nil =>
    rw [scan]
    exact ⟨_, rfl, rfl⟩
  | @last kind value text h =>
    have hcut : Cut [] := by simp [Cut]
    have hscan := scan_written h hcut p
    rw [List.append_nil, scan] at hscan
    exact ⟨_, hscan, by simp⟩
  | @next kind value text blanks rest item items h hblanks hall hrest ih =>
    have hskip : ∀ c ∈ blanks, isSkipped c = true := fun c hc => isSkipped_iff.2 (hall c hc)
    obtain ⟨b, blanks, rfl⟩ := List.exists_cons_of_ne_nil hblanks
    have hcut : Cut (b :: blanks ++ rest) := by
      rintro c ⟨⟩
      exact hskip b List.mem_cons_self
    obtain ⟨tokens, hscan, htokens⟩ := ih ((p.after text).after (b :: blanks))
    refine ⟨⟨kind, String.ofList value, p.span text.length⟩ :: tokens, ?_, ?_⟩
    · rw [scan_written h hcut, scan_blanks hskip, hscan]
      rfl
    · simp [htokens]

/-- Lexing undoes writing tokens out: whatever blanks stand between them, the tokens are read back
with their kinds and values, and the end of the file after them. -/
theorem ofSource_of_spaced {items : List (TokenKind × List Char)} {source : String}
    (h : Spaced items source.toList) :
    ∃ tokens, ofSource source = .ok tokens ∧
      tokens.map (fun t => (t.kind, t.text.toList)) = items ++ [(.endOfFile, [])] :=
  scan_spaced h Position.start

/-- The tokens of `if x = "a\n" /* b */ .5`, with a tab and a byte order mark among the blanks. -/
theorem ofSource_of_spaced_tokens :
    ∃ tokens, ofSource (String.ofList (['i', 'f'] ++ ([' '] ++ (['x'] ++ (['\t', ' '] ++ (['='] ++
        ([Char.ofNat 0xFEFF] ++ (['"', 'a', '\\', 'n', '"'] ++ ([' '] ++
        (['/', '*', ' ', 'b', ' ', '*', '/'] ++ (['\r'] ++ ['.', '5']))))))))))) = .ok tokens ∧
      tokens.map (fun t => (t.kind, t.text.toList)) = [(.keyword, ['i', 'f']), (.identifier, ['x']),
        (.operator, ['=']), (.string, ['a', '\n']), (.comment, ['b']), (.number, ['.', '5'])] ++
        [(.endOfFile, [])] := by
  have hword : "if" ∈ keywords := by decide
  have hx : startsName 'x' = true := by decide
  have hfresh : String.ofList ['x'] ∉ keywords := by decide
  have htrim : Text.trim ['b'] = ['b'] := by decide
  have hfree : ¬ ['*', '/'] <:+: ['b'] := fun h => absurd h.length_le (by decide)
  have hdigits : Digits ['5'] := by simp [Digits]
  apply ofSource_of_spaced
  rw [String.toList_ofList]
  refine .next (.keyword hword) ?_ ?_ (.next (.identifier hx ?_ hfresh) ?_ ?_
    (.next (.operator ?_) ?_ ?_ (.next (.string ['a', '\n']) ?_ ?_
      (.next (.comment htrim hfree) ?_ ?_ (.last (.number (.fraction hdigits)))))))
  all_goals simp

end ScriptBlocks.Token
