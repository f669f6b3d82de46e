import Mathlib.Data.List.DropRight
import Mathlib.Data.List.TakeWhile
import ScriptBlocks.Literal

/-!
# Decimals and the texts of numbers

Which texts count as numbers, and which of them read as one. A decimal may have digits of any script,
but only those with ASCII digits read as a number. A sign can be put before a decimal that has none
and no blank before it.
-/
namespace ScriptBlocks

variable {c sign : Char}

/-! ### The form of a decimal -/

section

variable {cs : List Char}

/-- The digits of a decimal, before the point and after it. -/
theorem isUnsignedDecimal_iff : isUnsignedDecimal cs = true ↔
    ∃ whole fraction, (∀ c ∈ whole ++ fraction, Text.isDecimalDigit c = true) ∧
      whole ++ fraction ≠ [] ∧ (cs = whole ∧ fraction = [] ∨ cs = whole ++ '.' :: fraction) := by
  have hpoint : Text.isDecimalDigit '.' = false := by decide
  constructor
  · intro h
    have hwhole : ∀ c ∈ cs.takeWhile Text.isDecimalDigit, Text.isDecimalDigit c = true :=
      fun c hc => List.mem_takeWhile_imp hc
    have hcs := List.takeWhile_append_dropWhile (p := Text.isDecimalDigit) (l := cs)
    simp only [isUnsignedDecimal] at h
    split at h
    next hrest =>
      rw [hrest, List.append_nil] at hcs
      exact ⟨cs.takeWhile Text.isDecimalDigit, [], by simpa using hwhole, by simpa using h,
        .inl ⟨hcs.symm, rfl⟩⟩
    next fraction hrest =>
      rw [hrest] at hcs
      simp only [Bool.and_eq_true, Bool.or_eq_true, decide_eq_true_eq, List.all_eq_true] at h
      refine ⟨cs.takeWhile Text.isDecimalDigit, fraction, ?_, ?_, .inr hcs.symm⟩
      · exact List.forall_mem_append.2 ⟨hwhole, h.2⟩
      · rw [Ne, List.append_eq_nil_iff, not_and_or]
        exact h.1
    next => cases h
  · rintro ⟨whole, fraction, hdigits, hne, ⟨rfl, rfl⟩ | rfl⟩
    · rw [List.append_nil] at hdigits hne
      have htake : cs.takeWhile Text.isDecimalDigit = cs := List.takeWhile_eq_self_iff.2 hdigits
      have hdrop : cs.dropWhile Text.isDecimalDigit = [] := List.dropWhile_eq_nil_iff.2 hdigits
      simp [isUnsignedDecimal, htake, hdrop, hne]
    · obtain ⟨hwhole, hfraction⟩ := List.forall_mem_append.1 hdigits
      rw [Ne, List.append_eq_nil_iff, not_and_or] at hne
      simp only [isUnsignedDecimal, List.takeWhile_append_of_pos hwhole,
        List.dropWhile_append_of_pos hwhole, List.takeWhile_cons, List.dropWhile_cons, hpoint,
        Bool.false_eq_true, if_false, List.append_nil, Bool.and_eq_true, Bool.or_eq_true,
        decide_eq_true_eq, List.all_eq_true]
      exact ⟨hne, hfraction⟩

/-- A decimal starts with a digit or with its point. -/
theorem isUnsignedDecimal_head (h : isUnsignedDecimal (c :: cs) = true) :
    Text.isDecimalDigit c = true ∨ c = '.' := by
  obtain ⟨whole, fraction, hdigits, hne, ⟨rfl, rfl⟩ | hcs⟩ := isUnsignedDecimal_iff.1 h
  · exact .inl (hdigits c (by simp))
  · cases whole with
    | nil => exact .inr (List.cons.inj hcs).1
    | cons d whole =>
      obtain rfl := (List.cons.inj hcs).1
      exact .inl (hdigits c (by simp))

end

/-! ### Reading a decimal -/

theorem isDigit_ascii (h : c.isDigit = true) : c.toNat < 128 := by
  have hle : 48 ≤ c.toNat ∧ c.toNat ≤ 57 := by
    simpa [Char.isDigit, UInt32.le_iff_toNat_le] using h
  omega

theorem mem_of_mem_splitSign {cs : List Char} (h : c ∈ (splitSign cs).2) : c ∈ cs := by
  unfold splitSign at h
  split at h
  · exact List.mem_cons_of_mem _ h
  · exact List.mem_cons_of_mem _ h
  · exact h

theorem mem_splitSign_or {cs : List Char} (h : c ∈ cs) :
    c ∈ (splitSign cs).2 ∨ c = '-' ∨ c = '+' := by
  unfold splitSign
  split
  · exact (List.mem_cons.1 h).symm.imp_right .inl
  · exact (List.mem_cons.1 h).symm.imp_right .inr
  · exact .inl h

section

variable {cs : List Char}

theorem readExponent?_ascii (h : (readExponent? cs).isSome = true) : ∀ c ∈ cs, c.toNat < 128 := by
  cases cs with
  | nil => simp
  | cons e rest =>
    simp only [readExponent?] at h
    split at h
    next he =>
      split at h
      next hdigits =>
        intro c hc
        obtain rfl | hc := List.mem_cons.1 hc
        · rcases he with rfl | rfl <;> decide
        · obtain hc | rfl | rfl := mem_splitSign_or hc
          · exact isDigit_ascii (List.all_eq_true.1 hdigits.2 c hc)
          · decide
          · decide
      next => cases h
    next => cases h

/-- A numeral has only ASCII characters. -/
theorem readUnsigned?_ascii (h : (readUnsigned? cs).isSome = true) : ∀ c ∈ cs, c.toNat < 128 := by
  have hrun : ∀ {ds : List Char}, (∀ c ∈ ds.dropWhile Char.isDigit, c.toNat < 128) →
      ∀ c ∈ ds, c.toNat < 128 := by
    intro ds hrest c hc
    rw [← List.takeWhile_append_dropWhile (p := Char.isDigit) (l := ds)] at hc
    obtain hc | hc := List.mem_append.1 hc
    · exact isDigit_ascii (List.mem_takeWhile_imp hc)
    · exact hrest c hc
  have htail : ∀ {p : Prop} [Decidable p] {tail : List Char} {f : Int → Nat × Int},
      (if p then none else (readExponent? tail).map f).isSome = true → ∀ c ∈ tail, c.toNat < 128 := by
    intro p _ tail f hsome
    split at hsome
    · cases hsome
    · exact readExponent?_ascii (by simpa using hsome)
  refine hrun ?_
  cases hrest : cs.dropWhile Char.isDigit with
  | nil => simp
  | cons p rest =>
    simp only [readUnsigned?, hrest, List.head?_cons] at h
    by_cases hp : p = '.'
    · subst hp
      simp only [BEq.rfl, if_true, List.tail_cons] at h
      exact List.forall_mem_cons.2 ⟨by decide, hrun (htail h)⟩
    · simp only [beq_iff_eq, Option.some.injEq, hp, if_false] at h
      exact htail h

theorem toLower_ascii (h : c.toLower.toNat < 128) : c.toNat < 128 := by
  unfold Char.toLower at h
  split at h
  next hc =>
    have hle : c.val.toNat ≤ 90 := by
      simpa [UInt32.le_iff_toNat_le] using hc.2
    exact Nat.lt_of_le_of_lt hle (by decide)
  next => exact h

theorem readWord?_ascii {negative : Bool} (h : (readWord? negative cs).isSome = true) :
    ∀ c ∈ cs, c.toNat < 128 := by
  have hword : ∀ {word : String}, word.toList.all (·.toNat < 128) = true →
      String.ofList (cs.map Char.toLower) = word → ∀ c ∈ cs, c.toNat < 128 := by
    intro word hascii heq c hc
    refine toLower_ascii (of_decide_eq_true (List.all_eq_true.1 hascii _ ?_))
    rw [← heq, String.toList_ofList]
    exact List.mem_map_of_mem hc
  simp only [readWord?] at h
  split at h
  next heq =>
    obtain heq | heq := heq
    · exact hword (by decide) heq
    · exact hword (by decide) heq
  next =>
    split at h
    next heq => exact hword (by decide) heq
    next => cases h

/-- A decimal in ASCII digits is a numeral. -/
theorem readUnsigned?_of_decimal (h : isUnsignedDecimal cs = true) (hascii : ∀ c ∈ cs, c.toNat < 128) :
    (readUnsigned? cs).isSome = true := by
  obtain ⟨whole, fraction, hdigits, hne, hcs⟩ := isUnsignedDecimal_iff.1 h
  have hpoint : Char.isDigit '.' = false := by decide
  have hdigits : ∀ c ∈ whole ++ fraction, c.isDigit = true := by
    intro c hc
    rw [← Text.isDecimalDigit_of_ascii]
    · exact hdigits c hc
    · refine hascii c ?_
      obtain ⟨rfl, rfl⟩ | rfl := hcs
      · simpa using hc
      · obtain hc | hc := List.mem_append.1 hc
        · exact List.mem_append_left _ hc
        · exact List.mem_append_right _ (List.mem_cons_of_mem _ hc)
  obtain ⟨hwhole, hfraction⟩ := List.forall_mem_append.1 hdigits
  obtain ⟨rfl, rfl⟩ | rfl := hcs
  · have htake : cs.takeWhile Char.isDigit = cs := List.takeWhile_eq_self_iff.2 hwhole
    have hdrop : cs.dropWhile Char.isDigit = [] := List.dropWhile_eq_nil_iff.2 hwhole
    rw [List.append_nil] at hne
    simp [readUnsigned?, htake, hdrop, hne, readExponent?]
  · have htake : fraction.takeWhile Char.isDigit = fraction := List.takeWhile_eq_self_iff.2 hfraction
    have hdrop : fraction.dropWhile Char.isDigit = [] := List.dropWhile_eq_nil_iff.2 hfraction
    simp only [readUnsigned?, List.takeWhile_append_of_pos hwhole, List.dropWhile_append_of_pos hwhole,
      List.takeWhile_cons, List.dropWhile_cons, hpoint, Bool.false_eq_true, if_false, List.append_nil,
      List.head?_cons, BEq.rfl, if_true, List.tail_cons, htake, hdrop, hne, readExponent?,
      Option.map_some, Option.isSome_some]

end

/-- What reads as a number has only ASCII characters. -/
theorem readNumber?_ascii {text : String} (h : (readNumber? text).isSome = true) :
    ∀ c ∈ text.toList, c.toNat < 128 := by
  have hrest : ∀ c ∈ (splitSign text.toList).2, c.toNat < 128 := by
    simp only [readNumber?] at h
    split at h
    next hread => exact readUnsigned?_ascii (by simp [hread])
    next => exact readWord?_ascii h
  intro c hc
  obtain hc | rfl | rfl := mem_splitSign_or hc
  · exact hrest c hc
  · decide
  · decide

/-- A text that counts as a number reads as one exactly if its digits are those of ASCII. So a text
with other digits never counts as zero. -/
theorem isDecimal_reads_iff {text : String} (h : isDecimal text = true) :
    ((readNumber? (Text.trimmed text)).isSome = true ↔
      ∀ c ∈ Text.trim text.toList, c.toNat < 128) ∧
    ((Literal.text text).isZero = true → ∀ c ∈ Text.trim text.toList, c.toNat < 128) := by
  have htrimmed : (Text.trimmed text).toList = Text.trim text.toList := String.toList_ofList
  have hreads : (readNumber? (Text.trimmed text)).isSome = true →
      ∀ c ∈ Text.trim text.toList, c.toNat < 128 := by
    intro hread
    rw [← htrimmed]
    exact readNumber?_ascii hread
  refine ⟨⟨hreads, fun hascii => ?_⟩, fun hzero => hreads ?_⟩
  · obtain ⟨⟨digits, exponent⟩, hread⟩ := Option.isSome_iff_exists.1
      (readUnsigned?_of_decimal h fun c hc => hascii c (mem_of_mem_splitSign hc))
    simp [readNumber?, htrimmed, hread]
  · cases hread : readNumber? (Text.trimmed text) with
    | none => simp [Literal.isZero, hread] at hzero
    | some x => rfl

/-- A decimal with a sign and without digits after its point, between blanks. -/
theorem isDecimal_reads_signed :
    isDecimal " -12.\t" = true ∧ (readNumber? (Text.trimmed " -12.\t")).isSome = true :=
  have hdecimal : isDecimal " -12.\t" = true := by decide +kernel
  have hascii : (Text.trim " -12.\t".toList).all (·.toNat < 128) = true := by decide +kernel
  ⟨hdecimal, (isDecimal_reads_iff hdecimal).1.2 fun c hc =>
    of_decide_eq_true (List.all_eq_true.1 hascii c hc)⟩

/-- The Arabic digit zero counts as a number, but it does not read as one. -/
theorem isDecimal_not_read :
    isDecimal "\u0660" = true ∧ readNumber? (Text.trimmed "\u0660") = none ∧
      (Literal.text "\u0660").type = .number ∧ (Literal.text "\u0660").isZero = false := by
  decide +kernel

/-! ### The texts of numbers -/

def Binary64.isFinite (x : Binary64) : Bool :=
  !x.isNaN && !x.isInfinite

section

variable {cs : List Char}

theorem Text.trim_eq_self (h : ∀ c ∈ cs, Text.isBlank c = false) : Text.trim cs = cs := by
  have hdrop : ∀ {ds : List Char}, (∀ c ∈ ds, Text.isBlank c = false) → ds.dropWhile Text.isBlank = ds :=
    fun {ds} hds => by
      cases ds with
      | nil => rfl
      | cons d ds => simp [hds d]
  rw [Text.trim, hdrop h, hdrop (by simpa using h), List.reverse_reverse]

theorem isDigit_not_blank (h : c.isDigit = true) : Text.isBlank c = false := by
  have hle : 48 ≤ c.toNat ∧ c.toNat ≤ 57 := by
    simpa [Char.isDigit, UInt32.le_iff_toNat_le] using h
  have hall : ∀ n < 58, 48 ≤ n → Text.withinStretches Text.blankStretches n = false := by decide
  exact hall c.toNat (by omega) hle.1

/-- A decimal in positional notation: digits with at most one point among them. -/
theorem Binary64.Decimal.toChars_digits (d : Decimal) :
    isUnsignedDecimal d.toChars = true ∧ ∀ c ∈ d.toChars, c.isDigit = true ∨ c = '.' := by
  have hdigits : ∀ c ∈ Nat.toDigits 10 d.digits, c.isDigit = true :=
    fun c hc => Nat.isDigit_of_mem_toDigits (by decide) (by decide) hc
  have hzeros : ∀ n, ∀ c ∈ List.replicate n '0', c.isDigit = true := by
    intro n c hc
    rw [List.eq_of_mem_replicate hc]
    decide
  have hdecimal : ∀ {c : Char}, c.isDigit = true → Text.isDecimalDigit c = true :=
    fun hc => (Text.isDecimalDigit_of_ascii (isDigit_ascii hc)).trans hc
  unfold toChars
  split
  · have hall : ∀ c ∈ Nat.toDigits 10 d.digits ++ List.replicate d.exponent.toNat '0',
        c.isDigit = true := List.forall_mem_append.2 ⟨hdigits, hzeros _⟩
    refine ⟨isUnsignedDecimal_iff.2 ⟨_, [], ?_, ?_, .inl ⟨rfl, rfl⟩⟩, fun c hc => .inl (hall c hc)⟩
    · rw [List.append_nil]
      exact fun c hc => hdecimal (hall c hc)
    · simp [Nat.toDigits_ne_nil]
  · simp only
    generalize hpadded : List.replicate _ '0' ++ Nat.toDigits 10 d.digits = padded
    have hall : ∀ c ∈ padded, c.isDigit = true :=
      hpadded ▸ List.forall_mem_append.2 ⟨hzeros _, hdigits⟩
    have hne : padded ≠ [] := by simp [← hpadded, Nat.toDigits_ne_nil]
    generalize padded.length - _ = n
    refine ⟨isUnsignedDecimal_iff.2 ⟨padded.take n, padded.drop n, ?_, ?_, .inr rfl⟩, fun c hc => ?_⟩
    · rw [List.take_append_drop]
      exact fun c hc => hdecimal (hall c hc)
    · rwa [List.take_append_drop]
    · obtain hc | hc := List.mem_append.1 hc
      · exact .inl (hall c (List.mem_of_mem_take hc))
      · obtain rfl | hc := List.mem_cons.1 hc
        · exact .inr rfl
        · exact .inl (hall c (List.mem_of_mem_drop hc))

/-- No sign stands within a decimal. -/
theorem isUnsignedDecimal_sign (h : sign = '+' ∨ sign = '-') :
    isUnsignedDecimal (sign :: cs) = false := by
  have hsign : Text.isDecimalDigit sign = false ∧ sign ≠ '.' := by
    rcases h with rfl | rfl <;> decide
  rw [← Bool.not_eq_true]
  intro hdecimal
  obtain hdigit | hpoint := isUnsignedDecimal_head hdecimal
  · simp [hsign.1] at hdigit
  · exact hsign.2 hpoint

@[simp] theorem splitSign_cons (h : sign = '+' ∨ sign = '-') : (splitSign (sign :: cs)).2 = cs := by
  rcases h with rfl | rfl <;> rfl

/-- A decimal without a sign is its own unsigned part. -/
theorem splitSign_of_decimal (h : isUnsignedDecimal cs = true) : (splitSign cs).2 = cs := by
  unfold splitSign
  split
  · simp [isUnsignedDecimal_sign (.inr rfl)] at h
  · simp [isUnsignedDecimal_sign (.inl rfl)] at h
  · rfl

end

namespace Binary64

variable (x : Binary64)

theorem isInfinite_of_isZero {x : Binary64} (h : x.isZero = true) : x.isInfinite = false := by
  have hmagnitude : x.magnitude = 0 := by simpa [isZero] using h
  simp [isInfinite, hmagnitude, infinityBits]

/-- The text of a number is a word if the number is not finite, and else a decimal, after a sign if
the number is negative. -/
theorem toText_cases :
    x.isFinite = false ∧ x.toText ∈ ["NaN", "inf", "-inf"] ∨
    ∃ cs, isUnsignedDecimal cs = true ∧ (∀ c ∈ cs, c.isDigit = true ∨ c = '.') ∧ x.isFinite = true ∧
      ((x.isZero || !x.isNegative) = true ∧ x.toText.toList = cs ∨
        (x.isZero || !x.isNegative) = false ∧ x.toText.toList = '-' :: cs) := by
  obtain ⟨hdecimal, hchars⟩ := x.shortest.toChars_digits
  -- The digits stay a variable: nothing may unfold how they are found.
  obtain ⟨cs, hcs⟩ : ∃ cs, x.shortest.toChars = cs := ⟨_, rfl⟩
  rw [hcs] at hdecimal hchars
  rw [isFinite, toText, hcs]
  split
  next hnan => exact .inl ⟨by rw [hnan]; rfl, by decide⟩
  next hnan =>
    rw [Bool.not_eq_true] at hnan
    split
    next hzero =>
      refine .inr ⟨"0".toList, by decide, by simp, ?_, .inl ⟨by rw [hzero]; rfl, rfl⟩⟩
      rw [hnan, isInfinite_of_isZero hzero]
      rfl
    next hzero =>
      rw [Bool.not_eq_true] at hzero
      cases hinfinite : x.isInfinite with
      | true =>
        refine .inl ⟨by simp, ?_⟩
        cases x.isNegative <;> simp only [if_true, Bool.false_eq_true, if_false] <;> decide
      | false =>
        refine .inr ⟨cs, hdecimal, hchars, by simp [hnan], ?_⟩
        cases hnegative : x.isNegative <;> simp [hzero, String.toList_ofList]

/-- The text of a number has no blanks. -/
theorem toText_not_blank : ∀ c ∈ x.toText.toList, Text.isBlank c = false := by
  obtain ⟨-, hword⟩ | ⟨cs, -, hchars, -, htext⟩ := x.toText_cases
  · have hwords : ∀ word ∈ ["NaN", "inf", "-inf"],
        (word.toList.all fun c => !Text.isBlank c) = true := by
      decide
    intro c hc
    simpa using List.all_eq_true.1 (hwords _ hword) c hc
  · have hcs : ∀ c ∈ cs, Text.isBlank c = false := by
      intro c hc
      obtain hdigit | rfl := hchars c hc
      · exact isDigit_not_blank hdigit
      · decide
    obtain ⟨-, htext⟩ | ⟨-, htext⟩ := htext
    · rwa [htext]
    · rw [htext]
      exact List.forall_mem_cons.2 ⟨by decide, hcs⟩

/-- The text of a number counts as a number if the number is finite, and it has a sign if the number
is negative. -/
theorem toText_decimal :
    isDecimal x.toText = x.isFinite ∧
      isUnsignedDecimal x.toText.toList = (x.isFinite && (x.isZero || !x.isNegative)) := by
  rw [isDecimal, Text.trim_eq_self x.toText_not_blank]
  obtain ⟨hfinite, hword⟩ | ⟨cs, hdecimal, -, hfinite, htext⟩ := x.toText_cases
  · have hwords : ∀ word ∈ ["NaN", "inf", "-inf"],
        isUnsignedDecimal (splitSign word.toList).2 = false ∧
          isUnsignedDecimal word.toList = false := by
      decide
    rw [hfinite, Bool.false_and]
    exact hwords _ hword
  · obtain ⟨hsign, htext⟩ | ⟨hsign, htext⟩ := htext
    · rw [hfinite, hsign, htext, splitSign_of_decimal hdecimal]
      exact ⟨hdecimal, hdecimal⟩
    · rw [hfinite, hsign, htext, splitSign_cons (.inr rfl)]
      exact ⟨hdecimal, isUnsignedDecimal_sign (.inr rfl)⟩

end Binary64

/-! ### Signs -/

/-- The text is a decimal with neither a sign nor a blank before it. -/
def isBareDecimal (text : String) : Bool :=
  isUnsignedDecimal (text.toList.rdropWhile Text.isBlank)

theorem Text.trim_cons (h : Text.isBlank c = false) (cs : List Char) :
    Text.trim (c :: cs) = c :: cs.rdropWhile Text.isBlank := by
  have hdrop : [c].dropWhile Text.isBlank = [c] := by simp [h]
  rw [Text.trim, List.rdropWhile, List.dropWhile_cons_of_neg (by simp [h]), List.reverse_cons,
    List.dropWhile_append, hdrop]
  split
  next hempty => simp [List.isEmpty_iff.1 hempty]
  next => simp

/-- Signs before a text make a number of it if there are none and it is one, or if there is one and
the text is a decimal without a sign and a blank before it. -/
theorem isDecimal_signed {signs : List Char} (h : ∀ c ∈ signs, c = '+' ∨ c = '-') (text : String) :
    isDecimal (String.ofList (signs ++ text.toList)) = true ↔
      signs = [] ∧ isDecimal text = true ∨ signs.length = 1 ∧ isBareDecimal text = true := by
  have hblank : ∀ c ∈ signs, Text.isBlank c = false := by
    intro c hc
    rcases h c hc with rfl | rfl <;> decide
  cases signs with
  | nil => simp
  | cons sign rest =>
    have hsign := h sign List.mem_cons_self
    rw [isDecimal, String.toList_ofList, List.cons_append,
      Text.trim_cons (hblank sign List.mem_cons_self), splitSign_cons hsign]
    cases rest with
    | nil => simp [isBareDecimal]
    | cons sign' rest =>
      have hsign' := h sign' (by simp)
      have hkeep : ∀ cs : List Char, (sign' :: cs).rdropWhile Text.isBlank =
          sign' :: cs.rdropWhile Text.isBlank := fun cs => by
        rw [← Text.trim_cons (hblank sign' (by simp)), Text.trim,
          List.dropWhile_cons_of_neg (by simp [hblank sign']), List.rdropWhile]
      simp [hkeep, isUnsignedDecimal_sign hsign']

end ScriptBlocks
