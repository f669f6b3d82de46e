import Mathlib
import ScriptBlocks.Token.Lexer

/-!
# Tokens tile the source

The characters of a source are cut into blanks and the texts of its tokens, one after the other. What
a token says is determined by the text that it covers, and its place by the characters before it.
-/
namespace ScriptBlocks

/-! ## Places -/

/-- The line and the column of a range are those of its start: lines are counted by the newlines before
it, columns from the last of these or from the start of the source. -/
structure Located (source : List Char) (s : Span) : Prop where
  line : s.line = 1 + (source.take s.offset).count '\n'
  first : '\n' ∉ source.take s.offset → s.column = s.offset + 1
  later : ∀ before line, source.take s.offset = before ++ '\n' :: line → '\n' ∉ line →
    s.column = s.offset - before.length

namespace Position

theorem line_after (p : Position) (cs : List Char) :
    (p.after cs).line = p.line + cs.count '\n' := by
  induction cs generalizing p with
  | nil => rfl
  | cons c cs ih =>
    rw [after_cons, ih, next]
    by_cases hc : c = '\n'
    · simp only [hc, if_true, List.count_cons_self]
      omega
    · simp only [if_neg hc, List.count_cons_of_ne hc]

theorem column_after (p : Position) {cs : List Char} (h : '\n' ∉ cs) :
    (p.after cs).column = p.column + cs.length := by
  induction cs generalizing p with
  | nil => rfl
  | cons c cs ih =>
    rw [List.mem_cons, not_or] at h
    have hcolumn : (p.next c).column = p.column + 1 := by rw [next, if_neg (Ne.symm h.1)]
    rw [after_cons, ih (p.next c) h.2, hcolumn, List.length_cons]
    omega

theorem column_after_newline (p : Position) (before : List Char) {line : List Char}
    (h : '\n' ∉ line) : (p.after (before ++ '\n' :: line)).column = 1 + line.length := by
  rw [after_append, after_cons, column_after _ h, next, if_pos rfl]

/-- A range that starts after some characters of the source is located there. -/
theorem located_span (before rest : List Char) (length : Nat) :
    Located (before ++ rest) ((Position.start.after before).span length) := by
  have hoffset : ((Position.start.after before).span length).offset = before.length := by
    simp [span, start]
  have htake : (before ++ rest).take ((Position.start.after before).span length).offset = before := by
    rw [hoffset, List.take_left]
  refine ⟨?_, fun h => ?_, fun first line h hline => ?_⟩
  · rw [htake]
    exact line_after start before
  · rw [htake] at h
    rw [hoffset]
    exact (column_after start h).trans (Nat.add_comm _ _)
  · rw [htake] at h
    have hcolumn : ((Position.start.after before).span length).column = 1 + line.length := by
      rw [h]
      exact column_after_newline start first hline
    have hlength : before.length = first.length + (line.length + 1) := by simp [h]
    omega

end Position

/-- The characters of a source that a range covers. -/
def Span.slice (s : Span) (source : List Char) : List Char :=
  (source.drop s.offset).take s.length

namespace Token

/-! ## What a token covers -/

/-- The value of what stands between the quotes of a string. -/
def unescapeAll : List Char → List Char
  | [] => []
  | '\\' :: c :: rest => unescape c :: unescapeAll rest
  | c :: rest => c :: unescapeAll rest

/-- A token of this kind that covers these characters has this value. -/
def Denotes (kind : TokenKind) (covered value : List Char) : Prop :=
  match kind with
  | .string => ∃ inner, covered = '"' :: (inner ++ ['"']) ∧ value = unescapeAll inner
  | .color => value = covered.map Char.toLower
  | .comment => ∃ inner, value = Text.trim inner ∧
      (covered = '/' :: '/' :: inner ∨ covered = '/' :: '*' :: (inner ++ ['*', '/']))
  | .endOfFile => False
  | _ => value = covered

/-- A reading covers the first characters of the rest, and they determine its value. -/
def Reading.Exact (r : Reading) (c : Char) (rest : List Char) : Prop :=
  r.covered ≤ rest.length ∧ Denotes r.kind (c :: rest.take r.covered) r.text

section

variable {c : Char} {rest value : List Char} {n : Nat} {r : Reading}

theorem take_takeWhile (p : Char → Bool) (cs : List Char) :
    cs.take (cs.takeWhile p).length = cs.takeWhile p :=
  (List.prefix_iff_eq_take.1 (List.takeWhile_prefix p)).symm

theorem readQuoted_covers {cs : List Char} (h : readQuoted cs = .ok (value, n)) :
    n ≤ cs.length ∧ ∃ inner, cs.take n = inner ++ ['"'] ∧ value = unescapeAll inner := by
  fun_induction readQuoted cs generalizing value n with
  | case1 => cases h
  | case2 => cases h
  | case3 c rest value' covered hread ih =>
    cases h
    obtain ⟨hle, inner, htake, rfl⟩ := ih hread
    refine ⟨by simpa using hle, '\\' :: c :: inner, ?_, by rw [unescapeAll]⟩
    simp [htake]
  | case4 => cases h
  | case5 =>
    cases h
    exact ⟨by simp, [], by simp, rfl⟩
  | case6 => cases h
  | case7 c rest hlone hescape hquote hline value' covered hread ih =>
    cases h
    obtain ⟨hle, inner, htake, rfl⟩ := ih hread
    have hc : c ≠ '\\' := by
      intro hc
      cases rest with
      | nil => exact hlone hc rfl
      | cons d rest => exact hescape d rest hc rfl
    refine ⟨by simpa using hle, c :: inner, by simp [htake], ?_⟩
    rw [unescapeAll]
    exact fun _ _ h _ => hc h
  | case8 => cases h

theorem readBlockComment_covers {cs inner : List Char} (h : readBlockComment? cs = some inner) :
    inner.length + 2 ≤ cs.length ∧ cs.take (inner.length + 2) = inner ++ ['*', '/'] := by
  fun_induction readBlockComment? cs generalizing inner with
  | case1 => cases h
  | case2 =>
    cases h
    simp
  | case3 c rest _ ih =>
    obtain ⟨inner', hread, rfl⟩ := Option.map_eq_some_iff.1 h
    obtain ⟨hle, htake⟩ := ih hread
    simp [htake]
    omega

theorem readNumberTail_starts (c : Char) (rest : List Char) : readNumberTail c rest <+: rest := by
  have hwhole : rest.takeWhile Char.isDigit <+: rest := List.takeWhile_prefix _
  rw [readNumberTail]
  split
  · exact hwhole
  · split
    next d more hpoint =>
      split
      · refine ⟨(d :: more).dropWhile Char.isDigit, ?_⟩
        rw [List.append_assoc, List.cons_append, List.takeWhile_append_dropWhile, ← hpoint,
          List.takeWhile_append_dropWhile]
      · exact hwhole
    next => exact hwhole

theorem exact_of_starts {kind : TokenKind} {tail : List Char} (h : tail <+: rest)
    (hkind : Denotes kind (c :: tail) (c :: tail)) :
    Reading.Exact ⟨kind, c :: tail, tail.length⟩ c rest := by
  refine ⟨h.length_le, ?_⟩
  rwa [← List.prefix_iff_eq_take.1 h]

theorem readName_exact (c : Char) (rest : List Char) : (readName c rest).Exact c rest := by
  refine exact_of_starts (List.takeWhile_prefix _) ?_
  split <;> rfl

theorem readColor_exact (h : readColor rest = .ok r) : r.Exact '#' rest := by
  rw [readColor] at h
  split at h
  next hlength =>
    cases h
    have htake := take_takeWhile isHexDigit rest
    rw [hlength] at htake
    refine ⟨hlength ▸ (List.takeWhile_prefix _).length_le, ?_⟩
    simp only [Denotes, htake, List.map_cons]
    rfl
  next => cases h

theorem readString_exact (h : readString rest = .ok r) : r.Exact '"' rest := by
  rw [readString] at h
  split at h
  next value covered hread =>
    cases h
    obtain ⟨hle, inner, htake, hvalue⟩ := readQuoted_covers hread
    exact ⟨hle, inner, by rw [htake], hvalue⟩
  next => cases h

theorem readOperator_exact (c : Char) (rest : List Char) : (readOperator c rest).Exact c rest := by
  unfold readOperator
  split
  · exact ⟨by simp, by simp [Denotes]⟩
  · exact ⟨by simp, by simp [Denotes]⟩

theorem readDoubled_exact (h : readDoubled c rest = .ok r) : r.Exact c rest := by
  rw [readDoubled] at h
  split at h
  next hhead =>
    cases h
    obtain ⟨tail, rfl⟩ := List.head?_eq_some_iff.1 hhead
    exact ⟨by simp, by simp [Denotes]⟩
  next => cases h

theorem readComment_exact (h : readComment? rest = some (.ok r)) : r.Exact '/' rest := by
  rw [readComment?.eq_def] at h
  split at h
  next rest =>
    cases h
    have hstarts : rest.takeWhile (· ≠ '\n') <+: rest := List.takeWhile_prefix _
    refine ⟨by simpa using hstarts.length_le, rest.takeWhile (· ≠ '\n'), rfl, .inl ?_⟩
    simp only [List.take_succ_cons, take_takeWhile]
  next rest =>
    split at h
    next contents hread =>
      cases h
      obtain ⟨hle, htake⟩ := readBlockComment_covers hread
      refine ⟨by simpa using hle, contents, rfl, .inr ?_⟩
      simp only [List.take_succ_cons, htake]
    next => cases h
  next => cases h

theorem punctuation_denotes {kind : TokenKind} (h : punctuation? c = some kind) :
    Denotes kind [c] [c] := by
  unfold punctuation? at h
  repeat' split at h
  all_goals cases h
  all_goals rfl

/-- Every token covers a text that determines its value. -/
theorem read_exact (h : read c rest = .ok r) : r.Exact c rest := by
  rw [read] at h
  split at h
  next comment hcomment =>
    split at hcomment
    next hc =>
      subst hc h
      exact readComment_exact hcomment
    next => cases hcomment
  split at h
  next hc =>
    subst hc
    exact readString_exact h
  split at h
  next hc =>
    subst hc
    exact readColor_exact h
  split at h
  next =>
    cases h
    exact exact_of_starts (readNumberTail_starts c rest) rfl
  split at h
  next =>
    cases h
    exact readName_exact c rest
  split at h
  next =>
    cases h
    exact readOperator_exact c rest
  split at h
  next => exact readDoubled_exact h
  split at h
  next kind hkind =>
    cases h
    exact ⟨Nat.zero_le _, punctuation_denotes hkind⟩
  next => cases h

theorem readComment?_kind (h : readComment? rest = some (.ok r)) : r.kind = .comment := by
  unfold readComment? at h
  split at h
  · cases h
    rfl
  · split at h <;> cases h
    rfl
  · cases h

theorem punctuation?_kind {kind : TokenKind} (h : punctuation? c = some kind) :
    kind ≠ .number ∧ kind ≠ .identifier := by
  unfold punctuation? at h
  repeat' split at h
  all_goals cases h
  all_goals simp

/-- What is read is a number, a name, or neither. -/
theorem read_cases (h : read c rest = .ok r) :
    (c.isDigit = true ∨ c = '.' ∧ ∃ d ∈ rest.head?, d.isDigit = true) ∧
        r = ⟨.number, c :: readNumberTail c rest, (readNumberTail c rest).length⟩ ∨
      startsName c = true ∧ r = readName c rest ∨ r.kind ≠ .number ∧ r.kind ≠ .identifier := by
  rw [read] at h
  split at h
  next comment hcomment =>
    split at hcomment
    next =>
      subst h
      simp [readComment?_kind hcomment]
    next => cases hcomment
  split at h
  next =>
    unfold readString at h
    split at h <;> cases h
    simp
  split at h
  next =>
    simp only [readColor] at h
    split at h <;> cases h
    simp
  split at h
  next hc =>
    cases h
    refine .inl ⟨?_, rfl⟩
    cases rest <;> simpa using hc
  split at h
  next hc =>
    cases h
    exact .inr (.inl ⟨hc, rfl⟩)
  split at h
  next =>
    cases h
    unfold readOperator
    split <;> simp
  split at h
  next =>
    unfold readDoubled at h
    split at h <;> cases h
    simp
  split at h
  next kind hkind =>
    cases h
    exact .inr (.inr (punctuation?_kind hkind))
  next => cases h

end

/-! ## Cutting a source into tokens -/

/-- Characters that follow some others are cut into blanks and the texts that the tokens cover, up to
the end of the file. -/
inductive Tiled : List Char → List Char → List Token → Prop
  | stop (before : List Char) :
      Tiled before [] [⟨.endOfFile, "", (Position.start.after before).span 1⟩]
  | blank {before rest : List Char} {c : Char} {tokens : List Token} (hc : isSkipped c = true)
      (h : Tiled (before ++ [c]) rest tokens) : Tiled before (c :: rest) tokens
  | token {before covered rest : List Char} {kind : TokenKind} {text : String} {tokens : List Token}
      (hne : covered ≠ []) (hvalue : Denotes kind covered text.toList)
      (hread : ∃ c cs r, covered ++ rest = c :: cs ∧ read c cs = .ok r ∧ kind = r.kind ∧
        text = String.ofList r.text)
      (h : Tiled (before ++ covered) rest tokens) :
      Tiled before (covered ++ rest)
        (⟨kind, text, (Position.start.after before).span covered.length⟩ :: tokens)

theorem scan_tiled {p : Position} {cs before : List Char} {tokens : List Token}
    (hp : p = Position.start.after before) (h : scan p cs = .ok tokens) :
    Tiled before cs tokens := by
  fun_induction scan p cs generalizing before tokens with
  | case1 p =>
    cases h
    rw [hp]
    exact .stop before
  | case2 p c rest hc ih =>
    refine .blank hc (ih ?_ h)
    rw [hp, Position.after_append]
    rfl
  | case3 => cases h
  | case4 p c rest hc reading hread token =>
    rename_i stop ih
    have hstop : stop = Position.start.after (before ++ c :: rest.take reading.covered) := by
      rw [Position.after_append, ← hp, Position.after_cons]
    cases htail : scan stop (rest.drop reading.covered) with
    | error e => simp [htail, Except.map] at h
    | ok tail =>
      simp only [htail, Except.map, Except.ok.injEq] at h
      subst h
      obtain ⟨hle, hvalue⟩ := read_exact hread
      have hlength : (c :: rest.take reading.covered).length = reading.covered + 1 := by
        simp [hle]
      rw [← String.toList_ofList (l := reading.text)] at hvalue
      have hwhole : c :: rest.take reading.covered ++ rest.drop reading.covered = c :: rest := by
        rw [List.cons_append, List.take_append_drop]
      have htiled := Tiled.token (List.cons_ne_nil c _) hvalue
        ⟨c, rest, reading, hwhole, hread, rfl, rfl⟩ (ih hstop htail)
      rwa [hlength, ← hp, hwhole] at htiled

/-- An error stands at a character of the source from which on nothing can be read. -/
theorem scan_error {p : Position} {cs before : List Char} {e : LexError}
    (hp : p = Position.start.after before) (h : scan p cs = .error e) :
    ∃ inner c rest failure, cs = inner ++ c :: rest ∧ read c rest = .error failure ∧
      e.span = (Position.start.after (before ++ inner)).span (failure.covered + 1) := by
  fun_induction scan p cs generalizing before e with
  | case1 => cases h
  | case2 p c rest hc ih =>
    have hnext : p.next c = Position.start.after (before ++ [c]) := by
      rw [hp, Position.after_append]
      rfl
    obtain ⟨inner, d, rest', failure, rfl, hread, hspan⟩ := ih hnext h
    exact ⟨c :: inner, d, rest', failure, rfl, hread, by simpa using hspan⟩
  | case3 p c rest hc failure hread =>
    cases h
    exact ⟨[], c, rest, failure, rfl, hread, by rw [List.append_nil, hp]⟩
  | case4 p c rest hc reading hread token =>
    rename_i stop ih
    have hstop : stop = Position.start.after (before ++ c :: rest.take reading.covered) := by
      rw [Position.after_append, ← hp, Position.after_cons]
    have herror : scan stop (rest.drop reading.covered) = .error e := by
      cases htail : scan stop (rest.drop reading.covered) with
      | error e' => simpa [htail, Except.map] using h
      | ok tail => simp [htail, Except.map] at h
    obtain ⟨inner, d, rest', failure, hdrop, hfail, hspan⟩ := ih hstop herror
    refine ⟨c :: rest.take reading.covered ++ inner, d, rest', failure, ?_, hfail, ?_⟩
    · rw [List.cons_append, List.cons_append, List.append_assoc, ← hdrop, List.take_append_drop]
    · rw [hspan, List.append_assoc]

theorem offset_start_after (before : List Char) (length : Nat) :
    ((Position.start.after before).span length).offset = before.length := by
  simp [Position.span, Position.start]

/-! ## Ranges -/

/-- The tokens tile the source. Their ranges are inside it, one after the other, and leave out nothing
but blanks; the end of the file stands after it. Every place is the one of its offset, and every value
the one of the characters that are covered. -/
structure Tiling (source : List Char) (tokens : List Token) : Prop where
  ends : ∃ inner stop, tokens = inner ++ [stop] ∧ (∀ t ∈ inner, t.kind ≠ .endOfFile) ∧
    stop.kind = .endOfFile ∧ stop.text = "" ∧ stop.span.offset = source.length ∧
    stop.span.length = 1
  within : ∀ t ∈ tokens, t.kind ≠ .endOfFile → 0 < t.span.length ∧ t.span.stop ≤ source.length
  increasing : tokens.Pairwise fun t u =>
    t.span.offset < u.span.offset ∧ t.span.stop ≤ u.span.offset
  blanks : ∀ i c, source[i]? = some c →
    (∀ t ∈ tokens, ¬ (t.span.offset ≤ i ∧ i < t.span.stop)) →
      c = ' ' ∨ c = '\t' ∨ c = '\r' ∨ c = Char.ofNat 0xFEFF
  located : ∀ t ∈ tokens, Located source t.span
  value : ∀ t ∈ tokens, t.kind ≠ .endOfFile →
    Denotes t.kind (t.span.slice source) t.text.toList

section

variable {before cs : List Char} {tokens : List Token}

theorem stop_start_after (before : List Char) (length : Nat) :
    ((Position.start.after before).span length).stop = before.length + length := by
  simp [Position.span, Position.start, Span.stop]

namespace Tiled

theorem offset_ge (h : Tiled before cs tokens) : ∀ t ∈ tokens, before.length ≤ t.span.offset := by
  induction h with
  | stop before => simp [offset_start_after]
  | blank hc h ih =>
    intro t ht
    have := ih t ht
    simp only [List.length_append] at this
    omega
  | token hne hvalue hread h ih =>
    refine List.forall_mem_cons.2 ⟨Nat.le_of_eq (offset_start_after _ _).symm, fun t ht => ?_⟩
    have := ih t ht
    simp only [List.length_append] at this
    omega

/-- A token is what is read at its place. -/
theorem exists_read (h : Tiled before cs tokens) : ∀ t ∈ tokens, t.kind ≠ .endOfFile →
    ∃ c rest r, read c rest = .ok r ∧ t.kind = r.kind ∧ t.text = String.ofList r.text ∧
      (before ++ cs).drop t.span.offset = c :: rest := by
  induction h with
  | stop before => simp
  | blank hc h ih => simpa using ih
  | @token before covered rest kind text tokens hne hvalue hread h ih =>
    rw [List.append_assoc] at ih
    refine List.forall_mem_cons.2 ⟨fun _ => ?_, ih⟩
    obtain ⟨c, cs, r, hwhole, hread, hkind, htext⟩ := hread
    exact ⟨c, cs, r, hread, hkind, htext, by rw [offset_start_after, List.drop_left, hwhole]⟩

theorem ends (h : Tiled before cs tokens) : ∃ inner stop, tokens = inner ++ [stop] ∧
    (∀ t ∈ inner, t.kind ≠ .endOfFile) ∧ stop.kind = .endOfFile ∧ stop.text = "" ∧
    stop.span.offset = (before ++ cs).length ∧ stop.span.length = 1 := by
  induction h with
  | stop before =>
    refine ⟨[], _, rfl, by simp, rfl, rfl, ?_, rfl⟩
    rw [offset_start_after, List.append_nil]
  | blank hc h ih => simpa using ih
  | @token before covered rest kind text tokens hne hvalue hread h ih =>
    obtain ⟨inner, stop, rfl, hinner, hstop⟩ := ih
    refine ⟨_ :: inner, stop, rfl, List.forall_mem_cons.2 ⟨?_, hinner⟩, ?_⟩
    · intro hkind
      obtain rfl : kind = .endOfFile := hkind
      exact hvalue
    · rwa [List.append_assoc] at hstop

theorem within (h : Tiled before cs tokens) : ∀ t ∈ tokens, t.kind ≠ .endOfFile →
    0 < t.span.length ∧ t.span.stop ≤ (before ++ cs).length := by
  induction h with
  | stop before => simp
  | blank hc h ih => simpa using ih
  | @token before covered rest kind text tokens hne hvalue hread h ih =>
    rw [List.append_assoc] at ih
    refine List.forall_mem_cons.2 ⟨fun _ => ⟨List.length_pos_iff.2 hne, ?_⟩, ih⟩
    simp only [stop_start_after, List.length_append]
    omega

theorem increasing (h : Tiled before cs tokens) : tokens.Pairwise fun t u =>
    t.span.offset < u.span.offset ∧ t.span.stop ≤ u.span.offset := by
  induction h with
  | stop before => exact List.pairwise_singleton _ _
  | blank hc h ih => exact ih
  | @token before covered rest kind text tokens hne hvalue hread h ih =>
    refine List.pairwise_cons.2 ⟨fun u hu => ?_, ih⟩
    have hu := h.offset_ge u hu
    have hpos := List.length_pos_iff.2 hne
    rw [List.length_append] at hu
    rw [offset_start_after, stop_start_after]
    omega

theorem located (h : Tiled before cs tokens) : ∀ t ∈ tokens, Located (before ++ cs) t.span := by
  induction h with
  | stop before => simpa using Position.located_span before [] 1
  | blank hc h ih => simpa using ih
  | token hne hvalue hread h ih =>
    rw [List.append_assoc] at ih
    exact List.forall_mem_cons.2 ⟨Position.located_span _ _ _, ih⟩

theorem value (h : Tiled before cs tokens) : ∀ t ∈ tokens, t.kind ≠ .endOfFile →
    Denotes t.kind (t.span.slice (before ++ cs)) t.text.toList := by
  induction h with
  | stop before => simp
  | blank hc h ih => simpa using ih
  | @token before covered rest kind text tokens hne hvalue hread h ih =>
    rw [List.append_assoc] at ih
    refine List.forall_mem_cons.2 ⟨fun _ => ?_, ih⟩
    rwa [Span.slice, offset_start_after, List.drop_left, Position.span, List.take_left]

theorem blanks (h : Tiled before cs tokens) {i : Nat} {c : Char} (hi : before.length ≤ i)
    (hc : (before ++ cs)[i]? = some c)
    (hout : ∀ t ∈ tokens, ¬ (t.span.offset ≤ i ∧ i < t.span.stop)) : isSkipped c = true := by
  induction h with
  | stop before => simp [List.getElem?_eq_none hi] at hc
  | @blank before rest d tokens hd h ih =>
    rcases Nat.eq_or_lt_of_le hi with rfl | hlt
    · rw [List.getElem?_append_right hi, Nat.sub_self] at hc
      cases hc
      exact hd
    · exact ih (by simpa using Nat.succ_le_of_lt hlt) (by simpa using hc) hout
  | @token before covered rest kind text tokens hne hvalue hread h ih =>
    obtain ⟨hfirst, hrest⟩ := List.forall_mem_cons.1 hout
    rw [offset_start_after, stop_start_after] at hfirst
    refine ih ?_ (by simpa using hc) hrest
    rw [List.length_append]
    omega

end Tiled

end

/-- Tokens tile the source, and the error of a source without tokens stands inside it. -/
theorem ofSource_tiling (source : String) :
    (∀ tokens, ofSource source = .ok tokens → Tiling source.toList tokens) ∧
    (∀ e, ofSource source = .error e →
      e.span.offset < source.toList.length ∧ Located source.toList e.span) := by
  refine ⟨fun tokens h => ?_, fun e h => ?_⟩
  · have htiled : Tiled [] source.toList tokens := scan_tiled rfl h
    refine ⟨htiled.ends, htiled.within, htiled.increasing, fun i c hc hout => ?_, htiled.located,
      htiled.value⟩
    have hskipped := htiled.blanks (Nat.zero_le i) hc hout
    simpa [isSkipped, or_assoc] using hskipped
  · have hstart : Position.start = Position.start.after [] := rfl
    obtain ⟨inner, c, rest, failure, hsource, -, hspan⟩ := scan_error hstart h
    rw [hsource, hspan]
    refine ⟨?_, Position.located_span inner (c :: rest) _⟩
    rw [List.nil_append, offset_start_after]
    simp

/-- A name, a string with an escape and a comment on three lines, and a string without its quote. -/
theorem ofSource_tiling_string :
    Tiling "x\n \"a\\nb\"\n// hi ".toList [⟨.identifier, "x", ⟨1, 1, 0, 1⟩⟩,
        ⟨.newline, "\n", ⟨1, 2, 1, 1⟩⟩, ⟨.string, "a\nb", ⟨2, 2, 3, 6⟩⟩,
        ⟨.newline, "\n", ⟨2, 8, 9, 1⟩⟩, ⟨.comment, "hi", ⟨3, 1, 10, 6⟩⟩,
        ⟨.endOfFile, "", ⟨3, 7, 16, 1⟩⟩] ∧
      Located "a\n \"b".toList ⟨2, 2, 3, 2⟩ :=
  ⟨(ofSource_tiling "x\n \"a\\nb\"\n// hi ").1 _ (by cbv),
    ((ofSource_tiling "a\n \"b").2 ⟨.unterminatedString, ⟨2, 2, 3, 2⟩⟩ (by cbv)).2⟩

end Token
end ScriptBlocks
