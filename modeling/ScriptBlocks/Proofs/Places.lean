import ScriptBlocks.SourceError
import ScriptBlocks.Proofs.Readers
import ScriptBlocks.Proofs.Tiling

/-!
# Places in the source

The tokens of a source follow each other, so that all ranges of its program lie in the source and have
the line and the column of their start. The same holds of the range of an error, whether it stands at
characters that form no token or at a token that the grammar does not expect.
-/
namespace ScriptBlocks

variable {Q : Span → Prop} {rest : List Char} {f : Failure} {program : Program}

/-- The range lies in the source, with the end of the file as one more character, and its line and its
column are those of its start. -/
structure Span.InSource (source : List Char) (s : Span) : Prop where
  offset : s.offset ≤ source.length
  stop : s.stop ≤ source.length + 1
  located : Located source s

/-- Joining ranges keeps the start of the first. -/
theorem Span.closed_inSource (source : List Char) : Span.Closed (Span.InSource source) := by
  intro s t hs ht
  refine ⟨hs.offset, ?_, ⟨hs.located.line, hs.located.first, hs.located.later⟩⟩
  have hstop := hs.stop
  have htstop := ht.stop
  have hstart : s.offset ≤ s.stop := Nat.le_add_right _ _
  rw [Span.stop_through]
  omega

/-! ## Tokens -/

namespace Token

variable {source : List Char} {tokens : List Token}

theorem Tiled.inSource (h : Tiled [] source tokens) :
    ∀ t ∈ tokens, 0 < t.span.length ∧ t.span.InSource source := by
  intro t ht
  have hlocated : Located source t.span := h.located t ht
  by_cases hkind : t.kind = .endOfFile
  · obtain ⟨inner, stop, rfl, hinner, -, -, hoffset, hlength⟩ := h.ends
    rcases List.mem_append.1 ht with ht | ht
    · exact absurd hkind (hinner t ht)
    · rw [List.mem_singleton.1 ht] at hlocated ⊢
      exact ⟨by omega, Nat.le_of_eq hoffset, by rw [Span.stop, hoffset, hlength]; rfl, hlocated⟩
  · obtain ⟨hlength, hstop⟩ := h.within t ht hkind
    rw [List.nil_append] at hstop
    have hoffset : t.span.offset ≤ t.span.stop := Nat.le_add_right _ _
    exact ⟨hlength, by omega, by omega, hlocated⟩

theorem Tiled.endsOnce (h : Tiled [] source tokens) : EndsOnce tokens := by
  obtain ⟨inner, stop, rfl, hinner, hstop, -⟩ := h.ends
  exact ⟨inner, stop, rfl, hinner, hstop⟩

theorem sequel_of_increasing {b : Nat} (hfirst : ∀ t ∈ tokens.head?, b ≤ t.span.offset)
    (h : tokens.Pairwise fun t u => t.span.offset < u.span.offset ∧ t.span.stop ≤ u.span.offset)
    (hQ : ∀ t ∈ tokens, 0 < t.span.length ∧ Q t.span) : Sequel Q b tokens := by
  induction tokens generalizing b with
  | nil => trivial
  | cons t tokens ih =>
    obtain ⟨ht, hrest⟩ := List.pairwise_cons.1 h
    obtain ⟨hQt, hQrest⟩ := List.forall_mem_cons.1 hQ
    refine ⟨⟨hfirst t rfl, hQt.1, hQt.2⟩, ih (fun u hu => ?_) hrest hQrest⟩
    exact (ht u (List.mem_of_mem_head? hu)).2

/-! ## Characters that form no token -/

theorem readQuoted_error {cs : List Char} {n : Nat} (h : readQuoted cs = .error n) :
    n ≤ cs.length := by
  fun_induction readQuoted cs generalizing n with
  | case1 =>
    cases h
    rfl
  | case2 =>
    cases h
    rfl
  | case3 => cases h
  | case4 c rest covered hread ih =>
    cases h
    simpa using ih hread
  | case5 => cases h
  | case6 =>
    cases h
    simp
  | case7 => cases h
  | case8 c rest hlone hescape hquote hline covered hread ih =>
    cases h
    simpa using ih hread

theorem readComment_error (h : readComment? rest = some (.error f)) : f.covered ≤ rest.length := by
  rw [readComment?.eq_def] at h
  split at h
  next => cases h
  next =>
    split at h
    next => cases h
    next =>
      cases h
      simp
  next => cases h

/-- No more characters are looked through than there are. -/
theorem read_error {c : Char} (h : read c rest = .error f) : f.covered ≤ rest.length := by
  rw [read] at h
  split at h
  next comment hcomment =>
    split at hcomment
    next =>
      subst h
      exact readComment_error hcomment
    next => cases hcomment
  split at h
  next =>
    rw [readString] at h
    split at h
    next => cases h
    next hread =>
      cases h
      exact readQuoted_error hread
  split at h
  next =>
    rw [readColor] at h
    split at h
    next => cases h
    next =>
      cases h
      exact (List.takeWhile_prefix _).length_le
  split at h
  next => cases h
  split at h
  next => cases h
  split at h
  next => cases h
  split at h
  next =>
    rw [readDoubled] at h
    split at h
    next => cases h
    next =>
      cases h
      exact Nat.zero_le _
  split at h
  next => cases h
  next =>
    cases h
    exact Nat.zero_le _

theorem inSource_of_error {source : String} {e : LexError} (h : ofSource source = .error e) :
    e.span.InSource source.toList := by
  have hstart : Position.start = Position.start.after [] := rfl
  obtain ⟨inner, c, rest, failure, hsource, hread, hspan⟩ := scan_error hstart h
  have hcovered := read_error hread
  rw [hsource, hspan]
  refine ⟨?_, ?_, Position.located_span inner (c :: rest) _⟩
  · rw [List.nil_append, offset_start_after]
    simp
  · rw [List.nil_append, stop_start_after, List.length_append, List.length_cons]
    omega

end Token

/-! ## Programs -/

namespace Program

variable {source : String} {tokens : List Token}

/-- A program starts at the first token and ends with the end of the file. -/
theorem exists_first (h : ofTokens tokens = .ok program) :
    ∃ first, (tokens.takeWhile (fun t => t.kind ≠ .endOfFile) ++ [endToken tokens]).head? =
      some first ∧ program.span = first.span.through (endToken tokens).span := by
  rw [ofTokens] at h
  split at h
  next =>
    cases h
    refine ⟨_, ?_, rfl⟩
    cases tokens.takeWhile fun t => t.kind ≠ .endOfFile <;> rfl
  next => cases h

/-- A program that is read from tokens one after the other, up to the end of the file. -/
theorem nodes_tidy_of_tokens (hQ : Span.Closed Q) (hends : EndsOnce tokens)
    (hincreasing : tokens.Pairwise fun t u =>
      t.span.offset < u.span.offset ∧ t.span.stop ≤ u.span.offset)
    (htokens : ∀ t ∈ tokens, 0 < t.span.length ∧ Q t.span) (h : ofTokens tokens = .ok program) :
    ∀ n ∈ program.nodes, n.Tidy Q := by
  obtain ⟨-, hspells⟩ := spells_of_ofTokens h
  obtain ⟨first, hhead, hspan⟩ := exists_first h
  have hsplit := hends.takeWhile
  generalize tokens.takeWhile (fun t => t.kind ≠ .endOfFile) = inner at *
  generalize endToken tokens = stop at *
  subst hsplit
  have hmem : first ∈ inner ++ [stop] := List.mem_of_mem_head? hhead
  have hsequel : Sequel Q first.span.offset (inner ++ [stop]) := by
    refine Token.sequel_of_increasing (fun t ht => ?_) hincreasing htokens
    rw [hhead] at ht
    cases ht
    exact Nat.le_refl _
  obtain ⟨hinner, hstop, -⟩ := sequel_append.1 hsequel
  -- the row starts empty before the first token, and the end of the file adds nothing to it
  have hbody := (hspells.row hQ (.nil (Nat.le_refl _)) hinner).skip hstop
  rw [List.nil_append] at hbody
  have hwhole : Q (first.span.through stop.span) :=
    hQ (htokens first hmem).2 (htokens stop (by simp)).2
  refine List.forall_mem_cons.2 ⟨?_, ?_⟩
  · have hle : stop.span.stop ≤ (first.span.through stop.span).stop := by
      rw [Span.stop_through]
      exact Nat.le_max_left _ _
    rw [hspan]
    refine Row.tidy_node (hbody.mono hle) hwhole ?_
    rw [Statement.map_span_pieces]
  · rw [Statement.nodesAll_eq_flatMap, List.forall_mem_flatMap]
    exact fun statement hs => (hbody.tidy _ (List.mem_map_of_mem hs)).2.2

theorem nodes_tidy (h : ofSource source = .ok program) :
    ∀ n ∈ program.nodes, n.Tidy (Span.InSource source.toList) := by
  rw [ofSource] at h
  split at h
  next => cases h
  next tokens hlex =>
    have htiled : Token.Tiled [] source.toList tokens := Token.scan_tiled rfl hlex
    split at h
    next => cases h
    next hparse =>
      cases h
      exact nodes_tidy_of_tokens (Span.closed_inSource _) htiled.endsOnce htiled.increasing
        htiled.inSource hparse

theorem inSource_of_error {e : SourceError} (h : ofSource source = .error e) :
    e.span.InSource source.toList := by
  rw [ofSource] at h
  split at h
  next hlex =>
    cases h
    exact Token.inSource_of_error hlex
  next tokens hlex =>
    have htiled : Token.Tiled [] source.toList tokens := Token.scan_tiled rfl hlex
    split at h
    next cause hparse =>
      cases h
      obtain ⟨before, t, after, s, rfl, -, -, hspan⟩ :=
        Parser.run_error (htiled.endsOnce.run_of_error hparse)
      show cause.span.InSource _
      rw [hspan]
      exact (htiled.inSource t (by simp)).2
    next => cases h

end Program
end ScriptBlocks
