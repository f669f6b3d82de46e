import ScriptBlocks.Proofs.Descent
import ScriptBlocks.Proofs.Prefixes

/-!
# Following the parser

The reader that descends and the parser that takes one token at a time are followed side by side. From
an index and a state they stay together: one is refused where the other is, and what is read takes the
parser to a state that is described. The rules below put such steps together, with an invariant for
loops.
-/

namespace ScriptBlocks

variable {skipped : Token → Bool}

namespace Descent

open ScriptBlocks.Parser

variable {α β : Type} {tokens rest taken : List Token} {t : Token} {i : Nat} {s w : State}

/-! ## The tokens ahead -/

/-- The tokens from the index up to the end of the file. -/
structure Ahead (tokens : List Token) (i : Nat) (rest : List Token) : Prop where
  once : EndsOnce rest
  here : rest <+: tokens.drop i

namespace Ahead

theorem length_le (h : Ahead tokens i rest) : i + rest.length ≤ tokens.length := by
  obtain ⟨before, stop, rfl, -⟩ := h.once
  have hlength := h.here.length_le
  simp only [List.length_drop, List.length_append, List.length_singleton] at hlength ⊢
  omega

theorem getElem?_append (taken : List Token) (h : Ahead tokens i (taken ++ t :: rest)) :
    tokens[i + taken.length]? = some t := by
  obtain ⟨tail, htail⟩ := h.here
  rw [← List.getElem?_drop, ← htail]
  simp

theorem getElem? (h : Ahead tokens i (t :: rest)) : tokens[i]? = some t :=
  getElem?_append [] h

theorem append (taken : List Token) (h : Ahead tokens i (taken ++ t :: rest)) :
    Ahead tokens (i + taken.length) (t :: rest) := by
  refine ⟨?_, ?_⟩
  · obtain ⟨before, stop, heq, hbefore, hstop⟩ := h.once
    obtain ⟨before', rfl⟩ : ∃ before', before = taken ++ before' := by
      rcases List.append_eq_append_iff.1 heq with ⟨c, rfl, -⟩ | ⟨c, rfl, hc⟩
      · exact ⟨c, rfl⟩
      · cases c with
        | nil => exact ⟨[], by simp⟩
        | cons x c => simp at hc
    rw [List.append_assoc] at heq
    exact ⟨before', stop, List.append_cancel_left heq, (noEnd_append.1 hbefore).2, hstop⟩
  · obtain ⟨tail, htail⟩ := h.here
    refine ⟨tail, ?_⟩
    rw [← List.drop_drop, ← htail, List.append_assoc, List.drop_left]

theorem next (h : Ahead tokens i (t :: rest)) (ht : t.kind ≠ .endOfFile) :
    Ahead tokens (i + 1) rest := by
  obtain ⟨before, stop, heq, -, hstop⟩ := h.once
  cases rest with
  | nil =>
    cases before with
    | nil =>
      cases heq
      exact absurd hstop ht
    | cons b before => simp at heq
  | cons u rest => exact append [t] h

theorem exists_cons (h : Ahead tokens i rest) : ∃ t rest', rest = t :: rest' := by
  obtain ⟨before, stop, rfl, -⟩ := h.once
  cases before with
  | nil => exact ⟨_, _, rfl⟩
  | cons b before => exact ⟨_, _, rfl⟩

end Ahead

/-! ## What single steps read -/

theorem bind_read {m : Descent α} {a : α} {j : Nat} (h : m tokens i = .read a j)
    (f : α → Descent β) : (m >>= f) tokens i = f a tokens j := by
  rw [bind_apply, h]

theorem current_eq (h : Ahead tokens i (t :: rest)) : current tokens i = .read t i := by
  show tokenAt i tokens i = _
  rw [tokenAt, h.getElem?]

theorem Ahead.peek_eq (h : Ahead tokens (i + 1) (t :: rest)) : peek tokens i = .read t i := by
  show tokenAt (i + 1) tokens i = _
  rw [tokenAt, h.getElem?]

theorem advance_eq (h : Ahead tokens i (t :: rest)) (ht : t.kind ≠ .endOfFile) :
    advance tokens i = .read t (i + 1) := by
  have hlength := (h.next ht).length_le
  obtain ⟨u, rest', rfl⟩ := (h.next ht).exists_cons
  simp only [List.length_cons] at hlength
  have hmove : moveOn tokens i = .read () (i + 1) := by
    rw [moveOn, Nat.min_eq_left (by omega)]
  rw [advance, bind_read (current_eq h), bind_read hmove]
  rfl

/-- Tokens are passed over up to the first that is not skipped. -/
theorem skip_eq (hskipped : ∀ t, skipped t = true → t.kind ≠ .endOfFile)
    (h : Ahead tokens i (taken ++ t :: rest)) (htaken : ∀ l ∈ taken, skipped l = true)
    (ht : skipped t = false) :
    loop (skipTurn skipped) () tokens i = .read () (i + taken.length) := by
  have hturns : ∀ n, taken.length < n →
      turns (skipTurn skipped) n () tokens i = .read () (i + taken.length) := by
    intro n hn
    induction taken generalizing i n with
    | nil =>
      obtain ⟨n, rfl⟩ := Nat.exists_eq_succ_of_ne_zero (Nat.ne_of_gt hn)
      have hturn : skipTurn skipped () tokens i = .read (.inr ()) i := by
        rw [skipTurn, bind_read (current_eq h), ht]
        rfl
      rw [turns, bind_read hturn]
      rfl
    | cons l taken ih =>
      obtain ⟨n, rfl⟩ := Nat.exists_eq_succ_of_ne_zero (Nat.ne_of_gt (Nat.zero_lt_of_lt hn))
      have hl := htaken l (by simp)
      have hend := hskipped l hl
      have hturn : skipTurn skipped () tokens i = .read (.inl ()) (i + 1) := by
        rw [skipTurn, bind_read (current_eq h), if_pos hl, bind_read (advance_eq h hend)]
        rfl
      rw [turns, bind_read hturn]
      have hnext := ih (h.next hend) (fun l' hl' => htaken l' (by simp [hl'])) n
        (by simpa using hn)
      rw [Nat.add_right_comm] at hnext
      exact hnext
  have hlength := h.length_le
  simp only [List.length_append, List.length_cons] at hlength
  exact hturns _ (by omega)

/-- There is a first token that is not skipped. -/
theorem Ahead.exists_unskipped (h : Ahead tokens i rest)
    (hskipped : ∀ t, skipped t = true → t.kind ≠ .endOfFile) :
    ∃ taken t rest', rest = taken ++ t :: rest' ∧ (∀ l ∈ taken, skipped l = true) ∧
      skipped t = false := by
  obtain ⟨before, stop, rfl, -, hstop⟩ := h.once
  clear h
  induction before with
  | nil =>
    refine ⟨[], stop, [], rfl, by simp, ?_⟩
    cases hs : skipped stop with
    | false => rfl
    | true => exact absurd hstop (hskipped stop hs)
  | cons b before ih =>
    cases hb : skipped b with
    | false => exact ⟨[], b, _, rfl, by simp, hb⟩
    | true =>
      obtain ⟨taken, t, rest', heq, htaken, ht⟩ := ih
      exact ⟨b :: taken, t, rest', by rw [List.cons_append, heq]; rfl, by simp_all, ht⟩

/-! ## Side by side -/

/-- The reader does what the parser does from the state: it is refused where the parser is, and where
it reads something, the parser goes on after the tokens that were taken from a state with the
property. -/
def Leads (tokens : List Token) (m : Descent α) (i : Nat) (rest : List Token) (s : State)
    (post : α → List Token → List Token → State → Prop) : Prop :=
  match m tokens i with
  | .read a j => ∃ taken rest' s', rest = taken ++ rest' ∧ j = i + taken.length ∧
      Ahead tokens j rest' ∧ run s rest = run s' rest' ∧ post a taken rest' s'
  | .refused e => run s rest = .error e
  | .failed _ => False

namespace Leads

variable {m : Descent α} {f : α → Descent β} {a : α} {cause : ParseCause}
variable {R : α → List Token → List Token → State → Prop}
variable {post : β → List Token → List Token → State → Prop}

theorem pure {b : β} (h : Ahead tokens i rest) (hpost : post b [] rest s) :
    Leads tokens (pure b) i rest s post :=
  ⟨[], rest, s, rfl, rfl, h, rfl, hpost⟩

theorem refuse (hstep : step s t = .error cause) :
    Leads tokens (refuse cause t : Descent β) i (t :: rest) s post := by
  show run s (t :: rest) = _
  rw [run, hstep]

theorem bind (h : Leads tokens m i rest s R)
    (hf : ∀ a taken rest' s', rest = taken ++ rest' → Ahead tokens (i + taken.length) rest' →
      R a taken rest' s' →
      Leads tokens (f a) (i + taken.length) rest' s' fun b taken' => post b (taken ++ taken')) :
    Leads tokens (m >>= f) i rest s post := by
  rw [Leads] at h
  cases hm : m tokens i with
  | failed fault => simp [hm] at h
  | refused e =>
    rw [Leads, bind_apply]
    simpa only [hm] using h
  | read a j =>
    simp only [hm] at h
    obtain ⟨taken, rest', s', rfl, rfl, hahead, hrun, hmid⟩ := h
    have hnext := hf a taken rest' s' rfl hahead hmid
    rw [Leads, bind_read hm]
    rw [Leads] at hnext
    cases hb : f a tokens (i + taken.length) with
    | failed fault => simp [hb] at hnext
    | refused e =>
      simp only [hb] at hnext ⊢
      rw [hrun, hnext]
    | read b j =>
      simp only [hb] at hnext ⊢
      obtain ⟨taken', rest'', s'', rfl, rfl, hahead', hrun', hpost⟩ := hnext
      exact ⟨taken ++ taken', rest'', s'', by simp, by simp [Nat.add_assoc], hahead',
        hrun.trans hrun', hpost⟩

theorem mono {post' : β → List Token → List Token → State → Prop} {m : Descent β}
    (h : Leads tokens m i rest s post)
    (hpost : ∀ b taken rest' s', rest = taken ++ rest' → post b taken rest' s' →
      post' b taken rest' s') : Leads tokens m i rest s post' := by
  rw [Leads] at h ⊢
  cases hm : m tokens i with
  | failed fault => simp [hm] at h
  | refused e => simpa only [hm] using h
  | read b j =>
    simp only [hm] at h ⊢
    obtain ⟨taken, rest', s', heq, hj, hahead, hrun, hb⟩ := h
    exact ⟨taken, rest', s', heq, hj, hahead, hrun, hpost b taken rest' s' heq hb⟩

/-- The parser may be in any state that goes on in the same way. -/
theorem congr {m : Descent β} (hrun : run s rest = run w rest)
    (h : Leads tokens m i rest w post) : Leads tokens m i rest s post := by
  rwa [Leads, hrun]

/-- Looking at tokens does not move the index. -/
theorem look (hm : m tokens i = .read a i) (h : Leads tokens (f a) i rest s post) :
    Leads tokens (m >>= f) i rest s post := by
  rwa [Leads, bind_read hm]

theorem current (h : Ahead tokens i (t :: rest)) {f : Token → Descent β}
    (hf : Leads tokens (f t) i (t :: rest) s post) :
    Leads tokens (current >>= f) i (t :: rest) s post :=
  look (current_eq h) hf

theorem advance (h : Ahead tokens i (t :: rest)) {f : Token → Descent β}
    (hstep : step s t = .ok w) (ht : t.kind ≠ .endOfFile)
    (hf : Ahead tokens (i + 1) rest →
      Leads tokens (f t) (i + 1) rest w fun b taken => post b (t :: taken)) :
    Leads tokens (advance >>= f) i (t :: rest) s post := by
  refine bind (R := fun a taken _ s' => a = t ∧ taken = [t] ∧ s' = w) ?_ ?_
  · rw [Leads, advance_eq h ht]
    exact ⟨[t], rest, w, rfl, rfl, h.next ht, run_cons hstep rest, rfl, rfl, rfl⟩
  · rintro _ _ rest' _ heq hahead ⟨rfl, rfl, rfl⟩
    cases heq
    exact hf hahead

theorem consume (h : Ahead tokens i (t :: rest)) {f : Token → Descent β} {kind : TokenKind}
    (hkind : kind ≠ .endOfFile) (hok : t.kind = kind → step s t = .ok w)
    (herror : t.kind ≠ kind → step s t = .error cause)
    (hf : t.kind = kind → Ahead tokens (i + 1) rest →
      Leads tokens (f t) (i + 1) rest w fun b taken => post b (t :: taken)) :
    Leads tokens (consume kind cause >>= f) i (t :: rest) s post := by
  by_cases ht : t.kind = kind
  · have heq : Descent.consume kind cause tokens i = Descent.advance tokens i := by
      rw [Descent.consume, bind_read (current_eq h), if_pos ht]
    have hmove := advance h (hok ht) (ht ▸ hkind) (hf ht)
    rwa [Leads, bind_apply, ← heq, ← bind_apply] at hmove
  · rw [Leads, bind_apply, Descent.consume, bind_read (current_eq h), if_neg ht]
    show run s (t :: rest) = _
    rw [run, herror ht]

theorem advancing {m : Descent β} (h : Leads tokens m i rest s post)
    (hpost : ∀ b rest' s', ¬ post b [] rest' s') : Leads tokens (advancing m) i rest s post := by
  refine look (m := index) rfl (bind h fun b taken rest' s' _ hahead hb => look (m := index) rfl ?_)
  have hne : taken ≠ [] := by
    rintro rfl
    exact hpost b rest' s' hb
  have hlength := List.length_pos_iff.2 hne
  rw [if_neg (by omega)]
  exact pure hahead (by rwa [List.append_nil])

/-- A loop whose turns keep an invariant, each of them taking a token or giving the result. -/
theorem loop {turn : α → Descent (α ⊕ β)} {I : α → List Token → List Token → State → Prop}
    (hturn : ∀ a taken rest s, Ahead tokens (i + taken.length) rest → I a taken rest s →
      Leads tokens (turn a) (i + taken.length) rest s fun result taken' rest' s' =>
        match result with
        | .inl a => taken' ≠ [] ∧ I a (taken ++ taken') rest' s'
        | .inr b => post b (taken ++ taken') rest' s')
    (h : Ahead tokens i rest) (hinv : I a [] rest s) :
    Leads tokens (loop turn a) i rest s post := by
  have hturns : ∀ n a taken rest s, Ahead tokens (i + taken.length) rest → I a taken rest s →
      tokens.length - (i + taken.length) ≤ n →
      Leads tokens (turns turn n a) (i + taken.length) rest s fun b taken' =>
        post b (taken ++ taken') := by
    intro n
    induction n with
    | zero =>
      intro a taken rest s hahead _ hle
      obtain ⟨t, rest', rfl⟩ := hahead.exists_cons
      have := hahead.length_le
      simp only [List.length_cons] at this
      omega
    | succ n ih =>
      intro a taken rest s hahead hinv hle
      rw [turns]
      refine bind (hturn a taken rest s hahead hinv) ?_
      intro result taken' rest' s' heq hahead' hresult
      cases result with
      | inr b => exact pure hahead' (by rwa [List.append_nil])
      | inl a =>
        have hlength : (taken ++ taken').length = taken.length + taken'.length :=
          List.length_append
        have hpos := List.length_pos_iff.2 hresult.1
        have hnext := ih a (taken ++ taken') rest' s'
          (by rwa [hlength, ← Nat.add_assoc]) hresult.2 (by omega)
        rw [hlength, ← Nat.add_assoc] at hnext
        exact hnext.mono fun b taken'' _ _ _ hpost => by rwa [← List.append_assoc]
  exact hturns _ a [] rest s h hinv (Nat.le_refl _)

end Leads

/-- Tokens are passed over while the parser gets to a state that goes on in the same way. -/
theorem Leads.skip {f : Unit → Descent β} {lines : List Token}
    {post : β → List Token → List Token → State → Prop}
    (hskipped : ∀ t, skipped t = true → t.kind ≠ .endOfFile)
    (h : Ahead tokens i (lines ++ t :: rest)) (hlines : ∀ l ∈ lines, skipped l = true)
    (ht : skipped t = false) (hrun : run s (lines ++ t :: rest) = run w (t :: rest))
    (hf : Leads tokens (f ()) (i + lines.length) (t :: rest) w fun b taken =>
      post b (lines ++ taken)) :
    Leads tokens (Descent.loop (skipTurn skipped) () >>= f) i (lines ++ t :: rest) s post := by
  refine Leads.bind (R := fun _ taken r s' => taken = lines ∧ r = t :: rest ∧ s' = w) ?_ ?_
  · rw [Leads, skip_eq hskipped h hlines ht]
    exact ⟨lines, t :: rest, w, rfl, rfl, h.append lines, hrun, rfl, rfl, rfl⟩
  · rintro _ _ _ _ - - ⟨rfl, rfl, rfl⟩
    exact hf

theorem skip_leads {f : Unit → Descent β} {post : β → List Token → List Token → State → Prop}
    (hskipped : ∀ t, skipped t = true → t.kind ≠ .endOfFile) (h : Ahead tokens i rest)
    (hf : ∀ lines t rest', rest = lines ++ t :: rest' → (∀ l ∈ lines, skipped l = true) →
      skipped t = false → Ahead tokens (i + lines.length) (t :: rest') →
      ∃ w, run s rest = run w (t :: rest') ∧
        Leads tokens (f ()) (i + lines.length) (t :: rest') w fun b taken => post b (lines ++ taken)) :
    Leads tokens (loop (skipTurn skipped) () >>= f) i rest s post := by
  obtain ⟨lines, t, rest', rfl, hlines, ht⟩ := h.exists_unskipped hskipped
  obtain ⟨w, hrun, hnext⟩ := hf lines t rest' rfl hlines ht (h.append lines)
  exact .skip hskipped h hlines ht hrun hnext

end Descent
end ScriptBlocks
