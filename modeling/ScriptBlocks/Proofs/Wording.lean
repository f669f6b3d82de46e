import ScriptBlocks.Proofs.Diagnostics
import ScriptBlocks.Proofs.Names

/-!
# Wording of diagnostics

The arguments of a wording are put in one after the other, and a later one is put in wherever its
placeholder stands by then. If an earlier argument had a placeholder in it, this would be replaced as
well. Names have no braces, so that the message is what it would be if all arguments were put in at
once.
-/
namespace ScriptBlocks

/-- A text that is a template with texts in place of all its placeholders. Braces belong to
placeholders, and what has been put in is not looked at. -/
inductive Filled (texts : List (List Char)) : List Char → List Char → Prop
  | nil : Filled texts [] []
  | char {c : Char} {template text : List Char} (hc : c ≠ '\x7b') (h : Filled texts template text) :
      Filled texts (c :: template) (c :: text)
  | argument {i : Nat} {value template text : List Char} (hi : texts[i]? = some value)
      (h : Filled texts template text) :
      Filled texts (placeholder i ++ template) (value ++ text)

/-! ## Replacing a placeholder -/

section

variable {n i : Nat} {value text : List Char}

theorem replaceAll_append {before : List Char} (h : '\x7b' ∉ before) :
    replaceAll (placeholder n) value (before ++ text) =
      before ++ replaceAll (placeholder n) value text := by
  induction before with
  | nil => rfl
  | cons c before ih =>
    obtain ⟨hc, hbefore⟩ := not_or.1 (mt List.mem_cons.2 h)
    rw [List.cons_append, replaceAll, if_neg, ih hbefore, List.cons_append]
    simp [placeholder, hc]

theorem replaceAll_placeholder :
    replaceAll (placeholder n) value (placeholder n ++ text) =
      value ++ replaceAll (placeholder n) value text := by
  rw [placeholder, List.cons_append, replaceAll, if_pos (by simp)]
  simp

theorem not_mem_toDigits {c : Char} (hc : c.isDigit = false) : c ∉ Nat.toDigits 10 n := fun h =>
  absurd (Nat.isDigit_of_mem_toDigits (by decide) (by decide) h) (by simp [hc])

theorem replaceAll_other (h : i ≠ n) :
    replaceAll (placeholder n) value (placeholder i ++ text) =
      placeholder i ++ replaceAll (placeholder n) value text := by
  have hstarts : ¬ (placeholder n).isPrefixOf (placeholder i ++ text) = true := by
    rw [List.isPrefixOf_iff_prefix]
    rintro ⟨rest, hrest⟩
    simp only [placeholder, List.cons_append, List.append_assoc, List.nil_append,
      List.cons.injEq, true_and] at hrest
    have hdigits (k : Nat) (rest : List Char) :
        (Nat.toDigits 10 k ++ '\x7d' :: rest).takeWhile (· ≠ '\x7d') = Nat.toDigits 10 k :=
      takeWhile_ne (not_mem_toDigits rfl) (by simp)
    have heq : Nat.toDigits 10 n = Nat.toDigits 10 i := by
      rw [← hdigits n rest, hrest, hdigits]
    have hn := congrArg (Nat.ofDigitChars 10 · 0) heq
    simp only [Nat.ofDigitChars_ten_toDigits] at hn
    exact h hn.symm
  have hrest : '\x7b' ∉ Nat.toDigits 10 i ++ ['\x7d'] := by
    simp [not_mem_toDigits (n := i) (c := '\x7b') rfl]
  have hsplit : placeholder i ++ text = '\x7b' :: (Nat.toDigits 10 i ++ ['\x7d'] ++ text) := rfl
  rw [hsplit] at hstarts ⊢
  rw [replaceAll, if_neg hstarts, replaceAll_append hrest]
  rfl

end

/-- A placeholder that stands for itself is replaced, and nothing else is when the other texts have no
braces or are placeholders that stand for themselves. -/
theorem Filled.replacing {texts : List (List Char)} {template text : List Char} {n : Nat}
    (h : Filled texts template text) (hn : texts[n]? = some (placeholder n))
    (hothers : ∀ i value, texts[i]? = some value → i ≠ n → '\x7b' ∉ value ∨ value = placeholder i)
    (value : List Char) :
    Filled (texts.set n value) template (replaceAll (placeholder n) value text) := by
  have hlength : n < texts.length := (List.getElem?_eq_some_iff.1 hn).1
  induction h with
  | nil =>
    rw [replaceAll]
    exact .nil
  | @char c template text hc h ih =>
    have hsingle : '\x7b' ∉ [c] := by simpa using hc.symm
    rw [← List.singleton_append (l := text), replaceAll_append hsingle]
    exact .char hc ih
  | @argument i value' template text hi h ih =>
    by_cases hin : i = n
    · subst hin
      cases hi.symm.trans hn
      rw [replaceAll_placeholder]
      exact .argument (by simp [hlength]) ih
    · have hi' : (texts.set n value)[i]? = some value' := by
        rw [List.getElem?_set_ne (Ne.symm hin), hi]
      rcases hothers i value' hi hin with hbrace | rfl
      · rw [replaceAll_append hbrace]
        exact .argument hi' ih
      · rw [replaceAll_other hin]
        exact .argument hi' ih

/-! ## All arguments -/

/-- Arguments that have been put in, and placeholders of those that have not. -/
def stages (done left : List String) : List (List Char) :=
  done.map String.toList ++ (List.range' done.length left.length).map placeholder

theorem Filled.foldl {done left : List String} {template text : List Char}
    (h : Filled (stages done left) template text)
    (hbrace : ∀ a ∈ (done ++ left).dropLast, '\x7b' ∉ a.toList) :
    Filled ((done ++ left).map String.toList) template
      ((left.zipIdx done.length).foldl
        (fun text argument => replaceAll (placeholder argument.2) argument.1.toList text) text) := by
  induction left generalizing done text with
  | nil => simpa [stages] using h
  | cons a left ih =>
    have hdone : ∀ a ∈ done, '\x7b' ∉ a.toList := fun b hb =>
      hbrace b (by rw [List.dropLast_append_of_ne_nil (by simp)]; exact List.mem_append_left _ hb)
    have hstep := h.replacing (n := done.length) (by simp [stages]) (fun i value hi hne => ?_) a.toList
    · have hset : (stages done (a :: left)).set done.length a.toList = stages (done ++ [a]) left := by
        simp [stages, List.range'_succ, List.set_append_right]
      rw [hset] at hstep
      have := ih hstep (by simpa using hbrace)
      simpa [List.zipIdx_cons] using this
    · rw [stages, List.getElem?_append] at hi
      split at hi
      next hlt =>
        simp only [List.getElem?_map, Option.map_eq_some_iff] at hi
        obtain ⟨b, hb, rfl⟩ := hi
        exact .inl (hdone b (List.mem_of_getElem? hb))
      next hge =>
        simp only [List.length_map, List.getElem?_map, Option.map_eq_some_iff] at hi hge
        obtain ⟨j, hj, rfl⟩ := hi
        obtain ⟨hlt, rfl⟩ := List.getElem?_eq_some_iff.1 hj
        refine .inr (congrArg placeholder ?_)
        rw [List.getElem_range']
        omega

/-- Every brace of a template opens a placeholder, of one of so many arguments. -/
def takesArguments (count : Nat) : List Char → Bool
  | [] => true
  | '\x7b' :: digit :: '\x7d' :: template =>
    (List.range count).any (fun i => placeholder i = ['\x7b', digit, '\x7d']) &&
      takesArguments count template
  | '\x7b' :: _ => false
  | _ :: template => takesArguments count template

theorem Filled.of_takesArguments {count : Nat} {template : List Char}
    (h : takesArguments count template = true) :
    Filled ((List.range count).map placeholder) template template := by
  fun_induction takesArguments count template with
  | case1 => exact .nil
  | case2 digit template ih =>
    rw [Bool.and_eq_true, List.any_eq_true] at h
    obtain ⟨⟨i, hi, hdigit⟩, hrest⟩ := h
    have hsplit : '\x7b' :: digit :: '\x7d' :: template = placeholder i ++ template := by
      rw [of_decide_eq_true hdigit]
      rfl
    rw [hsplit]
    exact .argument (by simp [List.mem_range.1 hi]) (ih hrest)
  | case3 => cases h
  | case4 c template _ hc ih => exact .char hc (ih h)

theorem filled_renderTemplate {template : String} {arguments : List String}
    (h : takesArguments arguments.length template.toList = true)
    (hbrace : ∀ a ∈ arguments.dropLast, '\x7b' ∉ a.toList) :
    Filled (arguments.map String.toList) template.toList
      (renderTemplate template arguments).toList := by
  rw [renderTemplate, String.toList_ofList]
  have hstart := Filled.of_takesArguments h
  rw [List.range_eq_range'] at hstart
  have hstages : Filled (stages [] arguments) template.toList template.toList := hstart
  exact hstages.foldl hbrace

/-- Every problem is worded, and the wording has a placeholder for no argument that it has not. -/
theorem Problem.takesArguments_wording (problem : Problem) :
    ∃ entry, catalogued? problem.code = some entry ∧
      takesArguments problem.arguments.length entry.message.toList = true := by
  have hany : (catalogued? problem.code).any
      (fun entry => takesArguments problem.arguments.length entry.message.toList) = true := by
    cases problem <;> simp only [Problem.code, Problem.arguments, List.length] <;> decide +kernel
  cases hentry : catalogued? problem.code with
  | none => simp [hentry] at hany
  | some entry => exact ⟨entry, rfl, by simpa [hentry] using hany⟩

theorem Diagnostic.arguments_ofProblem (problem : Problem) (span : Option Span) :
    (Diagnostic.ofProblem problem span).arguments = problem.arguments := by
  simp only [ofProblem, ofCode]
  split <;> rfl

/-- What is reported reads as its wording says. Every diagnostic reports a problem, and its message is
the wording of the problem with all arguments that it was reported with in their places, put in at
once; no placeholder is left. -/
theorem compile_filled (source sprite : String) :
    ∀ d ∈ (compile source sprite).diagnostics, ∃ problem entry, d = .ofProblem problem d.span ∧
      d.arguments = problem.arguments ∧ catalogued? d.code = some entry ∧
      Filled (d.arguments.map String.toList) entry.message.toList d.message.toList := by
  have hname {program : Program} (h : Program.ofSource source = .ok program) (x : String)
      (hx : .name x ∈ program.lexemes) : '\x7b' ∉ x.toList := by
    intro hbrace
    have hcontinues := Program.continuesName_of_ofSource h hx _ hbrace
    revert hcontinues
    decide
  have hreported := compile_reportedAt (Q := fun _ => True) source sprite
    (fun _ _ _ => ⟨trivial, fun _ _ => trivial⟩) (fun _ => trivial) hname
  intro d hd
  obtain ⟨problem, span, rfl, -, hquotes⟩ := hreported d hd
  obtain ⟨entry, hentry, htakes⟩ := problem.takesArguments_wording
  have hmessage : (Diagnostic.ofProblem problem (some span)).message =
      renderTemplate entry.message problem.arguments := by
    simp only [Diagnostic.ofProblem, Diagnostic.ofCode, hentry]
  refine ⟨problem, entry, by rw [Diagnostic.span_ofProblem],
    Diagnostic.arguments_ofProblem problem _, ?_, ?_⟩
  · rw [Diagnostic.code_ofProblem, hentry]
  · rw [hmessage, Diagnostic.arguments_ofProblem]
    exact filled_renderTemplate htakes fun a ha => (hquotes a ha).elim id id

/-- A call with too many arguments. -/
theorem compile_filled_count :
    let source := "function f(a) \x7b return a + 1 \x7d\nf(1, 2)"
    ∃ d ∈ (compile source "Sprite1").diagnostics, d.code = "E22" ∧
      d.arguments = ["f", "1", "2"] ∧ ∃ problem entry, d = .ofProblem problem d.span ∧
        d.arguments = problem.arguments ∧ catalogued? d.code = some entry ∧
        Filled (d.arguments.map String.toList) entry.message.toList d.message.toList := by
  intro source
  obtain ⟨d, hd, hcode, harguments⟩ : ∃ d ∈ (compile source "Sprite1").diagnostics,
      d.code = "E22" ∧ d.arguments = ["f", "1", "2"] := by
    decide +kernel
  exact ⟨d, hd, hcode, harguments, compile_filled source "Sprite1" d hd⟩

end ScriptBlocks
