import ScriptBlocks.Proofs.Stage

/-!
# Assertions

What compilation takes for granted about types and slots. Operands are checked against resolved types
only and arguments are given no others, what is declared has the type of a value, and a slot for a body
never holds a plain value. This
holds at every point of a compilation: while a statement is compiled in its script (`Poised`), while an
operand is compiled for a slot that takes one (`Ready`), and between two scripts (`Assembled`).
-/
namespace ScriptBlocks

theorem ValueType.IsValue.mem {type : ValueType} (h : type.IsValue) :
    type ∈ [ValueType.boolean, .number, .string, .color] := by
  obtain ⟨hresolved, hvalue⟩ := h
  cases type with
  | unresolved => exact absurd rfl hresolved
  | void => exact absurd rfl hvalue
  | _ => decide

/-- Every type that was checked against or given to an argument was resolved, declared variables and
arguments have the types of values, what has a result has a variable for it, and slots for bodies are empty or hold
the first block of a body. -/
structure Target.Asserts (t : Target) : Prop where
  intact : t.intact = true
  vars : ∀ v ∈ t.vars.values, v.built = true →
    v.type ∈ [ValueType.boolean, .number, .string, .color]
  arguments : ∀ p ∈ t.functions.values, ∀ a ∈ p.arguments.values,
    a.type ∈ [ValueType.boolean, .number, .string, .color]
  results : ∀ p ∈ t.functions.values, p.returnType ≠ .void → p.returnVariable ≠ none
  bodies : ∀ b ∈ t.blocks.values, ∀ input ∈ b.inputs.values, input.kind = .substack →
    input.value = .empty ∨ ∃ id, input.value = .block id

theorem Target.Asserts.of_proper {t : Target} (h : t.Proper) (hh : t.Housed) : t.Asserts where
  intact := h.intact
  vars v hv hbuilt := by
    obtain ⟨x, hx⟩ := Table.mem_values_iff.1 hv
    exact ValueType.IsValue.mem ⟨h.built hx hbuilt, h.values hx⟩
  arguments p hp a ha := by
    obtain ⟨f, hf⟩ := Table.mem_values_iff.1 hp
    exact (h.arguments hf ha).mem
  results p hp hresult := by
    obtain ⟨f, hf⟩ := Table.mem_values_iff.1 hp
    exact h.results hf hresult
  bodies b hb input hinput hkind := by
    obtain ⟨x, hx⟩ := Table.mem_values_iff.1 hb
    obtain ⟨e, he, rfl⟩ := List.mem_map.1 hinput
    have hplain := hh hx e he hkind
    cases hv : e.2.value with
    | empty => exact .inl rfl
    | block id => exact .inr ⟨id, rfl⟩
    | payload value => exact absurd hv (hplain value)

theorem Target.Blank.asserts {t : Target} (h : t.Blank) : t.Asserts :=
  .of_proper h.proper fun x b hx => by simp [h.blocks] at hx

open Compilation

namespace Compilation

variable {c c' : Compilation} {σ : Script} {ids : List String}

theorem Poised.asserts (h : c.Poised σ ids) : c.target.Asserts :=
  .of_proper h.good.tables h.tidy.housed

theorem Assembled.asserts (h : c.Assembled ids) : c.target.Asserts :=
  .of_proper h.between.good.tables h.arranged.tidy.housed

/-- What is written into a script. -/
theorem Writes.asserts (h : c.Writes σ c') (ht : c.target.Tidy) (hg : c'.inference.Good) :
    c'.target.Asserts :=
  .of_proper hg.tables (h.housed ht.housed)

end Compilation

/-! ### Expressions -/

theorem Evaluation.Placed.asserts {w : Evaluation} (h : w.Placed) :
    w.state.target.Asserts ∧ w.result.2.target.Asserts ∧ w.filled.2.target.Asserts := by
  obtain ⟨e, c⟩ := w
  obtain ⟨hr, hA, hfree, htakes⟩ := h
  have hemits := Emit.expression_emits .unknown e
  have hevaluates := Emit.expression_evaluates e
  obtain ⟨i, input, hi, -⟩ := Block.firstUnfilled?_of_free hfree
  rename_i σ A s slot k F pre rest a
  have hfree' : a.free k = [slot] ++ rest := hfree
  refine ⟨.of_proper hr.good.tables hr.tidy.housed, ?_, ?_⟩
  · obtain ⟨cs, k, hruns, -⟩ := hemits hr.good hr.sited hA hfree
    exact (hevaluates hr hA hfree hi).writes.asserts hr.tidy hruns.good
  · obtain ⟨cs, k, hruns, -⟩ := hemits.operand e.span hr.good hr.sited hA hfree' rfl
    exact (hevaluates.operand hemits e.span hr hA hfree hi htakes).1.asserts hr.tidy hruns.good

/-! ### Statements -/

namespace Visit

variable {v : Visit} {c : Compilation}

theorem Placed.state_asserts (h : v.Placed) : v.state.target.Asserts := by
  cases h with
  | inner hp _ => exact hp.asserts
  | between h _ => exact h.asserts

/-- The bodies of a statement start in scripts of their own. -/
theorem Placed.entry_asserts (h : v.Placed) (hc : c ∈ v.entries) : c.target.Asserts := by
  obtain ⟨s, c₀⟩ := v
  cases s with
  | function name params body span =>
    simp only [entries] at hc
    split at hc
    next c' hhead =>
      obtain rfl := List.mem_singleton.1 hc
      exact (h.function_poised hhead).1.asserts
    next => cases hc
  | branch condition body otherwise span =>
    cases h with
    | inner hp hin =>
      simp only [entries] at hc
      split at hc
      next n c' hhead =>
        obtain ⟨⟨hfirst, -⟩, hsecond, -⟩ := branch_poised
          (hp.of_eq (d := start ⟨.branch condition body otherwise span, c₀⟩) rfl rfl)
          condition body otherwise hhead
        obtain rfl | rfl := List.mem_pair.1 hc
        · exact hfirst.asserts
        · exact hsecond.asserts
      next => cases hc
    | between _ hs => cases hs
  | _ => cases hc

theorem Placed.handled_asserts (h : v.Placed) : v.handled.2.target.Asserts := by
  cases h with
  | inner hp hin =>
    have hp := hp.of_eq (d := v.start) rfl rfl
    obtain ⟨new, he, hw, -⟩ := Emit.statement_inscribes v.statement hp hin
    exact hw.asserts hp.tidy he.runs.good
  | between h hs =>
    obtain ⟨ids', h'⟩ := Emit.visit_assembled h v.statement
    rw [hs] at h'
    exact h'.asserts

theorem Placed.passes_asserts (h : v.Placed) (hc : v.Passes c) : c.target.Asserts := by
  cases hc with
  | state | start => exact h.state_asserts
  | entry hc => exact h.entry_asserts hc
  | handled | after => exact h.handled_asserts
  | evaluation hw => exact (Evaluation.placed_of_mem_evaluations h hw).asserts.1
  | result hw => exact (Evaluation.placed_of_mem_evaluations h hw).asserts.2.1
  | filled hw => exact (Evaluation.placed_of_mem_evaluations h hw).asserts.2.2

end Visit

/-! ### Programs -/

theorem Compilation.Reached.asserts {source sprite : String} {c : Compilation}
    (h : Reached source sprite c) : c.target.Asserts := by
  cases h with
  | initial => exact (Assembled.new sprite).asserts
  | visit hv hc => exact (Visit.placed_of_mem_ofSource hv).passes_asserts hc
  | final hp =>
    obtain ⟨ids, h, -⟩ := Emit.program_assembled (.new sprite) _
    exact h.asserts

/-- At every point of a compilation, and in its result, no operand in either target has been checked
against the unresolved type and no argument been given it, be it by a check, by a hint or at the end of
a function. Their declared variables and the arguments of their functions have the types of values,
their functions with results have variables for them, and their slots for bodies hold no plain
values. -/
theorem compile_asserts (source sprite : String) :
    (∀ c, Reached source sprite c → c.target.Asserts ∧ c.project.other.Asserts) ∧
    ∀ t ∈ (compile source sprite).targets, t.Asserts := by
  have hreached : ∀ c, Reached source sprite c → c.target.Asserts ∧ c.project.other.Asserts :=
    fun c hc => ⟨hc.asserts, hc.blank.asserts⟩
  have htargets : ∀ {c : Compilation}, c.target.Asserts ∧ c.project.other.Asserts →
      ∀ t ∈ c.project.targets, t.Asserts := by
    rintro c ⟨hcurrent, hother⟩ t ht
    obtain rfl | rfl := Project.mem_targets ht
    · exact hcurrent
    · exact hother
  refine ⟨hreached, ?_⟩
  cases hp : Program.ofSource source with
  | ok p =>
    rw [compile_eq hp]
    exact htargets (hreached _ (.final hp))
  | error e =>
    simp only [compile, Project.compile, hp]
    exact htargets (c := { project := .new sprite }) (hreached _ .initial)

/-- A function whose result is settled in a body of a conditional, and a call of it. -/
theorem compile_asserts_call :
    let source :=
      "function f(a) \x7b if a > 1 \x7b return a \x7d\nreturn 2 \x7d\nlet x = f(3)"
    let t := (compile source "Sprite1").sprite
    (∃ c, Reached source "Sprite1" c ∧ c.function.isSome = true ∧ c.branchDepth = 1 ∧
      c.target.Asserts ∧ c.project.other.Asserts) ∧
    t.Asserts ∧ (t.vars.values.filter Variable.built).map Variable.type = [.number] ∧
    t.functions.values.map (fun p => (p.arguments.values.map Argument.type, p.returnType)) =
      [([.number], .number)] ∧
    (t.blocks.values.flatMap fun b => (b.inputs.values.filter fun i => i.kind = .substack).map
      Input.value) = [.block "block_8"] := by
  intro source t
  obtain ⟨hreached, htargets⟩ := compile_asserts source "Sprite1"
  have ht : t.Asserts := htargets t (by simp [Project.targets, t])
  refine ⟨?_, ht, by decide +kernel, by decide +kernel, by decide +kernel⟩
  obtain ⟨v, hv, hf, hdepth⟩ : ∃ v ∈ Visit.ofSource source "Sprite1",
      v.state.function.isSome = true ∧ v.state.branchDepth = 1 := by
    decide +kernel
  have hstate : Reached source "Sprite1" v.state := .visit hv .state
  exact ⟨v.state, hstate, hf, hdepth, hreached _ hstate⟩

end ScriptBlocks
