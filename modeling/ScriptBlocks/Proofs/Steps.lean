import ScriptBlocks.Compile.Emit
import ScriptBlocks.Proofs.Site
import ScriptBlocks.Proofs.Typing

/-!
# Steps of compilation

How a step changes the state of a compilation. `Calm` is what every step inside an expression
keeps, `Runs` says that the script at hand is still in place, and `Quietly` describes the steps
that only settle types or report.
-/
namespace ScriptBlocks

variable {problem : Problem} {C : String → Prop} {t : Target} {type : ValueType}

/-- The target that does not receive the scripts. -/
def Project.other (p : Project) : Target :=
  if p.onStage then p.sprite else p.stage

namespace Compilation

variable {c c' c'' : Compilation}

@[simp] theorem target_setTarget (c : Compilation) (t : Target) : (c.setTarget t).target = t :=
  Project.current_setCurrent c.project t

@[simp] theorem inference_target (c : Compilation) : c.inference.target = c.target := rfl

@[simp] theorem inference_function (c : Compilation) : c.inference.function = c.function := rfl

@[simp] theorem function_setTarget (c : Compilation) (t : Target) :
    (c.setTarget t).function = c.function := rfl

@[simp] theorem inference_setTarget (c : Compilation) (t : Target) :
    (c.setTarget t).inference = ⟨t, c.function⟩ := by
  simp [inference]

theorem setTarget_target (c : Compilation) : c.setTarget c.target = c := by
  obtain ⟨p, function, depth, contexts⟩ := c
  simp only [setTarget, target, Project.current, Project.setCurrent]
  split <;> rfl

@[simp] theorem setTarget_setTarget (c : Compilation) (t t' : Target) :
    (c.setTarget t).setTarget t' = c.setTarget t' := by
  obtain ⟨p, function, depth, contexts⟩ := c
  simp only [setTarget, Project.setCurrent]
  split <;> simp_all

/-- What a step outside the current target and function leaves as it is. -/
structure SameRest (c c' : Compilation) : Prop where
  onStage : c'.project.onStage = c.project.onStage
  other : c'.project.other = c.project.other
  depth : c'.branchDepth = c.branchDepth
  contexts : c'.contexts = c.contexts
  /-- Errors are never taken back. -/
  success : c'.project.success = true → c.project.success = true

theorem SameRest.refl (c : Compilation) : SameRest c c :=
  ⟨rfl, rfl, rfl, rfl, id⟩

theorem SameRest.trans (h : SameRest c c') (h' : SameRest c' c'') : SameRest c c'' :=
  ⟨h'.onStage.trans h.onStage, h'.other.trans h.other, h'.depth.trans h.depth,
    h'.contexts.trans h.contexts, fun hs => h.success (h'.success hs)⟩

theorem SameRest.success_false (h : SameRest c c') (hs : c.project.success = false) :
    c'.project.success = false := by
  cases hs' : c'.project.success with
  | false => rfl
  | true => rw [h.success hs'] at hs; cases hs

theorem SameRest.setTarget (c : Compilation) (t : Target) : SameRest c (c.setTarget t) := by
  constructor
  · simp only [Compilation.setTarget, Project.setCurrent]
    split <;> rfl
  · simp only [Compilation.setTarget, Project.setCurrent, Project.other]
    split <;> simp_all
  · rfl
  · rfl
  · simp only [Compilation.setTarget, Project.setCurrent]
    split <;> exact id

theorem foldl_log (c : Compilation) (events : List Event) :
    ∃ journal, events.foldl log c = { c with project := { c.project with journal } } := by
  induction events generalizing c with
  | nil => exact ⟨c.project.journal, rfl⟩
  | cons event events ih =>
    obtain ⟨journal, hj⟩ := ih (c.log event)
    exact ⟨journal, hj⟩

theorem setInference_eq (c : Compilation) (i : Inference) :
    ∃ journal, c.setInference i =
      { c.setTarget i.target with
        function := i.function
        project := { (c.setTarget i.target).project with journal } } :=
  foldl_log { c.setTarget i.target with function := i.function } _

theorem inference_setInference (c : Compilation) (i : Inference) :
    (c.setInference i).inference = i := by
  obtain ⟨journal, hj⟩ := c.setInference_eq i
  rw [hj]
  show Inference.mk (c.setTarget i.target).target i.function = i
  rw [target_setTarget]

theorem SameRest.setInference (c : Compilation) (i : Inference) :
    SameRest c (c.setInference i) := by
  obtain ⟨journal, hj⟩ := c.setInference_eq i
  have h := SameRest.setTarget c i.target
  rw [hj]
  exact ⟨h.onStage, h.other, h.depth, h.contexts, h.success⟩

theorem SameRest.setFunction (c : Compilation) (function : Option Signature) :
    SameRest c { c with function } :=
  ⟨rfl, rfl, rfl, rfl, id⟩

theorem SameRest.log (c : Compilation) (event : Event) : SameRest c (c.log event) :=
  ⟨rfl, rfl, rfl, rfl, id⟩

theorem SameRest.report (c : Compilation) (problem : Problem) (span : Option Span) :
    SameRest c (c.report problem span) := by
  refine ⟨rfl, rfl, rfl, rfl, ?_⟩
  intro h
  simp only [Compilation.report, Project.report, Bool.and_eq_true] at h
  exact h.1

end Compilation

/-- Problems that do not stop a project from being packaged. -/
def Problem.isWarning : Problem → Bool
  | .divisionByZero => true
  | .untypedVariable _ => true
  | .untypedResult _ => true
  | .untypedArgument _ _ => true
  | .errorsIgnored => true
  | _ => false

theorem Problem.severityOf_code (h : problem.isWarning = false) :
    severityOf problem.code = .error := by
  cases problem <;> simp_all [isWarning, code, severityOf]

namespace Compilation

variable {c c' c'' : Compilation}

/-- An error counts. -/
theorem success_report (h : problem.isWarning = false) (c : Compilation) (span : Option Span) :
    (c.report problem span).project.success = false := by
  have herror : (Diagnostic.ofProblem problem (span.or c.contexts.head?)).isError = true := by
    have hcode : (Diagnostic.ofProblem problem (span.or c.contexts.head?)).code = problem.code := by
      simp only [Diagnostic.ofProblem, Diagnostic.ofCode]
      split <;> rfl
    simp [Diagnostic.isError, Diagnostic.severity, hcode, Problem.severityOf_code h]
  simp [Compilation.report, Project.report, herror]

/-- What every step inside an expression keeps: the names that are known, and the function being
compiled up to the types of its arguments. The reporters among the new blocks are remembered, and
no new block starts a script. -/
structure Calm (c c' : Compilation) : Prop where
  rest : SameRest c c'
  tables : c'.target.tables = c.target.tables
  function : Signature.Continues c.function c'.function
  marked : ∀ {x b a}, c'.target.block? x = some b → c.target.block? x = none →
    b.argument = some a → c'.inference.Tracks a x
  inner : ∀ {x b}, c'.target.block? x = some b → c.target.block? x = none → ¬ b.Starts

namespace Calm

theorem tracks (h : Calm c c') {a x : String} (ht : c.inference.Tracks a x) :
    c'.inference.Tracks a x :=
  ht.continues h.function

theorem refl (c : Compilation) : Calm c c where
  rest := .refl c
  tables := rfl
  function := .refl c.function
  marked h h' := by simp [h] at h'
  inner h h' := by simp [h] at h'

theorem trans {O : String → Prop} (h : Calm c c') (h' : Calm c' c'')
    (ha : Inference.Advance O C c'.inference c''.inference) : Calm c c'' where
  rest := h.rest.trans h'.rest
  tables := h'.tables.trans h.tables
  function := h.function.trans h'.function
  marked := by
    intro x b a hb hx harg
    cases hx' : c'.target.block? x with
    | none => exact h'.marked hb hx' harg
    | some b' =>
      obtain ⟨b'', hb'', hk⟩ := ha.old hx'
      rw [show c''.inference.target.block? x = some b from hb] at hb''
      cases hb''
      exact h'.tracks (h.marked hx' hx (hk.argument ▸ harg))
  inner := by
    intro x b hb hx
    cases hx' : c'.target.block? x with
    | none => exact h'.inner hb hx'
    | some b' =>
      obtain ⟨b'', hb'', hk⟩ := ha.old hx'
      rw [show c''.inference.target.block? x = some b from hb] at hb''
      cases hb''
      exact fun hs => h.inner hx' hx (hs.of_face hk.face.symm)

theorem setTarget (htables : t.tables = c.target.tables)
    (hnew : ∀ x b, t.block? x = some b → c.target.block? x = none →
      b.argument = none ∧ ¬ b.Starts) : Calm c (c.setTarget t) where
  rest := .setTarget c t
  tables := by rw [target_setTarget, htables]
  function := .refl c.function
  marked := by
    intro x b a hb hx ha
    rw [target_setTarget] at hb
    simp [(hnew x b hb hx).1] at ha
  inner := by
    intro x b hb hx
    rw [target_setTarget] at hb
    exact (hnew x b hb hx).2

end Calm

/-- The script at hand has grown from `ids` to `ids'`. Only the slots of old blocks in `O` and the
neighbours of the script's own blocks have changed. -/
structure Runs (σ : Script) (ids ids' : List String) (inputs' : List (String × Nat))
    (O : String → Prop) (c c' : Compilation) : Prop where
  sited : Sited c'.target σ inputs' ids'
  good : c'.inference.Good
  advance : Inference.Advance O (· ∈ σ.base.toList ++ ids) c.inference c'.inference
  new_ids : ∀ x ∈ ids', x ∈ ids ∨ c.target.block? x = none

namespace Runs

variable {σ : Script} {ids ids' ids'' : List String} {inputs inputs' : List (String × Nat)}
variable {O O' O'' : String → Prop}

theorem trans (h : Runs σ ids ids' inputs O c c') (h' : Runs σ ids' ids'' inputs' O' c' c'')
    (hO : ∀ x b, c.target.block? x = some b → O x ∨ O' x → O'' x) :
    Runs σ ids ids'' inputs' O'' c c'' where
  sited := h'.sited
  good := h'.good
  advance := by
    refine h.advance.trans h'.advance hO ?_
    rintro x b hx (hm | hm)
    · exact hm
    · rcases List.mem_append.1 hm with hm | hm
      · exact List.mem_append_left _ hm
      · obtain hm | hn := h.new_ids x hm
        · exact List.mem_append_right _ hm
        · simp [show c.target.block? x = some b from hx] at hn
  new_ids := by
    intro x hx
    obtain hx | hn := h'.new_ids x hx
    · exact h.new_ids x hx
    · refine .inr ?_
      cases hb : c.target.block? x with
      | none => rfl
      | some b =>
        obtain ⟨b', hb', -⟩ := h.advance.old hb
        simp [show c'.target.block? x = some b' from hb'] at hn

theorem mono (h : Runs σ ids ids' inputs O c c')
    (hO : ∀ x b, c.target.block? x = some b → O x → O' x) : Runs σ ids ids' inputs O' c c' :=
  ⟨h.sited, h.good, h.advance.mono hO fun _ _ _ => id, h.new_ids⟩

/-- Wiring inside the script. -/
theorem ofRewired (hg : c.inference.Good) (hr : Rewired O C c.target t) (hs : Sited t σ inputs ids')
    (hC : ∀ x b, c.target.block? x = some b → C x → x ∈ σ.base.toList ++ ids)
    (hids : ∀ x ∈ ids', x ∈ ids ∨ c.target.block? x = none) :
    Runs σ ids ids' inputs O c (c.setTarget t) where
  sited := by rw [target_setTarget]; exact hs
  good := by rw [inference_setTarget]; exact hg.rewired hr
  advance := by
    rw [inference_setTarget]
    exact (Inference.Advance.ofRewired hr c.function).mono (fun _ _ _ => id) hC
  new_ids := hids

/-- A further step, on the script and on blocks that came since. -/
theorem extend (h : Runs σ ids ids' inputs O c c') (hg : c''.inference.Good)
    (ha : Inference.Advance O' C c'.inference c''.inference) (hs : Sited c''.target σ inputs' ids'')
    (hO : ∀ x b, c.target.block? x = some b → O x ∨ O' x → O'' x)
    (hC : ∀ x b, c.target.block? x = some b → C x → x ∈ σ.base.toList ++ ids)
    (hids : ∀ x ∈ ids'', x ∈ ids ∨ c.target.block? x = none) : Runs σ ids ids'' inputs' O'' c c'' :=
  ⟨hs, hg, h.advance.trans ha hO fun x b hx hc => hc.elim id (hC x b hx), hids⟩

/-- Wiring of the script, and of blocks that came since. -/
theorem rewired (h : Runs σ ids ids' inputs O c c') (hr : Rewired O' C c'.target t)
    (hs : Sited t σ inputs' ids'') (hO : ∀ x b, c.target.block? x = some b → O x ∨ O' x → O'' x)
    (hC : ∀ x b, c.target.block? x = some b → C x → x ∈ σ.base.toList ++ ids)
    (hids : ∀ x ∈ ids'', x ∈ ids ∨ c.target.block? x = none) :
    Runs σ ids ids'' inputs' O'' c (c'.setTarget t) := by
  have hg : (c'.setTarget t).inference.Good := by
    rw [inference_setTarget]
    exact h.good.rewired hr
  have ha : Inference.Advance O' C c'.inference (c'.setTarget t).inference := by
    rw [inference_setTarget]
    exact .ofRewired hr c'.function
  refine h.extend hg ha ?_ hO hC hids
  rw [target_setTarget]
  exact hs

/-- The type of a block that came since may still be changed. -/
theorem retype (h : Runs σ ids ids' inputs O c c') {n : String} {b : Block}
    (hnew : c.target.block? n = none) (hb : c'.target.block? n = some b)
    (hnone : b.argument = none) (type : ValueType) :
    Runs σ ids ids' inputs O c
      (c'.setTarget (c'.target.modifyBlock n ({ · with inferred := type }))) := by
  have hlookup (x : String) :=
    Target.block?_modifyBlock c'.target n x ({ · with inferred := type })
  have hother : ∀ x, x ≠ n → (c'.target.modifyBlock n ({ · with inferred := type })).block? x =
      c'.target.block? x := fun x hx => by rw [hlookup, if_neg (Ne.symm hx)]
  have hlinks : (c'.target.modifyBlock n ({ · with inferred := type })).links =
      c'.target.links := by
    funext x
    simp only [Target.links, hlookup]
    split
    next => cases c'.target.block? x <;> rfl
    next => rfl
  refine ⟨?_, ⟨?_, ?_, ?_⟩, ⟨?_, ?_, ?_, ?_⟩, h.new_ids⟩
  · rw [target_setTarget]
    refine h.sited.resite ⟨hlinks ▸ h.sited.sound.linked, fun {m} hm => ?_⟩ (fun x bx hx => ?_)
      fun _ hs => hs
    · have hfree := h.sited.sound.fresh hm
      rw [hother, hfree]
      rintro rfl
      simp [hb] at hfree
    · rw [hlookup]
      split
      next => exact ⟨{ bx with inferred := type }, by rw [hx]; rfl, fun _ => ⟨rfl, rfl⟩⟩
      next => exact ⟨bx, hx, fun _ => ⟨rfl, rfl⟩⟩
  · rw [inference_setTarget]
    exact h.good.tables.of_tables rfl
  · exact h.good.signature
  · intro s a p x hs hp hx
    obtain ⟨bx, hbx, ha, hrest⟩ := h.good.tracked hs hp hx
    refine ⟨bx, ?_, ha, hrest⟩
    have hxn : x ≠ n := by
      rintro rfl
      rw [show c'.inference.target.block? x = some b from hb] at hbx
      cases hbx
      simp [hnone] at ha
    rw [inference_setTarget]
    exact (hother x hxn).trans hbx
  · intro x bx hx
    have hxn : x ≠ n := (ne_of_found hnew (show c.target.block? x = some bx from hx)).symm
    rw [inference_setTarget]
    obtain ⟨b', hb', hk⟩ := h.advance.old hx
    exact ⟨b', (hother x hxn).trans hb', hk⟩
  · intro x bx hbx hx
    rw [inference_setTarget] at hbx ⊢
    have hsome : ∃ bx', c'.target.block? x = some bx' := by
      rw [show (c'.target.modifyBlock n ({ · with inferred := type })).block? x = _ from hlookup x] at hbx
      split at hbx
      next =>
        obtain ⟨bx', hbx', -⟩ := Option.map_eq_some_iff.1 hbx
        exact ⟨bx', hbx'⟩
      next => exact ⟨bx, hbx⟩
    obtain ⟨bx', hbx'⟩ := hsome
    exact h.advance.new hbx' hx
  · rw [inference_setTarget]
    exact h.advance.drawn_le
  · intro x bx hx ht
    rw [inference_setTarget] at ht
    exact h.advance.tracked hx ht

end Runs

/-- A step that settles types or reports, and reports an error when it gives up. -/
structure Quietly (c : Compilation) (r : Option α × Compilation) : Prop where
  quiet : c.inference.Quiet r.2.inference
  good : r.2.inference.Good
  rest : SameRest c r.2
  loud : r.1 = none → r.2.project.success = false

namespace Quietly

variable {α β : Type} {m : Emit α} {f : α → Emit β}

theorem calm {r : Option α × Compilation} (h : Quietly c r) : Calm c r.2 where
  rest := h.rest
  tables := by
    have hs := h.quiet.shell
    simp only [inference_target] at hs
    rw [hs]
    rfl
  function := h.quiet.function
  marked := by
    intro x b a hb hx _
    have hn : r.2.target.block? x = none := h.quiet.none hx
    simp [hn] at hb
  inner := by
    intro x b hb hx
    have hn : r.2.target.block? x = none := h.quiet.none hx
    simp [hn] at hb

theorem runs {r : Option α × Compilation} (h : Quietly c r) {σ : Script}
    {inputs : List (String × Nat)} {ids : List String} (hs : Sited c.target σ inputs ids)
    {O : String → Prop} : Runs σ ids ids inputs O c r.2 where
  sited := by
    have hlinks : r.2.target.links = c.target.links := h.quiet.links_eq
    have hshell := h.quiet.shell
    simp only [inference_target] at hshell
    have hsound : Sound r.2.target := by
      refine ⟨hlinks ▸ hs.sound.linked, fun {n} hn => h.quiet.none (hs.sound.fresh ?_)⟩
      rw [hshell] at hn
      exact hn
    refine hs.resite hsound (fun x b hb => ?_) fun scopes hsc => ?_
    · obtain ⟨b', hb', hk⟩ := h.quiet.old hb
      exact ⟨b', hb', fun _ => ⟨hk.next id, hk.parent id⟩⟩
    · rw [hshell]
      exact hsc
  good := h.good
  advance := h.quiet.advance
  new_ids _ hx := .inl hx

theorem pure (hg : c.inference.Good) (a : α) : Quietly c ((Pure.pure a : Emit α) c) :=
  ⟨.refl _, hg, .refl c, by simp [Emit.pure_apply]⟩

theorem trans {r : Option α × Compilation} {r' : Option β × Compilation} (h : Quietly c r)
    (h' : Quietly r.2 r') : Quietly c r' :=
  ⟨h.quiet.trans h'.quiet, h'.good, h.rest.trans h'.rest, h'.loud⟩

theorem bind (h : Quietly c (m c)) (hf : ∀ a c', m c = (some a, c') → Quietly c' (f a c')) :
    Quietly c ((m >>= f) c) := by
  rw [Emit.bind_apply]
  cases hm : m c with
  | mk r c' =>
    rw [hm] at h
    cases r with
    | none => exact ⟨h.quiet, h.good, h.rest, fun _ => h.loud rfl⟩
    | some a => exact h.trans (hf a c' hm)

theorem log (hg : c.inference.Good) (event : Event) : Quietly c (Emit.log event c) :=
  ⟨.refl _, hg, .log c event, by simp [Emit.log, Emit.modify]⟩

theorem report (hg : c.inference.Good) (problem : Problem) (span : Span) :
    Quietly c (Emit.report problem span c) :=
  ⟨.refl _, hg, .report c problem (some span), by simp [Emit.report, Emit.modify]⟩

theorem fail (hg : c.inference.Good) (hp : problem.isWarning = false) (span : Span) :
    Quietly c ((Emit.fail problem span : Emit α) c) :=
  ⟨.refl _, hg, .report c problem (some span), fun _ => success_report hp c (some span)⟩

theorem assertType (hg : c.inference.Good) (hv : type.IsValue) (ops : List Operand) :
    Quietly c (Emit.assertType type ops c) ∧
      ((Emit.assertType type ops c).1 = some none → ∀ op ∈ ops, c.inference.Known op →
        (Emit.assertType type ops c).2.inference.Has op type) := by
  obtain ⟨hq, hg', hhas⟩ := Inference.assert_quiet hv ops hg
  have hi : (Emit.assertType type ops c).2.inference = (c.inference.assert type ops).2 :=
    c.inference_setInference _
  refine ⟨⟨hi ▸ hq, hi ▸ hg', .setInference c _, by simp [Emit.assertType]⟩, fun hn => ?_⟩
  rw [hi]
  exact hhas (Option.some.inj hn)

theorem expectType (hg : c.inference.Good) (hv : type.IsValue) (ops : List Operand) (span : Span) :
    Quietly c (Emit.expectType type ops span c) ∧
      (∀ c', Emit.expectType type ops span c = (some (), c') → ∀ op ∈ ops,
        c.inference.Known op → c'.inference.Has op type) := by
  obtain ⟨hq, hhas⟩ := assertType hg hv ops
  constructor
  · refine hq.bind fun mismatch c' hm => ?_
    rw [hm] at hq
    cases mismatch with
    | none => exact pure hq.good ()
    | some mismatch => exact fail hq.good rfl span
  · intro c' hc'
    simp only [Emit.expectType, Emit.bind_apply] at hc'
    cases hm : Emit.assertType type ops c with
    | mk r c₁ =>
      rw [hm] at hc' hhas
      obtain _ | _ | mismatch := r
      · cases hc'
      · cases hc'
        exact hhas rfl
      · cases hc'

theorem hintType (hg : c.inference.Good) (hv : type ≠ .void) (ops : List Operand) :
    Quietly c (Emit.hintType type ops c) := by
  obtain ⟨hq, hg'⟩ := Inference.hint_quiet hv ops hg
  have hi : (Emit.hintType type ops c).2.inference = c.inference.hint type ops :=
    c.inference_setInference _
  exact ⟨hi ▸ hq, hi ▸ hg', .setInference c _, by simp [Emit.hintType, Emit.modify]⟩

theorem expectedType (hg : c.inference.Good) (op : Operand) :
    Quietly c (Emit.expectedType op c) :=
  ⟨.refl _, hg, .refl c, by simp [Emit.expectedType]⟩

end Quietly
end Compilation
end ScriptBlocks
