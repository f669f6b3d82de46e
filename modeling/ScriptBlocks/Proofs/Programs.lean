import ScriptBlocks.Proofs.Between

/-!
# Programs

One step for each statement at the top of a program, and from it the run of a whole program. A
statement of the main script extends the chain below its start, a function becomes a procedure, and
directives and comments add no blocks.
-/
namespace ScriptBlocks.Emit

open Compilation

/-- The blocks `ids` of the main script read as trees. -/
def Told (t : Target) (ids : List String) (trees : List Tree) : Prop :=
  List.Forall₂ (fun x tree => tree.At t.look (· ∉ t.mainScript ids) x) ids trees

/-- What compiling a statement at the top of a program does. -/
structure Performs (env : Env) (s : Statement) (ids ids' : List String) (c c' : Compilation) :
    Prop where
  between : c'.Between ids'
  onward : Onward ids ids' c c'
  told : c'.project.success = true → env.Covers c'.inference → ∀ {trees},
    Told c.target ids trees → Told c'.target ids' (trees ++ env.statement s)
  checked : c'.project.success = true → ∀ {D : String → Prop}, (∀ x ∈ s.declared, D x) →
    (∀ name params body span, s = .function name params body span →
      ¬ D (Procedure.returnVariableName name.name c.target.name)) →
    c.Checked D (fun _ => False) → c'.Checked D fun _ => False
  /-- A function is new only if the statement defines it. -/
  defined : ∀ {f p}, c'.target.functionNamed? f = some p → c.target.functionNamed? f = some p ∨
    ∃ name params body span, s = .function name params body span ∧ name.name = f ∧
      Defines name params body p c c'
  defines : c'.project.success = true → ∀ {name params body span},
    s = .function name params body span → ∃ p, Defines name params body p c c'

section

variable {env : Env} {s : Statement} {ids ids' new : List String} {c c' c'' : Compilation}

theorem Told.onward {trees : List Tree} (h : Told c.target ids trees) (ho : Onward ids ids' c c') :
    List.Forall₂ (fun x tree => tree.At c'.target.look (· ∉ c'.target.mainScript ids') x) ids trees :=
  h.imp fun _ tree hat => hat.mono (fun _ _ hy hv => ho.look hy hv) (fun _ hv => ho.look_sameBlock hv) tree

/-- A statement without blocks. -/
theorem Performs.of_renamed (h : c.Between ids) (hr : c.target.Renamed c'.target)
    (hvars : c'.target.vars = c.target.vars) (hf : c'.function = none) (hrest : SameRest c c')
    (hempty : env.statement s = [])
    (hfail : ∀ name params body span, s = .function name params body span →
      c'.project.success = false) : Performs env s ids ids c c' := by
  obtain ⟨hb, ho⟩ := h.renamed hr hvars hf hrest
  refine ⟨hb, ho, fun _ _ trees ht => ?_, fun _ D _ _ hc => ?_, fun {f p} hp => ?_,
    fun hs {name params body span} heq => ?_⟩
  · rw [hempty, List.append_nil]
    exact ht.onward ho
  · exact hc.renamed h.good.tables hr hvars (hf.trans h.function.symm)
  · exact .inl (hr.functionNamed? f ▸ hp)
  · simp [hfail name params body span heq] at hs

/-- Contexts play no role, as long as they are kept. -/
theorem Defines.inContext {name : Named} {params : List Named} {body : List Statement}
    {p : Procedure} {m : Emit Unit} {span : Span}
    (h : Defines name params body p { c with contexts := span :: c.contexts }
      (m { c with contexts := span :: c.contexts }).2) :
    Defines name params body p c (Emit.inContext span m c).2 :=
  ⟨⟨h.rest.onStage, h.rest.other, h.rest.depth, congrArg List.tail h.rest.contexts, h.rest.success⟩,
    h.function, h.good, h.sound, h.advance, h.scopes, h.entry, h.targetName, h.vars, h.fresh,
    h.functionNamed?, h.coded, h.keys, h.arguments, h.marked, h.starts, h.definition, h.reads,
    fun hs _ hdeclared hD hc => (h.checked hs hdeclared hD (hc.of_eq rfl rfl)).of_eq rfl rfl⟩

theorem Performs.inContext {m : Emit Unit} {span : Span}
    (h : Performs env s ids ids' { c with contexts := span :: c.contexts }
      (m { c with contexts := span :: c.contexts }).2) :
    Performs env s ids ids' c (Emit.inContext span m c).2 := by
  have hb := h.between
  have ho := h.onward
  refine ⟨⟨hb.function, hb.depth, hb.good, hb.sound, hb.started, hb.idle, hb.definitions, hb.starts,
    hb.other⟩, ⟨ho.old, ho.fresh, ho.entry, ho.vars, ho.functions, ho.name, ho.success⟩, h.told,
    fun hs _ hdeclared hD hc => (h.checked hs hdeclared hD (hc.of_eq rfl rfl)).of_eq rfl rfl,
    fun hf => (h.defined hf).imp_right ?_, fun hs {name params body span} heq => ?_⟩
  · rintro ⟨name, params, body, span, heq, hname, hdef⟩
    exact ⟨name, params, body, span, heq, hname, hdef.inContext⟩
  · obtain ⟨p, hdef⟩ := h.defines hs heq
    exact ⟨p, hdef.inContext⟩

/-! ### Functions -/

namespace Defines

variable {name : Named} {params : List Named} {body : List Statement} {p : Procedure}

theorem old (h : Defines name params body p c c') (hb : c.Between ids) {x : String} {b : Block}
    (hx : c.target.block? x = some b) :
    ∃ b', c'.target.block? x = some b' ∧ Block.Kept False False False b b' := by
  obtain ⟨b', hb', hk⟩ := h.advance.old hx
  refine ⟨b', hb', hk.untracked ?_⟩
  rintro ⟨a, s, q, hs, -⟩
  simp [hb.function] at hs

theorem functionNamed?_of_some (h : Defines name params body p c c') {f : String} {q : Procedure}
    (hf : c.target.functionNamed? f = some q) : c'.target.functionNamed? f = some q := by
  rw [h.functionNamed?, if_neg]
  · exact hf
  · rintro rfl
    simp [h.fresh] at hf

theorem between (h : Defines name params body p c c') (hb : c.Between ids) : c'.Between ids where
  function := h.function
  depth := h.rest.depth.trans hb.depth
  good := h.good
  sound := h.sound
  started {e} he := by
    obtain ⟨hs, b, hx, hopcode⟩ := hb.started (h.entry ▸ he)
    obtain ⟨b', hb', hk⟩ := h.old hb hx
    refine ⟨hs.resite h.sound (fun x b hx => ?_) fun scopes hscopes => h.scopes.trans hscopes,
      b', hb', (hk.opcode id).trans hopcode⟩
    obtain ⟨b', hb', hk⟩ := h.old hb hx
    exact ⟨b', hb', fun _ => ⟨hk.next id, hk.parent id⟩⟩
  idle he := by
    rw [h.scopes]
    exact hb.idle (h.entry ▸ he)
  definitions {f q} hf := by
    rw [h.functionNamed?] at hf
    split at hf
    · cases hf
      exact h.definition.2
    · obtain ⟨b, hx, hopcode⟩ := hb.definitions hf
      obtain ⟨b', hb', hk⟩ := h.old hb hx
      exact ⟨b', hb', (hk.opcode id).trans hopcode⟩
  starts {x b} hx hopcode := by
    cases hx₀ : c.target.block? x with
    | none =>
      refine .inr ⟨name.name, p, ?_, (h.starts hx hx₀ hopcode).symm⟩
      rw [h.functionNamed?, if_pos rfl]
    | some b₀ =>
      obtain ⟨b', hb', hk⟩ := h.old hb hx₀
      obtain rfl := Option.mem_unique hx hb'
      rw [hk.opcode id] at hopcode
      rw [h.entry]
      refine (hb.starts hx₀ hopcode).imp_right ?_
      rintro ⟨f, q, hf, hq⟩
      exact ⟨f, q, h.functionNamed?_of_some hf, hq⟩
  other := h.rest.other ▸ hb.other

theorem onward (h : Defines name params body p c c') (hb : c.Between ids) : Onward ids ids c c' where
  old {x b} hx := by
    obtain ⟨b', hb', hk⟩ := h.old hb hx
    exact ⟨b', hb', hk.face, hk.inputs, fun _ => hk.next id, fun _ => hk.parent id, hk.inferred,
      hk.opcode⟩
  fresh hx := by
    rw [Target.mainScript, h.entry] at hx
    exact .inl hx
  entry he := h.entry.trans he
  vars := h.vars
  functions := h.functionNamed?_of_some
  name _ := h.targetName
  success := h.rest.success

theorem performs (h : Defines name params body p c c') (hb : c.Between ids) (env : Env)
    (span : Span) : Performs env (.function name params body span) ids ids c c' where
  between := h.between hb
  onward := h.onward hb
  told _ _ trees ht := by
    rw [show env.statement (.function name params body span) = [] by simp only [Env.statement],
      List.append_nil]
    exact ht.onward (h.onward hb)
  checked hs D hdeclared hD hc := by
    refine h.checked hs (fun x hx => hdeclared x ?_) (hD name params body span rfl) hc
    simpa only [Statement.declared] using hx
  defined {f q} hf := by
    rw [h.functionNamed?] at hf
    split at hf
    next hname =>
      cases hf
      exact .inr ⟨name, params, body, span, rfl, hname, h⟩
    next => exact .inl hf
  defines hs {name' params' body' span'} heq := by
    cases heq
    exact ⟨p, h⟩

end Defines

theorem function_performs (env : Env) (h : c.Between ids) (name : Named) (params : List Named)
    (body : List Statement) (span : Span) :
    Performs env (.function name params body span) ids ids c
      (function name params (statements body) c).2 := by
  obtain ⟨c', hrun, ⟨n, hn, hdrew⟩, hrest, hf, hfail⟩ | ⟨p, c', hrun, hdef⟩ :=
    function_defines h.function h.depth h.good h.sound h.exists_head name params body
  · rw [hrun]
    refine .of_renamed h ?_ ?_ hf hrest (by simp only [Env.statement]) fun _ _ _ _ _ => hfail
    · rw [hdrew]
      exact ⟨rfl, rfl, rfl, rfl, rfl, rfl, hn⟩
    · rw [hdrew]
  · rw [hrun]
    exact hdef.performs h env span

/-! ### Comments and directives -/

theorem comment_performs (env : Env) (h : c.Between ids) (text : String) (span : Span) :
    Performs env (.comment text span) ids ids c (comment text c).2 := by
  have hrun : (comment text c).2 = c.setTarget (c.target.addComment text).2 := rfl
  rw [hrun]
  refine .of_renamed h ?_ ?_ h.function (.setTarget c _) (by simp only [Env.statement])
    fun _ _ _ _ heq => ?_
  · rw [target_setTarget]
    exact .addComment c.target text
  · rw [target_setTarget]
    rfl
  · cases heq

/-- While both targets are blank it does not matter which of them receives the scripts. -/
theorem Performs.of_switch (h : c.Between ids) (hblank : c.target.Blank)
    (hstage : c'.project.stage = c.project.stage) (hsprite : c'.project.sprite = c.project.sprite)
    (hsuccess : c'.project.success = c.project.success)
    (hf : c'.function = c.function) (hdepth : c'.branchDepth = c.branchDepth)
    (hids : ids = []) (hempty : env.statement s = [])
    (hs : ∀ name params body span, s ≠ .function name params body span) :
    Performs env s ids ids c c' := by
  subst hids
  have hboth : c'.project.current.Blank ∧ c'.project.other.Blank := by
    obtain ⟨hcurrent, hother⟩ | ⟨hcurrent, hother⟩ := Project.current_or_other hstage hsprite
    · rw [hcurrent, hother]
      exact ⟨hblank, h.other⟩
    · rw [hcurrent, hother]
      exact ⟨h.other, hblank⟩
  have hf' : c'.function = none := hf.trans h.function
  refine ⟨.of_blank hf' (hdepth.trans h.depth) hboth.1 hboth.2, .of_blank hblank hsuccess.symm.trans,
    fun _ _ trees ht => ?_, fun _ D _ _ _ => .of_blank hf' hboth.1, fun {f p} hp => ?_,
    fun _ {name params body span} heq => absurd heq (hs name params body span)⟩
  · cases ht
    rw [hempty]
    exact .nil
  · have hblank' : c'.target.Blank := hboth.1
    simp [hblank'.functions] at hp

theorem success_switchTo? (p : Project) (name : String) :
    ((p.switchTo? name).getD p).success = p.success := by
  simp only [Project.switchTo?]
  split
  · rfl
  · split <;> rfl

/-- A directive may switch to the other target, but only while both are blank. -/
theorem directive_cases (h : c.Between ids) (name : Named) {c' : Compilation}
    (hrun : (directive name c).2 = c') :
    (c'.target = c.target ∧ c'.function = c.function ∧ SameRest c c') ∨
    c.target.Blank ∧ ids = [] ∧ c'.project.stage = c.project.stage ∧
      c'.project.sprite = c.project.sprite ∧ c'.project.success = c.project.success ∧
      c'.function = c.function ∧ c'.branchDepth = c.branchDepth ∧ c'.contexts = c.contexts := by
  subst hrun
  simp only [directive, bind_apply, get]
  split
  next => exact .inl ⟨rfl, rfl, .report c _ _⟩
  next hlate =>
    simp only [Bool.or_eq_true, not_or, Bool.not_eq_true, Option.isSome_eq_false_iff,
      Option.isNone_iff_eq_none] at hlate
    obtain ⟨⟨⟨hcontent, hentry⟩, -⟩, -⟩ := hlate
    split
    next =>
      obtain ⟨hblank, hids⟩ := h.blank hcontent hentry
      obtain ⟨hstage, hsprite⟩ := c.project.targets_switchTo? "Stage"
      exact .inr ⟨hblank, hids, hstage, hsprite, success_switchTo? c.project "Stage", rfl, rfl,
        rfl⟩
    next =>
      split
      next =>
        have hflag : SameRest c { c with project := { c.project with ignoreErrors := true } } :=
          ⟨rfl, rfl, rfl, rfl, id⟩
        exact .inl ⟨rfl, rfl, hflag.trans ((SameRest.report _ _ _).trans (.log _ _))⟩
      next => exact .inl ⟨rfl, rfl, .report c _ _⟩

theorem directive_performs (env : Env) (h : c.Between ids) (name : Named) (span : Span) :
    Performs env (.directive name span) ids ids c (directive name c).2 := by
  have hempty : env.statement (.directive name span) = [] := by simp only [Env.statement]
  obtain ⟨htarget, hf, hrest⟩ | ⟨hblank, hids, hstage, hsprite, hsuccess, hf, hdepth, -⟩ :=
    directive_cases h name rfl
  · refine .of_renamed h ?_ (congrArg Target.vars htarget) (hf.trans h.function) hrest hempty
      fun _ _ _ _ heq => by cases heq
    rw [htarget]
    exact ⟨rfl, rfl, rfl, rfl, rfl, rfl, Nat.le_refl _⟩
  · exact .of_switch h hblank hstage hsprite hsuccess hf hdepth hids hempty (by simp)

/-! ### Statements of the main script -/

/-- What is compiled into the main script has no reporters. -/
theorem argument_eq_none {σ : Script} {O : String → Prop} (h : Extended σ ids new O c c')
    (hf : c.function = none) {x : String} {b : Block} (hx : c'.target.block? x = some b)
    (hnone : c.target.block? x = none) : b.argument = none := by
  cases ha : b.argument with
  | none => rfl
  | some a =>
    obtain ⟨s, q, hs, -⟩ := h.marked hx hnone ha
    have hdevelops := h.function.isSome_eq
    simp only [inference_function] at hs
    simp [hf, hs] at hdevelops

section

variable {e : String} {O : String → Prop}

theorem extended_old (h : Extended ⟨some e, []⟩ ids new (fun _ => False) c c') (hb : c.Between ids)
    {x : String} {b : Block} (hx : c.target.block? x = some b) :
    ∃ b', c'.target.block? x = some b' ∧ Block.Kept False (x ∈ e :: ids) False b b' := by
  obtain ⟨b', hb', hk⟩ := h.runs.advance.old hx
  refine ⟨b', hb', hk.untracked ?_⟩
  rintro ⟨a, s, q, hs, -⟩
  simp [hb.function] at hs

theorem extended_between (h : Extended ⟨some e, []⟩ ids new (fun _ => False) c c')
    (hb : c.Between ids) (he : c.target.entry = some e) : c'.Between (ids ++ new) where
  function := by
    have hdevelops := h.function.isSome_eq
    simpa [hb.function] using hdevelops
  depth := h.rest.depth.trans hb.depth
  good := h.runs.good
  sound := h.runs.sited.sound
  started {e'} he' := by
    obtain rfl := Option.mem_unique he (h.persists.entry ▸ he')
    obtain ⟨-, b, hx, hopcode⟩ := hb.started he
    obtain ⟨b', hb', hk⟩ := extended_old h hb hx
    exact ⟨h.runs.sited, b', hb', (hk.opcode id).trans hopcode⟩
  idle hnone := by
    rw [h.persists.entry, he] at hnone
    cases hnone
  definitions {f p} hf := by
    obtain ⟨b, hx, hopcode⟩ := hb.definitions (h.persists.functionNamed? f ▸ hf)
    obtain ⟨b', hb', hk⟩ := extended_old h hb hx
    exact ⟨b', hb', (hk.opcode id).trans hopcode⟩
  starts {x b} hx hopcode := by
    cases hx₀ : c.target.block? x with
    | none => exact absurd ⟨argument_eq_none h hb.function hx hx₀, hopcode⟩ (h.inner hx hx₀)
    | some b₀ =>
      obtain ⟨b', hb', hk⟩ := extended_old h hb hx₀
      obtain rfl := Option.mem_unique hx hb'
      rw [hk.opcode id] at hopcode
      simp only [h.persists.entry, h.persists.functionNamed?]
      exact hb.starts hx₀ hopcode
  other := h.rest.other ▸ hb.other

theorem extended_onward (h : Extended ⟨some e, []⟩ ids new (fun _ => False) c c')
    (hb : c.Between ids) (he : c.target.entry = some e) : Onward ids (ids ++ new) c c' where
  old {x b} hx := by
    rw [Target.mainScript, he]
    exact extended_old h hb hx
  fresh {x} hx := by
    rw [Target.mainScript, h.persists.entry, ← List.append_assoc] at hx
    exact (List.mem_append.1 hx).imp_right h.fresh
  entry he' := h.persists.entry.trans he'
  vars := h.persists.vars
  functions {f p} hf := (h.persists.functionNamed? f).trans hf
  name _ := h.persists.name
  success := h.success

/-- The new blocks of the main script read as the translation of the statement. -/
theorem reads_told {trees : List Tree} (h : Extended ⟨some e, []⟩ ids new (fun _ => False) c c')
    (hb : c.Between ids) (he : c.target.entry = some e) (hr : Reads env ids new trees c c') :
    List.Forall₂ (fun x tree => tree.At c'.target.look (· ∉ c'.target.mainScript (ids ++ new)) x) new
      trees := by
  have hlook : ∀ {y v}, c.target.block? y = none → env.look c'.target y = some v →
      c'.target.look y = some v := by
    intro y v hy hv
    obtain ⟨b, hb', rfl⟩ := Option.map_eq_some_iff.1 hv
    refine Option.map_eq_some_iff.2 ⟨b, hb', (Env.view_eq_view fun a ha => ?_).symm⟩
    simp [argument_eq_none h hb.function hb' hy] at ha
  have hinner : ∀ y v, c.Inner (ids ++ new) y → env.look c'.target y = some v →
      y ∉ c'.target.mainScript (ids ++ new) ∧ c'.target.look y = some v := by
    refine fun y v hy hv => ⟨fun hm => ?_, hlook hy.1 hv⟩
    rw [Target.mainScript, h.persists.entry, he] at hm
    rcases List.mem_cons.1 hm with rfl | hm
    · obtain ⟨b, hb'⟩ := (hb.started he).1.exists_block (x := y) (by simp)
      simp [hy.1] at hb'
    · exact hy.2 hm
  refine (forall₂_mem hr).imp fun x tree hx => ?_
  exact hx.2.mono hinner (fun v hv => ⟨v, hlook (h.fresh hx.1) hv, .rfl⟩) tree

end

/-- A statement of the main script, once the script has a start. -/
theorem compiled_performs {e : String} (hb : c.Between ids) (he : c.target.entry = some e)
    (hs : needsEntry s = true)
    (h : Compiled env ⟨some e, []⟩ ids new (env.statement s) s.declared c c') :
    Performs env s ids (ids ++ new) c c' where
  between := extended_between h.extended hb he
  onward := extended_onward h.extended hb he
  told hsuccess hcov trees ht :=
    List.rel_append (ht.onward (extended_onward h.extended hb he))
      (reads_told h.extended hb he (h.reads hsuccess hcov))
  checked hsuccess D hdeclared _ hc := h.checked hsuccess D hdeclared hc
  defined {f p} hf := .inl (h.extended.persists.functionNamed? f ▸ hf)
  defines _ {name params body span} heq := by
    rw [heq] at hs
    cases hs

theorem Performs.after_start {c₁ : Compilation} (hstart : Started ids c c₁)
    (hs : needsEntry s = true) (h : Performs env s ids ids' c₁ c') : Performs env s ids ids' c c' where
  between := h.between
  onward := hstart.onward.trans h.onward
  told hsuccess hcov trees ht := h.told hsuccess hcov (ht.onward hstart.onward)
  checked hsuccess D hdeclared hD hc := by
    refine h.checked hsuccess hdeclared (fun name params body span heq => ?_) (hstart.checked hc)
    rw [hstart.name]
    exact hD name params body span heq
  defined {f p} hf := by
    refine (h.defined hf).imp (fun hf => ?_) ?_
    · rw [Target.functionNamed?, hstart.functions] at hf
      exact hf
    · rintro ⟨name, params, body, span, rfl, -⟩
      cases hs
  defines _ {name params body span} heq := by
    rw [heq] at hs
    cases hs

/-- One statement at the top of a program. -/
theorem visit_performs (env : Env) (h : c.Between ids) (s : Statement) :
    ∃ ids', Performs env s ids ids' c
      (inContext s.span (statement s)
        (if needsEntry s then c.setTarget c.target.ensureEntry else c)).2 := by
  cases hs : needsEntry s with
  | true =>
    have hstart := h.ensureEntry
    obtain ⟨e, he⟩ := hstart.entry
    obtain ⟨new, hc⟩ := (statement_compiles env s).inContext s.span hstart.between.good
      (hstart.between.started he).1 (.inl hs)
    exact ⟨ids ++ new, (compiled_performs hstart.between he hs hc).after_start hstart hs⟩
  | false =>
    have hb : Between ids { c with contexts := s.span :: c.contexts } := h.of_eq rfl rfl rfl
    refine ⟨ids, Performs.inContext ?_⟩
    cases s with
    | function name params body span => exact function_performs env hb name params body span
    | directive name span => exact directive_performs env hb name span
    | comment text span => exact comment_performs env hb text span
    | _ => cases hs

end

end ScriptBlocks.Emit
