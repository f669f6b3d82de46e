import ScriptBlocks.Proofs.Programs

/-!
# Outcomes of compilation

What holds of the project in the end, whatever the source text: the graphs of both targets are
linked, and the reporters of every function follow the types of its arguments. Without errors the
scripts read as the direct translation of the program and are well typed.
-/
namespace ScriptBlocks

variable {x sprite source : String} {t : Target}

/-- What the names in the main script of a target stand for. -/
def Target.env (t : Target) : Env where
  variableRef x := (t.builtVariable? x).map Variable.ref
  procedure := t.functionNamed?
  argumentType _ := none
  result := none

/-- What the names in the body of one of its functions stand for. -/
def Target.bodyEnv (t : Target) (p : Procedure) : Env :=
  { t.env with
    argumentType := fun a => (p.arguments.get? a).map Argument.type
    result := p.returnVariable }

theorem Target.bodyEnv_covers (t : Target) (p : Procedure) : (t.bodyEnv p).CoversBody p t :=
  ⟨fun hx _ => by simp [bodyEnv, env, hx], fun _ => rfl, id, id⟩

namespace Compilation

variable {env : Env} {ids ids' : List String} {c c' : Compilation}

theorem Onward.covers (h : Onward ids ids' c c') (hf : c.function = none)
    (hcov : env.Covers c'.inference) : env.Covers c.inference where
  vars {x v} hx := by
    obtain ⟨v', hv', hr⟩ := h.built hx
    rw [← hr]
    exact hcov.vars hv'
  arguments {s x} hs := by
    rw [inference_function, hf] at hs
    cases hs
  procedures hp := hcov.procedures (h.functions hp)
  result {s ref} hs := by
    rw [inference_function, hf] at hs
    cases hs

theorem Between.exists_block (h : c.Between ids) (hx : x ∈ c.target.mainScript ids) :
    ∃ b, c.target.block? x = some b := by
  cases he : c.target.entry with
  | none =>
    rw [Target.mainScript, he, (h.idle he).2] at hx
    cases hx
  | some e =>
    rw [Target.mainScript, he] at hx
    exact (h.started he).1.exists_block hx

theorem Between.env_covers (h : c.Between ids) : c.target.env.Covers c.inference where
  vars {x v} hx := ⟨rfl, by simp [Target.env, show c.target.builtVariable? x = some v from hx]⟩
  arguments {s x} hs := by
    rw [inference_function, h.function] at hs
    cases hs
  procedures := id
  result {s ref} hs := by
    rw [inference_function, h.function] at hs
    cases hs

theorem Between.new (sprite : String) : Between [] { project := .new sprite } :=
  .of_blank rfl rfl ⟨fun _ => rfl, fun _ => rfl, fun _ => rfl, rfl, rfl, rfl⟩
    ⟨fun _ => rfl, fun _ => rfl, fun _ => rfl, rfl, rfl, rfl⟩

end Compilation

theorem Visit.statement_mem_of_mem_program {body : List Statement} {c : Compilation} {v : Visit}
    (h : v ∈ Visit.program body c) : v.statement ∈ body := by
  induction body generalizing c with
  | nil => cases h
  | cons s rest ih =>
    obtain rfl | h := List.mem_cons.1 h
    · exact List.mem_cons_self
    · exact List.mem_cons_of_mem s (ih h)

namespace Emit

open Compilation

/-! ### Runs of programs -/

section

variable {env : Env} {ids : List String} {c : Compilation}

/-- The run of a program. Without errors the main script reads as its translation. -/
theorem program_runs (env : Env) (h : c.Between ids) (body : List Statement) :
    ∃ ids', (program body c).Between ids' ∧ Onward ids ids' c (program body c) ∧
      ((program body c).project.success = true → env.Covers (program body c).inference →
        ∀ {trees}, Told c.target ids trees →
          Told (program body c).target ids' (trees ++ env.script body)) := by
  induction body generalizing c ids with
  | nil =>
    simp only [program, Env.script, List.append_nil]
    exact ⟨ids, h, .refl ids c, fun _ _ _ => id⟩
  | cons s rest ih =>
    obtain ⟨ids₁, hs⟩ := visit_performs env h s
    obtain ⟨ids₂, hb, ho, htold⟩ := ih hs.between
    simp only [program, Env.script]
    refine ⟨ids₂, hb, hs.onward.trans ho, fun hsuccess hcov trees ht => ?_⟩
    rw [← List.append_assoc]
    exact htold hsuccess hcov (hs.told (ho.success hsuccess) (ho.covers hs.between.function hcov) ht)

/-- The main script as a whole. -/
theorem Told.script_at {trees : List Tree} (ht : Told c.target ids trees) (h : c.Between ids) :
    (c.target.entry = none → trees = []) ∧
    ∀ e, c.target.entry = some e → ∃ b, c.target.block? e = some b ∧ b.opcode = .flagClicked ∧
      ScriptAt c.target.look (fun _ => True) b.next trees := by
  constructor
  · intro he
    obtain ⟨-, rfl⟩ := h.idle he
    cases ht
    rfl
  · intro e he
    obtain ⟨hs, b, hx, hopcode⟩ := h.started he
    obtain ⟨⟨l, hl, -, hnext⟩, hrest⟩ := hs.chain
    rw [Target.links_eq_some hx] at hl
    cases hl
    refine ⟨b, hx, hopcode, ?_⟩
    rw [show b.next = ids.head? from hnext.trans (Option.or_none ..)]
    refine scriptAt_of_chain Block.view (fun _ => rfl) hrest (ht.imp fun x tree hat => ⟨trivial, ?_⟩)
    exact hat.mono (fun y v _ hv => ⟨trivial, hv⟩) (fun v hv => ⟨v, hv, .rfl⟩) tree

/-- A visit has made a function a procedure, which is kept up to a later state. -/
structure Introduced (name : Named) (params : List Named) (body : List Statement) (p : Procedure)
    (v : Visit) (c' : Compilation) : Prop where
  statement : ∃ span, v.statement = .function name params body span
  defines : Defines name params body p v.state v.after
  later : ∃ ids ids', v.state.Between ids ∧ Onward ids ids' v.after c'

namespace Introduced

variable {name : Named} {params : List Named} {body : List Statement} {p : Procedure} {v : Visit}
variable {c' : Compilation}

theorem functionNamed? (h : Introduced name params body p v c') :
    c'.target.functionNamed? name.name = some p := by
  obtain ⟨ids, ids', -, ho⟩ := h.later
  refine ho.functions ?_
  rw [h.defines.functionNamed?, if_pos rfl]

theorem target_name (h : Introduced name params body p v c') :
    c'.target.name = v.state.target.name := by
  obtain ⟨ids, ids', -, ho⟩ := h.later
  refine (ho.name (f := name.name) (p := p) ?_).trans h.defines.targetName
  rw [h.defines.functionNamed?, if_pos rfl]

/-- The reporters of the function keep the types and the shapes of its arguments. -/
theorem reporter (h : Introduced name params body p v c') {a : String} {b : Block}
    (hx : c'.target.block? x = some b) (hnone : v.state.target.block? x = none)
    (hsome : v.after.target.block? x ≠ none) (ha : b.argument = some a) :
    ∃ argument, p.arguments.get? a = some argument ∧ b.inferred = argument.type ∧
      b.opcode = Block.reporterOpcode argument.type := by
  obtain ⟨ids, ids', -, ho⟩ := h.later
  obtain ⟨b₁, hb₁⟩ := Option.ne_none_iff_exists'.1 hsome
  obtain ⟨b', hb', hk⟩ := ho.old hb₁
  obtain rfl := Option.mem_unique hx hb'
  obtain ⟨argument, hargument, htype, hopcode⟩ :=
    h.defines.marked hb₁ hnone (hk.argument.symm.trans ha)
  refine ⟨argument, hargument, ?_, (hk.opcode id).trans hopcode⟩
  rw [hk.inferred (htype ▸ (h.defines.arguments hargument).1), htype]

/-- The script below the definition of the function reads as the translation of its body. -/
theorem reads (h : Introduced name params body p v c') (hsuccess : c'.project.success = true)
    {env : Env} (hcov : env.CoversBody p c'.target) :
    ∃ b, c'.target.block? p.definition = some b ∧
      ScriptAt c'.target.look (fun _ => True) b.next (env.script body) := by
  obtain ⟨ids, ids', hb, ho⟩ := h.later
  have hnot : ∀ {x}, v.state.target.block? x = none → x ∉ v.after.target.mainScript ids := by
    intro x hnone hm
    rw [Target.mainScript, h.defines.entry] at hm
    obtain ⟨b, hx⟩ := hb.exists_block hm
    simp [hnone] at hx
  have hcov' : env.CoversBody p v.after.target := by
    refine ⟨fun hx ha => ?_, hcov.arguments, fun hf => hcov.procedures (ho.functions hf), hcov.result⟩
    obtain ⟨w, hw, hr⟩ := ho.built hx
    rw [← hr]
    exact hcov.vars hw ha
  obtain ⟨b, hx, hreads⟩ := h.defines.reads (ho.success hsuccess) hcov'
  obtain ⟨b', hb', hk⟩ := ho.old hx
  refine ⟨b', hb', ?_⟩
  rw [hk.next (hnot h.defines.definition.1)]
  exact scriptAt_mono (fun y w hy hw => ⟨trivial, (ho.look (hnot hy) hw).2⟩) _ _ hreads

end Introduced

/-- The rest of a program keeps the procedure. -/
theorem Defines.introduced {name : Named} {params : List Named} {inner : List Statement}
    {p : Procedure} {span : Span}
    (hdefines : Defines name params inner p c (Visit.after ⟨.function name params inner span, c⟩))
    (h : c.Between ids) (rest : List Statement) :
    Introduced name params inner p ⟨.function name params inner span, c⟩
      (program (.function name params inner span :: rest) c) := by
  obtain ⟨ids', -, ho, -⟩ := program_runs c.target.env (hdefines.between h) rest
  exact ⟨⟨span, rfl⟩, hdefines, ids, ids', h, ho⟩

/-- A procedure in the end has been there before, or a visit has introduced it. -/
theorem program_introduced (h : c.Between ids) {body : List Statement} {f : String} {p : Procedure}
    (hf : (program body c).target.functionNamed? f = some p) :
    c.target.functionNamed? f = some p ∨ ∃ v ∈ Visit.program body c, ∃ name params inner,
      name.name = f ∧ Introduced name params inner p v (program body c) := by
  induction body generalizing c ids with
  | nil => exact .inl hf
  | cons s rest ih =>
    obtain ⟨ids₁, hs⟩ := visit_performs c.target.env h s
    obtain hf₁ | ⟨v, hv, hintroduced⟩ := ih hs.between hf
    · refine (hs.defined hf₁).imp_right ?_
      rintro ⟨name, params, inner, span, rfl, hname, hdefines⟩
      exact ⟨_, List.mem_cons_self, name, params, inner, hname, Defines.introduced hdefines h rest⟩
    · exact .inr ⟨v, List.mem_cons_of_mem _ hv, hintroduced⟩

/-- Without errors every function of a program is introduced. -/
theorem program_introduces (h : c.Between ids) {body : List Statement}
    (hsuccess : (program body c).project.success = true) {name : Named} {params : List Named}
    {inner : List Statement} {span : Span} (hm : .function name params inner span ∈ body) :
    ∃ v ∈ Visit.program body c, ∃ p, Introduced name params inner p v (program body c) := by
  induction body generalizing c ids with
  | nil => cases hm
  | cons s rest ih =>
    obtain ⟨ids₁, hs⟩ := visit_performs c.target.env h s
    obtain ⟨ids₂, -, ho, -⟩ := program_runs c.target.env hs.between rest
    obtain rfl | hm := List.mem_cons.1 hm
    · obtain ⟨p, hdefines⟩ := hs.defines (ho.success hsuccess) rfl
      exact ⟨_, List.mem_cons_self, p, Defines.introduced hdefines h rest⟩
    · obtain ⟨v, hv, hintroduced⟩ := ih hs.between hsuccess hm
      exact ⟨v, List.mem_cons_of_mem _ hv, hintroduced⟩

/-- Without errors a program is well typed, unless a declaration takes the name of the variable for
the result of a function. -/
theorem program_checked {D : String → Prop} (h : c.Between ids) {body : List Statement}
    (hsuccess : (program body c).project.success = true)
    (hdeclared : ∀ x ∈ Statement.declaredIn body, D x)
    (hD : ∀ name params inner span, .function name params inner span ∈ body →
      ¬ D (Procedure.returnVariableName name.name (program body c).target.name))
    (hc : c.Checked D fun _ => False) : (program body c).Checked D fun _ => False := by
  induction body generalizing c ids with
  | nil => exact hc
  | cons s rest ih =>
    obtain ⟨ids₁, hs⟩ := visit_performs c.target.env h s
    obtain ⟨ids₂, -, ho, -⟩ := program_runs c.target.env hs.between rest
    have hsuccess₁ := ho.success hsuccess
    simp only [Statement.declaredIn, List.mem_append] at hdeclared
    refine ih hs.between hsuccess (fun x hx => hdeclared x (.inr hx))
      (fun name params inner span hm => hD name params inner span (List.mem_cons_of_mem _ hm))
      (hs.checked hsuccess₁ (fun x hx => hdeclared x (.inl hx)) ?_ hc)
    rintro name params inner span rfl
    obtain ⟨p, hdefines⟩ := hs.defines hsuccess₁ rfl
    rw [← (Defines.introduced hdefines h rest).target_name]
    exact hD name params inner span List.mem_cons_self

end

end Emit

/-! ### The project in the end -/

theorem Project.mem_targets {p : Project} (h : t ∈ p.targets) : t = p.current ∨ t = p.other := by
  simp only [targets, List.mem_cons, List.not_mem_nil, or_false] at h
  simp only [current, other]
  cases p.onStage
  · exact h.symm
  · exact h

/-- The state in which the compilation of a program ends. -/
def Program.compiled (program : Program) (sprite : String) : Compilation :=
  Emit.program program.statements { project := .new sprite }

theorem Program.compiled_between (program : Program) (sprite : String) :
    ∃ ids, (program.compiled sprite).Between ids := by
  obtain ⟨ids, hb, -⟩ := Emit.program_runs (Project.new sprite).current.env (.new sprite)
    program.statements
  exact ⟨ids, hb⟩

/-- Without errors the main script in the end reads as the translation of the program. -/
theorem Program.compiled_reads {program : Program}
    (hsuccess : (program.compiled sprite).project.success = true) :
    let t := (program.compiled sprite).target
    (t.entry = none → t.env.script program.statements = []) ∧
    ∀ e, t.entry = some e → ∃ b, t.block? e = some b ∧ b.opcode = .flagClicked ∧
      ScriptAt t.look (fun _ => True) b.next (t.env.script program.statements) := by
  obtain ⟨ids, hb, -, htold⟩ := Emit.program_runs (program.compiled sprite).target.env (.new sprite)
    program.statements
  exact (htold hsuccess hb.env_covers .nil).script_at hb

theorem compile_eq {program : Program} (h : Program.ofSource source = .ok program) (sprite : String) :
    compile source sprite = (program.compiled sprite).project := by
  simp only [compile, Project.compile, h]
  rfl

/-- A target that is not blank in the end has received the scripts of a program. -/
theorem blank_or_compiled (ht : t ∈ (compile source sprite).targets) :
    t.Blank ∨ ∃ program, Program.ofSource source = .ok program ∧
      t = (program.compiled sprite).target := by
  cases h : Program.ofSource source with
  | ok program =>
    obtain ⟨ids, hb⟩ := program.compiled_between sprite
    rw [compile_eq h] at ht
    obtain rfl | rfl := Project.mem_targets ht
    · exact .inr ⟨program, rfl, rfl⟩
    · exact .inl hb.other
  | error error =>
    have hb := Compilation.Between.new sprite
    simp only [compile, Project.compile, h] at ht
    obtain rfl | rfl := Project.mem_targets ht
    · exact .inl (hb.blank rfl rfl).1
    · exact .inl hb.other

/-- The graph of every target is linked in the end. -/
theorem linked_of_mem_targets (ht : t ∈ (compile source sprite).targets) : Linked t.links := by
  obtain hblank | ⟨program, -, rfl⟩ := blank_or_compiled ht
  · exact hblank.sound.linked
  · obtain ⟨ids, hb⟩ := program.compiled_between sprite
    exact hb.sound.linked

/-- A block is the child of another exactly if that block refers to it, and then it does so once. -/
theorem Linked.count_refs {g : LinkMap} (h : Linked g) {y : String} {l m : Links}
    (hx : g x = some l) (hy : g y = some m) :
    l.refs.count y = if m.parent = some x then 1 else 0 := by
  split
  next hp =>
    obtain ⟨l', hl', hmem⟩ := h.up hy hp
    obtain rfl := Option.mem_unique hx hl'
    rw [(h.nodup hx).count, if_pos hmem]
  next hp =>
    refine List.count_eq_zero.2 fun hmem => hp ?_
    obtain ⟨m', hm', hparent⟩ := h.down hx hmem
    obtain rfl := Option.mem_unique hy hm'
    exact hparent

/-- The links between the blocks of a project. Ids are keys, every reference leads to a block, a
block is referred to exactly once by its parent and by no other block, the way up ends, and a block
that stands for a value is the last of its chain. -/
theorem compile_linked (source sprite : String) :
    ∀ t ∈ (compile source sprite).targets, ∀ x b, t.block? x = some b →
      b.id = x ∧
      (∀ p, b.parent = some p → (t.block? p).isSome) ∧
      (∀ y ∈ b.links.refs, (t.block? y).isSome) ∧
      (∀ y c, t.block? y = some c →
        b.links.refs.count y = if c.parent = some x then 1 else 0) ∧
      Rooted t.links x ∧
      ∀ slot input y c, (slot, input) ∈ b.inputs.entries → isBodySlot slot = false →
        input.block? = some y → t.block? y = some c → c.next = none := by
  intro t ht x b hx
  have h := linked_of_mem_targets ht
  have hl := Target.links_eq_some hx
  refine ⟨h.id_eq hl, fun p hp => ?_, fun y hy => ?_,
    fun y c hy => h.count_refs hl (Target.links_eq_some hy), h.rooted hl,
    fun slot input y c hslot hbody hinput hy => ?_⟩
  · obtain ⟨m, hm, -⟩ := h.up hl hp
    obtain ⟨c, hc, -⟩ := Target.exists_of_links hm
    simp [hc]
  · obtain ⟨m, hm, -⟩ := h.down hl hy
    obtain ⟨c, hc, -⟩ := Target.exists_of_links hm
    simp [hc]
  · refine h.value_last (m := c.links) hl (List.mem_map.2 ⟨_, hslot, ?_⟩) hbody
      (Target.links_eq_some hy)
    simp only [hinput]

/-- A conditional refers once to its condition, which is the last of its chain. -/
theorem compile_linked_conditional :
    ∃ t ∈ (compile "let x = 1\nif x > 0 \x7b x = 2 \x7d" "Sprite1").targets, ∃ b c,
      t.block? "block_4" = some b ∧ t.block? "block_5" = some c ∧ c.parent = some "block_4" ∧
        b.id = "block_4" ∧ b.links.refs.count "block_5" = 1 ∧ Rooted t.links "block_5" ∧
        c.next = none := by
  obtain ⟨t, ht, b, hb, c, hc, hparent, ⟨slot, input⟩, he, rfl, hinput⟩ :
      ∃ t ∈ (compile "let x = 1\nif x > 0 \x7b x = 2 \x7d" "Sprite1").targets,
        ∃ b ∈ t.block? "block_4", ∃ c ∈ t.block? "block_5", c.parent = some "block_4" ∧
          ∃ e ∈ b.inputs.entries, e.1 = "CONDITION" ∧ e.2.block? = some "block_5" := by
    decide +kernel
  have hlinked := compile_linked _ _ t ht
  obtain ⟨hid, -, -, hcount, -, hvalue⟩ := hlinked "block_4" b hb
  obtain ⟨-, -, -, -, hrooted, -⟩ := hlinked "block_5" c hc
  refine ⟨t, ht, b, c, hb, hc, hparent, hid, ?_, hrooted, hvalue _ input _ c he rfl hinput hc⟩
  rw [hcount "block_5" c hc, if_pos hparent]

/-- Every argument of every procedure has a type, and the reporters of the argument that were made
while its function was compiled have this type and the shape for it. -/
theorem compile_reporters (source sprite : String) :
    ∀ t ∈ (compile source sprite).targets, ∀ f p, t.functionNamed? f = some p →
      (∀ a argument, p.arguments.get? a = some argument →
        argument.type ∈ [.boolean, .number, .string, .color]) ∧
      ∃ v ∈ Visit.ofSource source sprite,
        (∃ name params body span, v.statement = .function name params body span ∧ name.name = f) ∧
        v.state.target.functionNamed? f = none ∧ v.after.target.functionNamed? f = some p ∧
        ∀ x b a, t.block? x = some b → v.state.target.block? x = none →
          v.after.target.block? x ≠ none → b.argument = some a →
          ∃ argument, p.arguments.get? a = some argument ∧ b.inferred = argument.type ∧
            b.opcode = .reporter (argument.type = .boolean) := by
  intro t ht f p hf
  obtain hblank | ⟨program, hprogram, rfl⟩ := blank_or_compiled ht
  · simp [hblank.functions] at hf
  obtain hnone | ⟨v, hv, name, params, body, rfl, h⟩ :=
    Emit.program_introduced (Compilation.Between.new sprite) hf
  · cases hnone
  obtain ⟨span, hspan⟩ := h.statement
  refine ⟨fun a argument ha => ?_, v, ?_, ⟨name, params, body, span, hspan, rfl⟩, h.defines.fresh, ?_,
    fun x b a hx hnone hsome ha => h.reporter hx hnone hsome ha⟩
  · obtain ⟨hresolved, hvalue⟩ := h.defines.arguments ha
    cases htype : argument.type <;> simp_all
  · simp only [Visit.ofSource, hprogram]
    exact List.mem_flatMap.2 ⟨v, hv, Visit.mem_all.2 (.inl rfl)⟩
  · rw [h.defines.functionNamed?, if_pos rfl]

/-- The argument of a comparison, whose reporter is copied. -/
theorem compile_reporters_copied :
    ∃ t ∈ (compile "function f(a) \x7b if a >= 2 \x7b return 1 \x7d \x7d" "Sprite1").targets,
      ∃ p argument, t.functionNamed? "f" = some p ∧ p.arguments.get? "a" = some argument ∧
        argument.type ∈ [.boolean, .number, .string, .color] ∧
        ∃ v ∈ Visit.ofSource "function f(a) \x7b if a >= 2 \x7b return 1 \x7d \x7d" "Sprite1",
          v.state.target.functionNamed? "f" = none ∧ v.after.target.functionNamed? "f" = some p := by
  obtain ⟨t, ht, p, hp, argument, hargument, -⟩ :
      ∃ t ∈ (compile "function f(a) \x7b if a >= 2 \x7b return 1 \x7d \x7d" "Sprite1").targets,
        ∃ p ∈ t.functionNamed? "f", ∃ argument ∈ p.arguments.get? "a", True := by
    decide +kernel
  obtain ⟨htypes, v, hv, -, hbefore, hafter, -⟩ := compile_reporters _ _ t ht "f" p hp
  exact ⟨t, ht, p, argument, hp, hargument, htypes "a" argument hargument, v, hv, hbefore, hafter⟩

/-- Without errors, and where no declaration takes the name of the variable for the result of a
function, all blocks are well typed, and the variable for a result has the type of the result. -/
theorem compile_wellTyped {source : String} {program : Program} (sprite : String)
    (hprogram : Program.ofSource source = .ok program)
    (hsuccess : (compile source sprite).success = true)
    (hnames : ∀ name params body span, .function name params body span ∈ program.statements →
      Procedure.returnVariableName name.name (compile source sprite).current.name ∉
        Statement.declaredIn program.statements) :
    let t := (compile source sprite).current
    (∀ x b, t.block? x = some b → b.WellTyped t) ∧
      ∀ f p ref, t.functionNamed? f = some p → p.returnVariable = some ref →
        ∃ v, t.variableNamed? ref.name = some v ∧ v.ref = ref ∧ v.type = p.returnType := by
  intro t
  have hchecked : (program.compiled sprite).Checked (· ∈ Statement.declaredIn program.statements)
      fun _ => False := by
    rw [compile_eq hprogram] at hsuccess hnames
    refine Emit.program_checked (.new sprite) hsuccess (fun _ => id) hnames ?_
    exact .of_blank rfl ((Compilation.Between.new sprite).blank rfl rfl).1
  have ht : t = (program.compiled sprite).target := congrArg Project.current (compile_eq hprogram sprite)
  rw [ht]
  refine ⟨fun x b hx => hchecked.typed x b hx id, fun f p ref hf href => ?_⟩
  obtain ⟨v, hv, hvar, htype⟩ := hchecked.sane.results hf
    (hchecked.sane.returns hf (by simp [href]))
  obtain rfl := Option.mem_unique href hv
  exact ⟨v, hvar, rfl, htype⟩

/-- A call in a sum is well typed. -/
theorem compile_wellTyped_call :
    let project := compile "function f(a) \x7b return a + 1 \x7d\nlet x = f(1) + 2" "Sprite1"
    project.success = true ∧
      (∀ x b, project.current.block? x = some b → b.WellTyped project.current) ∧
      ∃ p ref v, project.current.functionNamed? "f" = some p ∧ p.returnVariable = some ref ∧
        project.current.variableNamed? ref.name = some v ∧ v.type = p.returnType := by
  intro project
  obtain ⟨program, hprogram, hdeclared⟩ : ∃ program ∈ (Program.ofSource
      "function f(a) \x7b return a + 1 \x7d\nlet x = f(1) + 2").toOption,
      Statement.declaredIn program.statements = ["x"] := by
    decide +kernel
  obtain ⟨hsuccess, p, hp, ref, href, -⟩ : project.success = true ∧
      ∃ p ∈ project.current.functionNamed? "f", ∃ ref ∈ p.returnVariable, True := by
    decide +kernel
  obtain ⟨htyped, hresult⟩ := compile_wellTyped "Sprite1" (Program.ofSource_eq_ok hprogram) hsuccess
    fun name params body span _ hm => by
      rw [hdeclared, List.mem_singleton] at hm
      have hlength := congrArg String.length hm
      rw [Procedure.returnVariableName, String.length_append,
        show "_ReturnValue".length = 12 from rfl, show "x".length = 1 from rfl] at hlength
      omega
  obtain ⟨v, hv, -, htype⟩ := hresult "f" p ref hp href
  exact ⟨hsuccess, htyped, p, ref, v, hp, href, hv, htype⟩

/-- A text that is no program is an error. -/
theorem exists_program_of_success {source sprite : String}
    (h : (compile source sprite).success = true) :
    ∃ program, Program.ofSource source = .ok program := by
  cases hsource : Program.ofSource source with
  | ok program => exact ⟨program, rfl⟩
  | error error =>
    have hloud : (Compilation.report { project := .new sprite } (.malformedSource error.message)
        (some error.span)).project.success = false := Compilation.success_report rfl _ _
    simp only [compile, Project.compile, hsource] at h
    cases hloud.symm.trans h

/-- Without errors the main script of the current target reads as the translation of the program,
the script below the definition of each of its functions reads as the translation of the body, and
no other block starts a script. -/
theorem compile_reads {source : String} {program : Program} (sprite : String)
    (hprogram : Program.ofSource source = .ok program)
    (hsuccess : (compile source sprite).success = true) :
    let t := (compile source sprite).current
    (t.entry = none → t.env.script program.statements = []) ∧
    (∀ e, t.entry = some e → ∃ b, t.block? e = some b ∧ b.opcode = .flagClicked ∧
      ScriptAt t.look (fun _ => True) b.next (t.env.script program.statements)) ∧
    (∀ name params body span, .function name params body span ∈ program.statements →
      ∃ p b, t.functionNamed? name.name = some p ∧ p.arguments.keys = params.map Named.name ∧
        t.block? p.definition = some b ∧ b.opcode = .definition ∧
        ScriptAt t.look (fun _ => True) b.next ((t.bodyEnv p).script body)) ∧
    ∀ x b, t.block? x = some b → b.opcode = .flagClicked ∨ b.opcode = .definition →
      t.entry = some x ∨ ∃ name params body span p,
        .function name params body span ∈ program.statements ∧
        t.functionNamed? name.name = some p ∧ p.definition = x := by
  intro t
  have ht : t = (program.compiled sprite).target := congrArg Project.current (compile_eq hprogram sprite)
  rw [compile_eq hprogram] at hsuccess
  rw [ht]
  obtain ⟨ids, hb⟩ := program.compiled_between sprite
  obtain ⟨hidle, hscript⟩ := Program.compiled_reads hsuccess
  refine ⟨hidle, hscript, fun name params body span hm => ?_, fun x b hx hopcode => ?_⟩
  · obtain ⟨v, -, p, h⟩ := Emit.program_introduces (.new sprite) hsuccess hm
    obtain ⟨b, hx, hreads⟩ := h.reads hsuccess (Target.bodyEnv_covers _ p)
    obtain ⟨b', hx', hopcode⟩ := hb.definitions h.functionNamed?
    obtain rfl := Option.mem_unique hx hx'
    exact ⟨p, b, h.functionNamed?, h.defines.keys, hx, hopcode, hreads⟩
  · have hstarts : b.opcode.startsScript = true := by
      rcases hopcode with hopcode | hopcode <;> rw [hopcode] <;> rfl
    refine (hb.starts hx hstarts).imp_right ?_
    rintro ⟨f, p, hf, rfl⟩
    obtain hnone | ⟨v, hv, name, params, body, rfl, h⟩ :=
      Emit.program_introduced (Compilation.Between.new sprite) hf
    · cases hnone
    obtain ⟨span, hspan⟩ := h.statement
    exact ⟨name, params, body, span, p, hspan ▸ Visit.statement_mem_of_mem_program hv, hf, rfl⟩

/-- A program with a function and a conditional. -/
theorem compile_reads_conditional :
    let source := "function f(a) \x7b return a + 1 \x7d\nlet x = 1\nif x > 0 \x7b x = f(x) \x7d"
    let t := (compile source "Sprite1").current
    ∃ program, Program.ofSource source = .ok program ∧ (compile source "Sprite1").success = true ∧
      ∃ e b, t.entry = some e ∧ t.block? e = some b ∧
        ScriptAt t.look (fun _ => True) b.next (t.env.script program.statements) := by
  intro source t
  obtain ⟨hsuccess, e, he, -⟩ : (compile source "Sprite1").success = true ∧
      ∃ e ∈ t.entry, True := by
    decide +kernel
  obtain ⟨program, hprogram⟩ := exists_program_of_success hsuccess
  obtain ⟨-, hscript, -⟩ := compile_reads "Sprite1" hprogram hsuccess
  obtain ⟨b, hb, -, hreads⟩ := hscript e he
  exact ⟨program, hprogram, hsuccess, e, b, he, hb, hreads⟩

end ScriptBlocks
