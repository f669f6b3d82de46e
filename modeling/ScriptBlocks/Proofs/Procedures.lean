import ScriptBlocks.Proofs.Functions

/-!
# Procedures

A function at the top of a program, from its head to its completion. Its body is a chain of its own,
so the scripts around it stay as they are; `Defines` says what is new afterwards.
-/
namespace ScriptBlocks

/-- What is read of a block as it stands. -/
def Block.view (b : Block) : View where
  opcode := b.opcode
  fields := b.fields.entries
  mutation := b.mutation
  slots := b.inputs.entries.map fun e => (e.1, e.2.value)
  next := b.next

def Target.look (t : Target) : String → Option View :=
  fun x => (t.block? x).map Block.view

theorem Procedure.returnVariableName_injective {f g target : String}
    (h : returnVariableName f target = returnVariableName g target) : f = g := by
  have hlists := congrArg String.toList h
  simp only [returnVariableName, String.toList_append] at hlists
  exact String.toList_injective (List.append_cancel_right (List.append_cancel_right
    (List.append_cancel_right hlists)))

/-- An environment that knows the types of arguments reads reporters as they stand. -/
theorem Env.view_eq_view {env : Env} {b : Block} (h : ∀ a, b.argument = some a →
    b.opcode = Block.reporterOpcode ((env.argumentType a).getD .unresolved)) :
    env.view b = b.view := by
  have hopcode : (env.view b).opcode = b.opcode := by
    cases ha : b.argument with
    | none => simp [view, ha]
    | some a => simp [view, ha, h a ha]
  rw [show env.view b = ⟨(env.view b).opcode, b.fields.entries, b.mutation,
    b.inputs.entries.map fun e => (e.1, e.2.value), b.next⟩ from rfl, hopcode]
  rfl

theorem Block.Kept.untracked {O C T : Prop} {b b' : Block} (h : Kept O C T b b') (hT : ¬ T) :
    Kept O C False b b' :=
  ⟨h.face, h.inputs, h.next, h.parent, h.inferred, fun _ => h.opcode hT⟩

/-- Ids that have not been drawn stay free. -/
theorem Inference.Advance.sound {O C : String → Prop} {i i' : Inference} (h : Advance O C i i')
    (hs : Sound i.target) (hl : Linked i'.target.links) : Sound i'.target := by
  refine ⟨hl, fun {n} hn => ?_⟩
  have hnone := hs.fresh (Nat.lt_of_le_of_lt h.drawn_le hn)
  rw [← Option.not_isSome_iff_eq_none, Option.isSome_iff_exists]
  rintro ⟨b, hb⟩
  obtain ⟨m, hm, -, hle⟩ := h.new hb hnone
  have := Target.idText_injective hm
  omega

/-- The environment gives the names in the body of a function their meaning. -/
structure Env.CoversBody (env : Env) (p : Procedure) (t : Target) : Prop where
  vars : ∀ {x v}, t.builtVariable? x = some v → env.argumentType x = none →
    env.variableRef x = some v.ref
  arguments : ∀ a, env.argumentType a = (p.arguments.get? a).map Argument.type
  procedures : ∀ {f q}, t.functionNamed? f = some q → env.procedure f = some q
  result : ∀ {ref}, p.returnVariable = some ref → env.result = some ref

namespace Emit

open Compilation

/-- The stages of compiling a function: its head, its body and its completion. -/
structure Staged (env : Env) (name : Named) (params : List Named) (body : List Statement)
    (s s₂ s₃ : Signature) (new : List String) (c c₁ c₂ : Compilation) (u : Target)
    (c' : Compilation) : Prop where
  announced : Announced name params s c c₁
  run : statements body (enterBlock c₁) = c₂
  compiled : Compiled env ⟨none, c₁.target.scopes⟩ [] new (env.script body)
    (Statement.declaredIn body) (enterBlock c₁) c₂
  signature : c₂.function = some s₂
  matures : s.Matures s₂
  completed : Completed s₂ s₃ new.head? { c₂.target with scopes := c₁.target.scopes } u c'
  rest : SameRest c₂ c'

section

variable {env : Env} {name : Named} {params : List Named} {body : List Statement}
variable {s s₂ s₃ : Signature} {new : List String} {c c₁ c₂ c' : Compilation} {u : Target}

theorem Announced.good (h : Announced name params s c c₁) (hg : c.inference.Good) :
    c₁.inference.Good := by
  obtain ⟨n, -, ht⟩ := h.drew
  refine ⟨hg.tables.of_tables ?_, fun {s₁} hs₁ => ?_, fun {s₁ a p x} hs₁ ha hx => ?_⟩
  · rw [inference_target, ht]
    rfl
  · obtain rfl := Option.mem_unique hs₁ h.function
    refine ⟨h.fresh.ids, fun hp => ?_, ?_⟩
    · rw [(h.fresh.params hp).1]
      decide
    · rw [h.fresh.type]
      decide
  · obtain rfl := Option.mem_unique hs₁ h.function
    simp [(h.fresh.params ha).2] at hx

theorem Announced.not_tracked (h : Announced name params s c c₁) (x : String) :
    ¬ c₁.inference.Tracked x := by
  rintro ⟨a, s₁, p, hs₁, hp, hx⟩
  obtain rfl := Option.mem_unique hs₁ h.function
  simp [(h.fresh.params hp).2] at hx

theorem block?_enterBlock (c : Compilation) (x : String) :
    (enterBlock c).target.block? x = c.target.block? x := by
  rw [enterBlock, target_setTarget]
  rfl

theorem drawn_enterBlock (c : Compilation) : (enterBlock c).target.drawn = c.target.drawn := by
  rw [enterBlock, target_setTarget]
  rfl

theorem Announced.block? (h : Announced name params s c c₁) (x : String) :
    c₁.target.block? x = c.target.block? x := by
  obtain ⟨n, -, ht⟩ := h.drew
  rw [ht]
  rfl

theorem Announced.drawn_le (h : Announced name params s c c₁) :
    c.target.drawn ≤ c₁.target.drawn := by
  obtain ⟨n, hn, ht⟩ := h.drew
  rw [ht]
  exact hn

theorem Announced.sound (h : Announced name params s c c₁) (hs : Sound c.target) :
    Sound c₁.target := by
  obtain ⟨n, hn, ht⟩ := h.drew
  rw [ht]
  exact ⟨hs.linked, fun hm => hs.fresh (Nat.lt_of_le_of_lt hn hm)⟩

theorem Announced.scopes (h : Announced name params s c c₁) : c₁.target.scopes = c.target.scopes := by
  obtain ⟨n, -, ht⟩ := h.drew
  rw [ht]

/-- The blocks at the top of the function are not written yet. -/
theorem Announced.pending (h : Announced name params s c c₁) (hs : Sound c.target) :
    s.Pending (enterBlock c₁).target := by
  obtain ⟨d, m, hd, hm, hlt, hdm, hle⟩ := h.ids
  refine ⟨⟨d, m, hd, hm, hdm, ?_⟩, ?_, ?_⟩
  · rw [drawn_enterBlock]
    exact hle
  · rw [block?_enterBlock, h.block?, hd]
    exact hs.fresh hlt
  · rw [block?_enterBlock, h.block?, hm]
    exact hs.fresh (Nat.lt_trans hlt hdm)

/-- A function is refused at its head, or it goes through all stages. -/
theorem function_stages (env : Env) (hf : c.function = none) (hdepth : c.branchDepth = 0)
    (hg : c.inference.Good) (hs : Sound c.target)
    (hheads : ∀ {anchor h}, .sequence anchor (some h) ∈ c.target.scopes →
      ∃ b, c.target.block? h = some b) (name : Named) (params : List Named) (body : List Statement) :
    (∃ c', function name params (statements body) c = (none, c') ∧ c.target.Drew c'.target ∧
      SameRest c c' ∧ c'.function = none ∧ c'.project.success = false) ∨
    ∃ s s₂ s₃ new c₁ c₂ u c', function name params (statements body) c = (some (), c') ∧
      Staged env name params body s s₂ s₃ new c c₁ c₂ u c' := by
  rw [function_apply]
  obtain ⟨c', hrun, hfail⟩ | ⟨s, c₁, hrun, h⟩ := functionHead_cases hf hdepth name params
  · exact .inl ⟨c', by rw [hrun], hfail⟩
  · have hgood : (enterBlock c₁).inference.Good := by
      rw [show (enterBlock c₁).inference = ⟨_, c₁.function⟩ from c₁.inference_setTarget _]
      exact (h.good hg).rewired (Rewired.of_blocks (O := fun _ => False) (C := fun _ => False) rfl rfl rfl)
    have hsited : Sited (enterBlock c₁).target ⟨none, c₁.target.scopes⟩ [] [] := by
      refine enterBlock_sited (h.sound hs) fun hm => ?_
      rw [h.scopes] at hm
      obtain ⟨b, hb⟩ := hheads hm
      exact ⟨b, (h.block? _).trans hb⟩
    have hinside : (enterBlock c₁).Inside := .inl (by
      rw [show (enterBlock c₁).function = some s from h.function]
      rfl)
    obtain ⟨new, hbc⟩ := statements_compile env body hgood hsited (.inr hinside)
    obtain ⟨s₂, hf₂, hmatures⟩ := hbc.extended.function.exists_later
      (show (enterBlock c₁).function = some s from h.function)
    have hadvance := hbc.extended.runs.advance
    have hpending : s₂.Pending (statements body (enterBlock c₁)).target := by
      refine (h.pending hs).later hmatures.follows hadvance.drawn_le fun n hn hnone => ?_
      rw [← Option.not_isSome_iff_eq_none, Option.isSome_iff_exists]
      rintro ⟨b, hb⟩
      obtain ⟨m, hm, hlt, -⟩ := hadvance.new hb hnone
      have := Target.idText_injective hm
      simp only [inference_target] at hlt
      omega
    obtain ⟨s₃, u, c', hclose, hrest, hcompleted⟩ :=
      closeFunction_completed hbc.extended.runs.sited hbc.extended.runs.good hf₂ hpending name
    refine .inr ⟨s, s₂, s₃, new, c₁, _, u, c', ?_, h, rfl, hbc, hf₂, hmatures, hcompleted, hrest⟩
    simp only [hrun, hclose]

namespace Staged

variable (h : Staged env name params body s s₂ s₃ new c c₁ c₂ u c') {x : String} {b : Block}

include h

theorem follows : s.Follows s₃ := by
  obtain ⟨_, ⟨⟩, hfollows, -⟩ := h.completed.quiet.function.exists_later rfl
  exact h.matures.follows.trans hfollows

theorem fresh (hx : x ∈ new) : c.target.block? x = none := by
  rw [← h.announced.block?, ← block?_enterBlock]
  exact h.compiled.extended.fresh hx

/-- Blocks from before are kept. -/
theorem old (hx : c.target.block? x = some b) :
    ∃ b', c'.target.block? x = some b' ∧ Block.Kept False False False b b' := by
  have hx₁ : (enterBlock c₁).target.block? x = some b := by
    rw [block?_enterBlock, h.announced.block?, hx]
  have hadvance := h.compiled.extended.runs.advance
  obtain ⟨b₂, hb₂, hk₂⟩ := hadvance.old hx₁
  obtain ⟨b', hb', -, hk'⟩ := h.completed.old hb₂
  have hnew : ¬ new.head? = some x := fun hhead => by
    simp [h.fresh (List.mem_of_mem_head? hhead)] at hx
  have htracked₁ : ¬ (enterBlock c₁).inference.Tracked x := h.announced.not_tracked x
  have htracked₂ : ¬ Inference.Tracked ⟨{ c₂.target with scopes := c₁.target.scopes }, some s₂⟩ x := by
    rintro ⟨a, _, p, ⟨⟩, hp, hmem⟩
    exact htracked₁ (hadvance.tracked hx₁ ⟨a, s₂, p, h.signature, hp, hmem⟩)
  refine ⟨b', hb', Block.Kept.untracked ?_ htracked₁⟩
  exact hk₂.trans hk' (fun ho => ho.elim id id) (fun ho => ho.elim (by simp) hnew) fun _ => htracked₂

/-- The new blocks have got new ids. -/
theorem new_id (hx : c'.target.block? x = some b) (hnone : c.target.block? x = none) :
    ∃ n, x = Target.idText "block" n ∧ c.target.drawn < n ∧ n ≤ c'.target.drawn := by
  have hadvance := h.compiled.extended.runs.advance
  have hle : c₂.target.drawn ≤ c'.target.drawn := h.completed.drawn_le
  have hle₁ : c₁.target.drawn ≤ c₂.target.drawn := drawn_enterBlock c₁ ▸ hadvance.drawn_le
  obtain ⟨d, m, hd, hm, hlt, hdm, hmle⟩ := h.announced.ids
  cases hx₂ : c₂.target.block? x with
  | some b₂ =>
    obtain ⟨n, hn, hlt, hnle⟩ := hadvance.new hx₂ (by
      rw [inference_target, block?_enterBlock, h.announced.block?, hnone])
    rw [inference_target, drawn_enterBlock] at hlt
    exact ⟨n, hn, Nat.lt_of_le_of_lt h.announced.drawn_le hlt, Nat.le_trans hnle hle⟩
  | none =>
    obtain ⟨rfl, -⟩ | ⟨rfl, -⟩ | ⟨n, a, p, hn, hlt, hnle, -⟩ := h.completed.top hx hx₂
    · exact ⟨d, h.follows.definition.trans hd, hlt, by omega⟩
    · exact ⟨m, h.follows.prototype.trans hm, by omega, by omega⟩
    · refine ⟨n, hn, ?_, hnle⟩
      have hlt : c₂.target.drawn < n := hlt
      have := h.announced.drawn_le
      omega

theorem advance :
    Inference.Advance (fun _ => False) (fun _ => False) c.inference c'.inference where
  old hx := by
    obtain ⟨b', hb', hk⟩ := h.old hx
    exact ⟨b', hb', hk.face, hk.inputs, hk.next, hk.parent, hk.inferred, fun _ => hk.opcode id⟩
  new hx hnone := h.new_id hx hnone
  drawn_le := by
    have hadvance := h.compiled.extended.runs.advance.drawn_le
    rw [inference_target, drawn_enterBlock] at hadvance
    exact Nat.le_trans h.announced.drawn_le (Nat.le_trans hadvance h.completed.drawn_le)
  tracked {x b} _ ht := by
    obtain ⟨a, s₁, p, hs₁, -⟩ := ht
    rw [inference_function, h.completed.function] at hs₁
    cases hs₁

theorem variableNamed? {v : Variable} (hx : c.target.variableNamed? x = some v) :
    ∃ v', c'.target.variableNamed? x = some v' ∧ v'.ref = v.ref ∧ (v.built = true → v'.built = true) := by
  obtain ⟨n, -, ht⟩ := h.announced.drew
  have hx₁ : (enterBlock c₁).target.variableNamed? x = some v := by
    rw [enterBlock, target_setTarget, ht]
    exact hx
  obtain ⟨v', hv', href, hbuilt⟩ := h.compiled.extended.persists.vars hx₁
  exact ⟨v', (h.completed.variableNamed? x).trans hv', href, hbuilt⟩

theorem functions_eq : c₂.target.functions = c.target.functions := by
  obtain ⟨n, -, ht⟩ := h.announced.drew
  rw [h.compiled.extended.persists.functions, enterBlock, target_setTarget, ht]
  rfl

theorem name_eq : c₂.target.name = c.target.name := by
  obtain ⟨n, -, ht⟩ := h.announced.drew
  rw [h.compiled.extended.persists.name, enterBlock, target_setTarget, ht]
  rfl

theorem entry_eq : c'.target.entry = c.target.entry := by
  obtain ⟨n, -, ht⟩ := h.announced.drew
  rw [h.completed.entry]
  refine h.compiled.extended.persists.entry.trans ?_
  rw [enterBlock, target_setTarget, ht]
  rfl

theorem functionNamed? (f : String) :
    c'.target.functionNamed? f =
      if name.name = f then some (s₃.build new.head? u).1 else c.target.functionNamed? f := by
  rw [h.completed.functionNamed?, h.follows.name, h.announced.name_eq]
  have : ({ c₂.target with scopes := c₁.target.scopes } : Target).functionNamed? f =
      c.target.functionNamed? f := congrArg (Table.get? · f) h.functions_eq
  rw [this]

/-- The reporters of the function have the types and the shapes of their arguments. -/
theorem marked {a : String} (hx : c'.target.block? x = some b) (hnone : c.target.block? x = none)
    (ha : b.argument = some a) :
    ∃ argument, (s₃.build new.head? u).1.arguments.get? a = some argument ∧
      b.inferred = argument.type ∧ b.opcode = Block.reporterOpcode argument.type := by
  obtain ⟨p, hp, htype, hopcode⟩ := h.completed.marked hx ha fun b₀ hb₀ => by
    obtain ⟨b', hb', -, hk⟩ := h.completed.old hb₀
    obtain rfl := Option.mem_unique hb' hx
    obtain ⟨s₁, p, hs₁, hp, hmem⟩ := h.compiled.extended.marked hb₀
      (by rw [block?_enterBlock, h.announced.block?, hnone]) (hk.argument.symm.trans ha)
    obtain rfl := Option.mem_unique hs₁ h.signature
    exact ⟨s₁, p, rfl, hp, hmem⟩
  exact ⟨⟨p.id, p.type⟩, by rw [Signature.build_argument?, hp]; rfl, htype, hopcode⟩

/-- Only the definition of the function starts a script. -/
theorem starts (hx : c'.target.block? x = some b) (hnone : c.target.block? x = none)
    (hb : b.opcode.startsScript = true) : x = s₃.definition := by
  have hargument : b.argument = none := by
    cases ha : b.argument with
    | none => rfl
    | some a =>
      obtain ⟨argument, -, -, hopcode⟩ := h.marked hx hnone ha
      simp [hopcode, Block.reporterOpcode, Opcode.startsScript] at hb
  cases hx₂ : c₂.target.block? x with
  | some b₂ =>
    obtain ⟨b', hb', -, hk⟩ := h.completed.old hx₂
    obtain rfl := Option.mem_unique hb' hx
    have hargument₂ : b₂.argument = none := hk.argument.symm.trans hargument
    refine absurd ⟨hargument₂, ?_⟩ (h.compiled.extended.inner hx₂ (by
      rw [block?_enterBlock, h.announced.block?, hnone]))
    rw [← Block.opcode_of_face hk.face hargument₂]
    exact hb
  | none =>
    obtain ⟨rfl, -⟩ | ⟨-, hopcode, -⟩ | ⟨_, _, _, -, -, -, -, hsome, -⟩ := h.completed.top hx hx₂
    · rfl
    · simp [hopcode, Opcode.startsScript] at hb
    · simp [hargument] at hsome

/-- No argument has the name of a variable. -/
theorem apart : c₂.Apart := by
  refine h.compiled.extended.apart fun x v s₁ hx hs₁ hm => ?_
  obtain rfl := Option.mem_unique h.announced.function hs₁
  have hx : c₁.target.variableNamed? x = some v := by
    rw [enterBlock, target_setTarget] at hx
    exact (Target.builtVariable?_eq_some.1 hx).1
  simp [h.announced.fresh.names x hm] at hx

theorem functionNamed?_of_some {f : String} {q : Procedure} (hf : c.target.functionNamed? f = some q) :
    c'.target.functionNamed? f = some q := by
  rw [h.functionNamed?, if_neg]
  · exact hf
  · rintro rfl
    simp [h.announced.functionNamed?] at hf

theorem covers (hcov : env.CoversBody (s₃.build new.head? u).1 c'.target) :
    env.Covers c₂.inference := by
  obtain ⟨_, ⟨⟩, hfollows, -⟩ := h.completed.quiet.function.exists_later rfl
  have hkeys : s₃.arguments.keys = s₂.arguments.keys := hfollows.keys
  refine ⟨fun {x v} hx => ?_, fun {s₁ x} hs₁ hx => ?_, fun {f q} hq => ?_, fun {s₁ ref} hs₁ href => ?_⟩
  · have hargument : env.argumentType x = none := by
      have hnot := h.apart x v s₂ hx h.signature
      rw [← hkeys, ← Table.get?_eq_none_iff] at hnot
      rw [hcov.arguments, Signature.build_argument?, hnot]
      rfl
    refine ⟨hargument, hcov.vars ?_ hargument⟩
    rw [Target.builtVariable?, h.completed.variableNamed?]
    exact hx
  · obtain rfl := Option.mem_unique hs₁ h.signature
    rw [← hkeys, ← Table.contains_iff] at hx
    rw [hcov.arguments, Signature.build_argument?, Option.isSome_map, Option.isSome_map]
    exact hx
  · refine hcov.procedures (h.functionNamed?_of_some ?_)
    rw [inference_target, Target.functionNamed?, h.functions_eq] at hq
    exact hq
  · obtain rfl := Option.mem_unique hs₁ h.signature
    exact hcov.result (h.completed.returnVariable.trans href)

/-- The script below the definition reads as the translation of the body. -/
theorem reads (hsuccess : c'.project.success = true)
    (hcov : env.CoversBody (s₃.build new.head? u).1 c'.target) :
    ScriptAt c'.target.look (fun x => c.target.block? x = none) new.head? (env.script body) := by
  have hreads := h.compiled.reads (h.rest.success hsuccess) (h.covers hcov)
  have hblock (x : String) : (enterBlock c₁).target.block? x = c.target.block? x := by
    rw [block?_enterBlock, h.announced.block?]
  have hscript : ScriptAt (env.look c₂.target) (fun x => c.target.block? x = none) new.head?
      (env.script body) := by
    refine scriptAt_of_chain env.view (fun _ => rfl) h.compiled.extended.runs.sited.chain ?_
    refine (forall₂_mem hreads).imp fun x tree hx => ⟨h.fresh hx.1, hx.2.mono (fun y v hy hv => ?_)
      fun v hv => ⟨v, hv, .rfl⟩⟩
    exact ⟨(hblock y).symm.trans hy.1, hv⟩
  refine scriptAt_mono (fun y v hy hv => ⟨hy, ?_⟩) _ _ hscript
  obtain ⟨b, hb, rfl⟩ := Option.map_eq_some_iff.1 (h.completed.look hv)
  refine Option.map_eq_some_iff.2 ⟨b, hb, (Env.view_eq_view fun a ha => ?_).symm⟩
  obtain ⟨argument, hargument, -, hopcode⟩ := h.marked hb hy ha
  rw [hcov.arguments, hargument]
  exact hopcode

/-- The body of a function starts from a checked state: the variable for the result does not exist
yet. -/
theorem checked_start {D : String → Prop} (hg : c.inference.Good) (hf : c.function = none)
    (hD : ¬ D (Procedure.returnVariableName name.name c.target.name))
    (hc : c.Checked D fun _ => False) : (enterBlock c₁).Checked D fun _ => False := by
  obtain ⟨n, -, ht⟩ := h.announced.drew
  have htarget : (enterBlock c₁).target = c₁.target.enter (.after none) := target_setTarget _ _
  have htables : (enterBlock c₁).target.tables = c.target.tables := by
    rw [htarget, ht]
    rfl
  have hname : (enterBlock c₁).target.name = c.target.name := (congrArg Target.name htables :)
  have hfuns : (enterBlock c₁).target.functions = c.target.functions :=
    (congrArg Target.functions htables :)
  have hvars (x : String) : (enterBlock c₁).target.variableNamed? x = c.target.variableNamed? x :=
    congrArg (Table.get? · x) (congrArg Target.vars htables :)
  refine hc.rename hg.tables (by rw [htarget, ht]; rfl) hfuns (.of_tables htables)
    (fun x v hx hv => hc.unbuilt x v hx (hvars x ▸ hv)) (fun x v hx => ?_) fun s₁ hs₁ => ?_
  · refine (hc.named x v (hvars x ▸ hx)).imp_right fun hown => hown.congr hname hfuns fun s₁ hs₁ => ?_
    rw [hf] at hs₁
    cases hs₁
  · obtain rfl := Option.mem_unique h.announced.function hs₁
    rw [hname.symm, h.announced.name_eq.symm] at hD
    refine ⟨hD, fun {ref} href => ?_, fun _ => ⟨h.announced.fresh.type, ?_⟩⟩
    · rw [h.announced.fresh.result] at href
      cases href
    · rw [hvars, ← Option.not_isSome_iff_eq_none, Option.isSome_iff_exists]
      rintro ⟨v, hv⟩
      rcases hc.named _ v hv with hD' | ⟨f, heq, hown⟩
      · exact hD hD'
      · rw [hname] at heq
        obtain rfl := Procedure.returnVariableName_injective heq
        rw [h.announced.name_eq, h.announced.functionNamed?, hf] at hown
        simp at hown

/-- Without errors the function is well typed. -/
theorem checked {D : String → Prop} (hg : c.inference.Good) (hf : c.function = none)
    (hsuccess : c'.project.success = true) (hdeclared : ∀ x ∈ Statement.declaredIn body, D x)
    (hD : ¬ D (Procedure.returnVariableName name.name c.target.name))
    (hc : c.Checked D fun _ => False) : c'.Checked D fun _ => False := by
  have hsuccess₂ := h.rest.success hsuccess
  have hset : c₂.ResultSettled := by
    refine h.compiled.settled hsuccess₂ fun s₁ hs₁ hvar => ?_
    obtain rfl := Option.mem_unique h.announced.function hs₁
    exact absurd h.announced.fresh.result hvar
  refine h.completed.checked h.compiled.extended.runs.good h.signature ?_ hset
    (h.compiled.checked hsuccess₂ D hdeclared (h.checked_start hg hf hD hc))
  rw [h.matures.follows.name, h.announced.name_eq, Target.functionNamed?, h.functions_eq]
  exact h.announced.functionNamed?

theorem linked : Linked c'.target.links := by
  have hlinks : c'.target.links = (s₃.build new.head? u).2.links := by
    funext x
    rw [Target.links, Target.links, h.completed.block?]
  rw [hlinks]
  exact h.completed.written.linked

theorem sameRest : SameRest c c' :=
  (h.announced.rest.trans (.setTarget c₁ _)).trans (h.compiled.extended.rest.trans h.rest)

theorem good : c'.inference.Good := by
  refine ⟨h.completed.proper fun htype => ?_, fun {s₁} hs₁ => ?_, fun {s₁ _ _ _} hs₁ => ?_⟩
  · exact (h.matures.made htype).resolve_left fun hne => hne h.announced.fresh.type
  all_goals
    rw [inference_function, h.completed.function] at hs₁
    cases hs₁

theorem scopes_eq : c'.target.scopes = c.target.scopes :=
  h.completed.scopes.trans h.announced.scopes

theorem keys : (s₃.build new.head? u).1.arguments.keys = params.map Named.name := by
  rw [Table.keys, Signature.build_arguments, List.map_map, ← h.announced.keys, ← h.follows.keys]
  rfl

theorem coded : (s₃.build new.head? u).1.Coded name.name := by
  rw [← h.announced.name_eq, ← h.follows.name]
  exact s₃.build_coded new.head? u

/-- The definition of the function is new. -/
theorem definition_new (hs : Sound c.target) : c.target.block? s₃.definition = none := by
  obtain ⟨d, m, hd, -, hlt, -⟩ := h.announced.ids
  rw [h.follows.definition, hd]
  exact hs.fresh hlt

end Staged

end

/-- A function has become a procedure. What was there before is kept, and without errors the script
below its definition reads as its body and is well typed. -/
structure Defines (name : Named) (params : List Named) (body : List Statement) (p : Procedure)
    (c c' : Compilation) : Prop where
  rest : SameRest c c'
  function : c'.function = none
  good : c'.inference.Good
  sound : Sound c'.target
  advance : Inference.Advance (fun _ => False) (fun _ => False) c.inference c'.inference
  scopes : c'.target.scopes = c.target.scopes
  entry : c'.target.entry = c.target.entry
  targetName : c'.target.name = c.target.name
  vars : ∀ {x v}, c.target.variableNamed? x = some v → ∃ v', c'.target.variableNamed? x = some v' ∧
    v'.ref = v.ref ∧ (v.built = true → v'.built = true)
  fresh : c.target.functionNamed? name.name = none
  functionNamed? : ∀ f, c'.target.functionNamed? f =
    if name.name = f then some p else c.target.functionNamed? f
  coded : p.Coded name.name
  keys : p.arguments.keys = params.map Named.name
  arguments : ∀ {a argument}, p.arguments.get? a = some argument →
    argument.type ≠ .unresolved ∧ argument.type ≠ .void
  marked : ∀ {x b a}, c'.target.block? x = some b → c.target.block? x = none →
    b.argument = some a → ∃ argument, p.arguments.get? a = some argument ∧
      b.inferred = argument.type ∧ b.opcode = Block.reporterOpcode argument.type
  starts : ∀ {x b}, c'.target.block? x = some b → c.target.block? x = none →
    b.opcode.startsScript = true → x = p.definition
  definition : c.target.block? p.definition = none ∧
    ∃ b, c'.target.block? p.definition = some b ∧ b.opcode = .definition
  reads : c'.project.success = true → ∀ {env : Env}, env.CoversBody p c'.target →
    ∃ b, c'.target.block? p.definition = some b ∧
      ScriptAt c'.target.look (fun x => c.target.block? x = none) b.next (env.script body)
  checked : c'.project.success = true → ∀ {D : String → Prop},
    (∀ x ∈ Statement.declaredIn body, D x) →
    ¬ D (Procedure.returnVariableName name.name c.target.name) →
    c.Checked D (fun _ => False) → c'.Checked D fun _ => False

/-- A function at the top of a program is refused at its head, or it becomes a procedure. -/
theorem function_defines {c : Compilation} (hf : c.function = none) (hdepth : c.branchDepth = 0)
    (hg : c.inference.Good) (hs : Sound c.target)
    (hheads : ∀ {anchor h}, .sequence anchor (some h) ∈ c.target.scopes →
      ∃ b, c.target.block? h = some b) (name : Named) (params : List Named) (body : List Statement) :
    (∃ c', function name params (statements body) c = (none, c') ∧ c.target.Drew c'.target ∧
      SameRest c c' ∧ c'.function = none ∧ c'.project.success = false) ∨
    ∃ p c', function name params (statements body) c = (some (), c') ∧
      Defines name params body p c c' := by
  have hstages (env : Env) := function_stages env hf hdepth hg hs hheads name params body
  obtain hfail | ⟨s, s₂, s₃, new, c₁, c₂, u, c', hrun, h⟩ :=
    hstages ⟨fun _ => none, fun _ => none, fun _ => none, none⟩
  · exact .inl hfail
  obtain ⟨b, hb, hopcode, -⟩ := h.completed.written.definition
  refine .inr ⟨(s₃.build new.head? u).1, c', hrun, h.sameRest, h.completed.function, h.good,
    h.advance.sound hs h.linked, h.advance, h.scopes_eq, h.entry_eq, h.completed.name.trans h.name_eq,
    h.variableNamed?, h.announced.functionNamed?, h.functionNamed?, h.coded, h.keys, h.completed.argument,
    h.marked, h.starts, ⟨h.definition_new hs, b, h.completed.block? _ ▸ hb, hopcode⟩,
    fun hsuccess env hcov => ?_, fun hsuccess _ hdeclared hD hc =>
      h.checked hg hf hsuccess hdeclared hD hc⟩
  -- the same run, now with the environment in which the body is read
  obtain ⟨d, hfail, -⟩ | ⟨r, r₂, r₃, new', d₁, d₂, w, d, hrun', h'⟩ := hstages env
  · simp [hrun] at hfail
  obtain rfl : c' = d := congrArg Prod.snd (hrun.symm.trans hrun')
  have hp : (s₃.build new.head? u).1 = (r₃.build new'.head? w).1 := by
    have hsome := (h.functionNamed? name.name).symm.trans (h'.functionNamed? name.name)
    simpa using hsome
  rw [hp] at hcov ⊢
  obtain ⟨b', hb', -, hnext⟩ := h'.completed.written.definition
  exact ⟨b', h'.completed.block? _ ▸ hb', hnext ▸ h'.reads hsuccess hcov⟩

end Emit
end ScriptBlocks
