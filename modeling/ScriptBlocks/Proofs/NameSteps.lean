import Mathlib.Logic.Relation
import ScriptBlocks.Proofs.Points
import ScriptBlocks.Proofs.Variables

/-!
# Steps that change names

What compiling a program can do to names: a variable is declared, a function is begun or completed,
or the target is switched. Every compilation is a sequence of such steps and of steps that change no
name, so what they preserve holds at every point of it.
-/
namespace ScriptBlocks

/-- The name of a function and those of its arguments are free. -/
structure Signature.Clear (s : Signature) (t : Target) : Prop where
  undeclared : t.builtVariable? s.name = none
  function : t.functionNamed? s.name = none
  arguments : ∀ x ∈ s.arguments.keys, t.builtVariable? x = none ∧ x ≠ s.name

theorem Signature.Clear.same {s s' : Signature} {c c' : Compilation} (h : s.Clear c.target)
    (hc : c.SameNames c') (hs : s'.names = s.names) : s'.Clear c'.target := by
  have hname : s'.name = s.name := (congrArg Prod.fst hs :)
  have hkeys : s'.arguments.keys = s.arguments.keys := (congrArg Prod.snd hs :)
  constructor
  · rw [hname, hc.builtVariable?_eq_none]
    exact h.undeclared
  · rw [hname, hc.functionNamed?_eq_none]
    exact h.function
  · rw [hname, hkeys]
    intro x hx
    rw [hc.builtVariable?_eq_none]
    exact h.arguments x hx

namespace Compilation

variable {c c' : Compilation} {x : String}

/-- A variable of this name can be declared. -/
structure Free (c : Compilation) (x : String) : Prop where
  undeclared : c.target.builtVariable? x = none
  function : c.target.functionNamed? x = none
  signature : ∀ s, c.function = some s → x ≠ s.name ∧ x ∉ s.arguments.keys

theorem Free.same (h : c.Free x) (hc : c.SameNames c') : c'.Free x := by
  refine ⟨hc.builtVariable?_eq_none.2 h.undeclared, hc.functionNamed?_eq_none.2 h.function,
    fun s' hs' => ?_⟩
  obtain ⟨s, hs, hnames⟩ := hc.exists_of_some hs'
  have hname : s'.name = s.name := (congrArg Prod.fst hnames :)
  have hkeys : s'.arguments.keys = s.arguments.keys := (congrArg Prod.snd hnames :)
  rw [hname, hkeys]
  exact h.signature s hs

/-- One step, by what it does to names. -/
inductive NameStep (c : Compilation) : Compilation → Prop
  | same {c' : Compilation} (h : c.SameNames c') : NameStep c c'
  | declare (x : String) (f : Variable → Variable) (h : c.Free x) :
      NameStep c (c.setTarget (c.target.modifyVariable x f))
  | begin (s : Signature) (hf : c.function = none) (hs : s.Clear c.target) :
      NameStep c { c with function := some s }
  /-- On the way the types of its arguments may be settled. -/
  | complete {c' : Compilation} (s : Signature) (p : Procedure) (hs : c.function = some s)
      (h : { c with function := none }.SameNames c') (hp : p.name = s.name) :
      NameStep c (c'.setTarget (c'.target.addFunction p))
  | switch {c' : Compilation} (hcontent : c.target.hasContent = false)
      (hentry : c.target.entry = none) (hf : c.function = none) (hf' : c'.function = none)
      (hstage : c'.project.stage = c.project.stage)
      (hsprite : c'.project.sprite = c.project.sprite) : NameStep c c'

def NameSteps : Compilation → Compilation → Prop :=
  Relation.ReflTransGen NameStep

namespace NameSteps

theorem same (h : c.SameNames c') : c.NameSteps c' :=
  .single (.same h)

theorem trans {c'' : Compilation} (h : c.NameSteps c') (h' : c'.NameSteps c'') : c.NameSteps c'' :=
  Relation.ReflTransGen.trans h h'

/-- What every step preserves is preserved. -/
theorem preserve {P : Compilation → Prop} (hstep : ∀ {c c'}, NameStep c c' → P c → P c')
    (h : c.NameSteps c') (hc : P c) : P c' := by
  induction h with
  | refl => exact hc
  | tail _ h ih => exact hstep h ih

end NameSteps
end Compilation

namespace Emit

open Compilation

variable {c c' : Compilation}

/-! ### Declarations -/

/-- Steps that declare a variable of this name, if they declare one. -/
def Declares (x : String) {α : Type} (m : Emit α) : Prop :=
  ∀ c : Compilation, c.Free x → c.NameSteps (m c).2

theorem Declares.bind {α β : Type} {x : String} {m : Emit α} {f : α → Emit β} (hm : KeepsNames m)
    (hf : ∀ a, Declares x (f a)) : Declares x (m >>= f) := by
  intro c hc
  have h := hm c
  rw [bind_apply]
  cases hr : m c with
  | mk r c' =>
    rw [hr] at h
    cases r with
    | none => exact .same h
    | some a => exact (NameSteps.same h).trans (hf a c' (hc.same h))

theorem free_of_checks {x : String}
    (hvar : ¬ ((c.target.builtVariable? x).isSome || c.isArgument x) = true)
    (hfun : ¬ isFunctionName c x = true) : c.Free x := by
  simp only [Bool.or_eq_true, not_or, Bool.not_eq_true, Option.isSome_eq_false_iff,
    Option.isNone_iff_eq_none] at hvar
  simp only [isFunctionName, Bool.or_eq_true, not_or, Bool.not_eq_true, Option.isSome_eq_false_iff,
    Option.isNone_iff_eq_none] at hfun
  refine ⟨hvar.1, hfun.1, fun s hs => ⟨?_, ?_⟩⟩
  · have hname := hfun.2
    rw [hs] at hname
    simpa using Ne.symm (of_decide_eq_false hname)
  · have hargument := hvar.2
    simp only [isArgument, hs, Signature.hasArgument] at hargument
    rw [← Table.contains_iff, hargument]
    exact Bool.false_ne_true

theorem declare_nameSteps (named : Named) (value : Expr) (c : Compilation) :
    c.NameSteps (declare named (part value) c).2 := by
  have law : Law KeepsNames := KeepsNames.law
  have hlog : c.SameNames (c.log (.declaring named.name)) := law.log _ c
  simp only [declare, bind_apply, log, modify, get]
  split
  next => exact .same (hlog.trans (law.fail rfl named.span _))
  next hvar =>
    split
    next => exact .same (hlog.trans (law.fail rfl named.span _))
    next hfun =>
      have hend (type : ValueType) : Declares named.name (do
          modifyTarget (·.modifyVariable named.name ({ · with type, built := true }))
          log (.declared named.name type)) :=
        fun c hc => (NameSteps.trans (.single (.declare named.name _ hc)) (.same (law.log _ _)))
      have htail : Declares named.name (do
          let ref ← onTarget (·.createVariable named.name .unresolved)
          let id ← place fun id => .setVariable id ref .empty
          let operand ← within (.inputs id 0) (part value).operand
          settleVariable named.name operand (part value).span) :=
        .bind (.createVariable _ _) fun _ => .bind (law.place _) fun _ =>
          .bind (law.within (law.operand (law.expression value) _) _) fun _ =>
            .bind (law.expectedType _) fun _ => .bind (law.declaredType _ _ _) fun _ =>
              .bind (law.expectType _ _ _) fun _ => hend _
      exact (NameSteps.same hlog).trans (htail _ (free_of_checks hvar hfun))

/-! ### Functions -/

theorem parameters_clear {signature settled : Signature} {params : List Named}
    (h : parameters signature params c = (some settled, c')) :
    settled.name = signature.name ∧
      settled.arguments.keys = signature.arguments.keys ++ params.map Named.name ∧
      ∀ x ∈ params.map Named.name, c.target.variableNamed? x = none ∧ x ≠ signature.name := by
  induction params generalizing signature c with
  | nil =>
    cases h
    simp
  | cons parameter rest ih =>
    rw [parameters_cons] at h
    split at h
    next => cases h
    next hname =>
      split at h
      next => cases h
      next hvar =>
        split at h
        next => cases h
        next hargument =>
          obtain ⟨hname', hkeys, hrest⟩ := ih h
          have hnew : parameter.name ∉ signature.arguments.keys := fun hm =>
            hargument ((signature.arguments.contains_iff parameter.name).2 hm)
          refine ⟨hname', ?_, List.forall_mem_cons.2 ⟨⟨by simpa using hvar, hname⟩, fun x hx => ?_⟩⟩
          · rw [hkeys, Table.keys_insert_of_not_mem hnew]
            simp
          · obtain ⟨hx, hne⟩ := hrest x hx
            rw [target_setTarget] at hx
            exact ⟨hx, hne⟩

theorem functionSignature_clear {name : Named} {params : List Named} {s : Signature}
    (h : functionSignature name params c = (some s, c')) :
    c.function = none ∧ s.Clear c.target ∧ s.names = (name.name, params.map Named.name) := by
  simp only [functionSignature, bind_apply, log, modify, get] at h
  split at h
  next => cases h
  next hnested =>
    split at h
    next => cases h
    next hvar =>
      split at h
      next => cases h
      next hfun =>
        simp only [Bool.or_eq_true, not_or, Bool.not_eq_true, Option.isSome_eq_false_iff,
          Option.isNone_iff_eq_none] at hnested hvar hfun
        have hbuilt {x : String} (hx : c.target.variableNamed? x = none) :
            c.target.builtVariable? x = none := by
          rw [Target.builtVariable?, hx]
          rfl
        obtain ⟨hname, hkeys, hparams⟩ := parameters_clear h
        have hkeys' : s.arguments.keys = params.map Named.name := hkeys
        refine ⟨hnested.1, ⟨?_, ?_, fun x hx => ?_⟩, ?_⟩
        · rw [hname]
          exact hbuilt hvar
        · rw [hname]
          exact hfun
        · rw [hname]
          rw [hkeys'] at hx
          obtain ⟨hx, hne⟩ := hparams x hx
          rw [target_setTarget] at hx
          exact ⟨hbuilt hx, hne⟩
        · rw [Signature.names, hname, hkeys']

theorem functionHead_nameSteps (name : Named) (params : List Named) (c : Compilation) :
    c.NameSteps (functionHead name params c).2 := by
  have hsame : c.SameNames (functionSignature name params c).2 :=
    KeepsNames.law.functionSignature name params c
  rw [functionHead, bind_apply]
  cases hs : functionSignature name params c with
  | mk r c₁ =>
    rw [hs] at hsame
    cases r with
    | none => exact .same hsame
    | some s =>
      obtain ⟨hf, hclear, -⟩ := functionSignature_clear hs
      have hf₁ : c₁.function = none := by
        have hf₁ := hsame.function
        rw [hf] at hf₁
        exact Option.map_eq_none_iff.1 hf₁
      exact (NameSteps.same hsame).trans (.single (.begin s hf₁ (hclear.same hsame rfl)))

/-- Settling arguments never fails, and it leaves their names as they are. -/
theorem settleArguments_names (signature : Signature) (span : Span) (names : List String)
    (c : Compilation) : ∃ settled c', settleArguments signature span names c = (some settled, c') ∧
      settled.names = signature.names := by
  induction names generalizing signature c with
  | nil => exact ⟨signature, c, rfl, rfl⟩
  | cons argument rest ih =>
    rw [settleArguments_cons]
    simp only
    split
    next settled t hs =>
      obtain ⟨settled', c', hrun, hnames⟩ := ih settled _
      exact ⟨settled', c', hrun, hnames.trans (Signature.settle_names hs)⟩
    next => exact ih signature _

theorem closeFunction_nameSteps (name : Named) (c : Compilation) :
    c.NameSteps (closeFunction name c).2 := by
  have law : Law KeepsNames := KeepsNames.law
  have hexit : c.SameNames (c.setTarget c.target.exit.2) := .of_tables rfl
  cases hf : c.function with
  | none =>
    rw [closeFunction_none hf]
    exact .same hexit
  | some s =>
    let c₁ := c.setTarget c.target.exit.2
    let body := (c.target.exit.1.getD (.after none)).head?
    obtain ⟨settled, c₂, hrun, hnames⟩ :=
      settleArguments_names s name.span s.unresolvedArguments { c₁ with function := none }
    have hsettle := law.settleArguments s name.span s.unresolvedArguments { c₁ with function := none }
    rw [hrun] at hsettle
    let p := (settled.build body c₂.target).1
    let c₃ := (c₂.setTarget (settled.build body c₂.target).2).log (.defined name.name p.returnType)
    have hbuild : c₂.SameNames c₃ := by
      have hset : c₂.SameNames (c₂.setTarget (settled.build body c₂.target).2) :=
        .of_tables (settled.tables_build body c₂.target)
      exact hset.trans (law.log _ _)
    have hend : (closeFunction name c).2 = c₃.setTarget (c₃.target.addFunction p) := by
      rw [closeFunction_some hf, finishFunction, bind_apply, hrun]
      rfl
    have hp : p.name = s.name := (congrArg Prod.fst hnames :)
    rw [hend]
    exact (NameSteps.same hexit).trans (.single (.complete s p hf (hsettle.trans hbuild) hp))

/-! ### The other statements -/

theorem KeepsNames.yield (span : Span) (value : Expr) : KeepsNames (yield span (part value)) := by
  refine law.bind law.get fun c => ?_
  split
  next => exact law.fail rfl _
  next =>
    exact law.bind (law.log _) fun _ => law.bind (returnVariable _) fun _ =>
      law.bind (law.place _) fun _ =>
        law.bind (law.within (law.operand (law.expression value) _) _) fun _ =>
          law.bind (law.settleResult trivial (fun _ => modifyFunction fun _ => rfl) _ _) fun _ =>
            law.bind (modifyVariable _ fun _ => rfl) fun _ =>
              law.bind (law.place _) fun _ => law.pure _

theorem KeepsNames.comment (text : String) : KeepsNames (comment text) :=
  law.bind (fun _ => .of_vars rfl rfl rfl) fun _ => law.pure _

theorem enterBlock_names (c : Compilation) : c.SameNames (enterBlock c) :=
  .of_tables rfl

theorem closeBranch_names (id slot : String) (c : Compilation) :
    c.SameNames (closeBranch id slot c) := by
  have hexit : c.SameNames (c.setTarget c.target.exit.2) := .of_tables rfl
  exact hexit.trans (KeepsNames.law.attachBranch id slot _ _)

theorem endBranches_names (id : String) (c : Compilation) : c.SameNames (endBranches id c) := by
  have hdepth : c.SameNames { c with branchDepth := c.branchDepth - 1 } := .of_targets rfl rfl rfl rfl
  exact hdepth.trans (.of_tables rfl)

theorem ensureEntry_names (c : Compilation) : c.SameNames (c.setTarget c.target.ensureEntry) := by
  cases he : c.target.entry with
  | some _ =>
    refine .of_vars ?_ ?_ ?_ <;> simp only [Target.ensureEntry, he]
  | none =>
    have htables := c.target.draw.tables_addBlock (.flagClicked (c.target.freshId "block"))
    have hfunctions := congrArg Target.functions htables
    refine .of_vars ?_ ?_ ?_ <;> simp only [Target.ensureEntry, he]
    · exact (congrArg Target.name htables :)
    · exact (congrArg Target.vars htables :)
    · exact congrArg Table.keys hfunctions

theorem directive_nameSteps (name : Named) (c : Compilation) :
    c.NameSteps (directive name c).2 := by
  have law : Law KeepsNames := KeepsNames.law
  simp only [directive, bind_apply, get]
  split
  next => exact .same (law.fail rfl name.span c)
  next hlate =>
    simp only [Bool.or_eq_true, not_or, Bool.not_eq_true, Option.isSome_eq_false_iff,
      Option.isNone_iff_eq_none] at hlate
    obtain ⟨⟨⟨hcontent, hentry⟩, hf⟩, -⟩ := hlate
    split
    next =>
      let c₁ := { c with project := (c.project.switchTo? "Stage").getD c.project }
      obtain ⟨hstage, hsprite⟩ := c.project.targets_switchTo? "Stage"
      have hswitch : c.NameStep c₁ := .switch hcontent hentry hf hf hstage hsprite
      exact NameSteps.trans (.single hswitch) (.same (law.log (.directed name.name) c₁))
    next =>
      split
      next => exact .same (.of_targets rfl rfl rfl rfl)
      next => exact .same (law.fail rfl name.span c)

end Emit

namespace Compilation.NameSteps

open Emit

theorem glue : Visit.Glue NameSteps where
  refl _ := Relation.ReflTransGen.refl
  trans := trans
  contexts _ _ := same (.of_targets rfl rfl rfl rfl)
  enterBlock c := same (enterBlock_names c)
  functionHead := functionHead_nameSteps
  closeFunction := closeFunction_nameSteps
  branchHead condition hasElse c := same (KeepsNames.law.branchHead condition hasElse c)
  closeBranch id slot c := same (closeBranch_names id slot c)
  endBranches id c := same (endBranches_names id c)

end Compilation.NameSteps

open Compilation

/-! ### Runs -/

namespace Visit

theorem nameSteps_of_not_hasBodies {v : Visit} (hb : v.hasBodies = false) :
    v.state.NameSteps v.after := by
  have law : Emit.Law Emit.KeepsNames := Emit.KeepsNames.law
  have hhandled : v.start.NameSteps v.handled.2 := by
    obtain ⟨s, c⟩ := v
    cases s with
    | declare named value span => exact Emit.declare_nameSteps named value _
    | assign named op opSpan value span =>
      exact .same (law.assign (law.expression value) named op opSpan _)
    | yield value span => exact .same (Emit.KeepsNames.yield span value _)
    | call name arguments span =>
      exact .same (law.callStatement (law.expressions arguments) name span _ _)
    | directive name span => exact Emit.directive_nameSteps name _
    | comment text span => exact .same (Emit.KeepsNames.comment text _)
    | function | branch => cases hb
  exact (NameSteps.glue.contexts _ _).trans (hhandled.trans (NameSteps.glue.contexts _ _))

theorem nameSteps (v : Visit) : v.state.NameSteps v.after :=
  (NameSteps.glue.visit (fun _ _ => nameSteps_of_not_hasBodies) v (mem_all.2 (.inl rfl))).2.1

theorem nameSteps_statements (body : List Statement) (c : Compilation) :
    c.NameSteps (Emit.statements body c) :=
  (NameSteps.glue.through (NameSteps.glue.sequence body c) fun w _ => w.nameSteps).1

theorem nameSteps_of_mem_entries {v : Visit} {c : Compilation} (h : c ∈ v.entries) :
    v.start.NameSteps c := by
  have hglue : Glue NameSteps := NameSteps.glue
  obtain ⟨s, c₀⟩ := v
  cases s with
  | function name params body span =>
    have hhead := hglue.functionHead name params (start ⟨.function name params body span, c₀⟩)
    simp only [entries] at h
    split at h
    next c₁ hc =>
      rw [hc] at hhead
      obtain rfl := List.mem_singleton.1 h
      exact hhead.trans (hglue.enterBlock c₁)
    next => cases h
  | branch condition body otherwise span =>
    have hhead := hglue.branchHead condition (Emit.alternative otherwise).isSome
      (start ⟨.branch condition body otherwise span, c₀⟩)
    simp only [entries] at h
    split at h
    next id c₁ hc =>
      rw [hc] at hhead
      have henter := hhead.trans (hglue.enterBlock c₁)
      obtain rfl | h := List.mem_cons.1 h
      · exact henter
      · obtain rfl := List.mem_singleton.1 h
        exact ((henter.trans (nameSteps_statements body _)).trans (hglue.closeBranch id _ _)).trans
          (hglue.enterBlock _)
    next => cases h
  | _ => cases h

theorem Passes.nameSteps {v : Visit} {c : Compilation} (h : v.Passes c) : v.state.NameSteps c := by
  have hstart : v.state.NameSteps v.start := NameSteps.glue.contexts _ _
  cases h with
  | state => exact NameSteps.glue.refl _
  | start => exact hstart
  | entry h => exact hstart.trans (nameSteps_of_mem_entries h)
  | handled => exact v.nameSteps.trans (.same (.of_targets rfl rfl rfl rfl))
  | after => exact v.nameSteps
  | evaluation h => exact .same (evaluations_names h)
  | result h => exact .same ((evaluations_names h).trans (Evaluation.result_names _))
  | filled h => exact .same ((evaluations_names h).trans (Evaluation.filled_names _))

end Visit

/-- Every state of a compilation is reached by steps from its start. -/
theorem Compilation.Reached.nameSteps {source sprite : String} {c : Compilation}
    (h : Reached source sprite c) : NameSteps { project := .new sprite } c := by
  let c₀ : Compilation := { project := .new sprite }
  have hprogram (statements : List Statement) :
      c₀.NameSteps (Emit.program statements c₀) ∧
        ∀ w ∈ (Visit.program statements c₀).flatMap Visit.all, c₀.NameSteps w.state ∧
          w.state.NameSteps w.after ∧ w.after.NameSteps (Emit.program statements c₀) :=
    NameSteps.glue.program (fun c => .same (Emit.ensureEntry_names c))
      fun _ _ => Visit.nameSteps_of_not_hasBodies
  cases h with
  | initial => exact NameSteps.glue.refl _
  | visit hv h =>
    unfold Visit.ofSource at hv
    split at hv
    next p hp => exact ((hprogram p.statements).2 _ hv).1.trans h.nameSteps
    next => cases hv
  | final h => exact (hprogram _).1

end ScriptBlocks
