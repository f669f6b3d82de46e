import ScriptBlocks.Proofs.Owners

/-!
# Names are unambiguous

At every point of a compilation a name stands for one thing at most. A declared variable never shares
its name with a function, nor, in the body of a function, with that function or one of its arguments.
So it makes no difference that a name is looked up among the variables first.
-/
namespace ScriptBlocks

variable {x source sprite : String}

/-- No declared variable has the name of a function. -/
def Target.Distinct (t : Target) : Prop :=
  ∀ x, (t.builtVariable? x).isSome = true → t.functionNamed? x = none

namespace Compilation

variable {c c' : Compilation}

/-- A name stands for one thing at most. -/
structure Unambiguous (c : Compilation) : Prop where
  distinct : c.target.Distinct
  other : c.project.other.Distinct
  function : ∀ s, c.function = some s → s.Clear c.target

namespace Unambiguous

theorem new (sprite : String) : Unambiguous { project := .new sprite } where
  distinct _ h := by cases h
  other _ h := by cases h
  function _ h := by cases h

theorem same (hc : c.Unambiguous) (h : c.SameNames c') : c'.Unambiguous where
  distinct x hx := by
    rw [h.built] at hx
    exact h.functionNamed?_eq_none.2 (hc.distinct x hx)
  other := by
    rw [h.other]
    exact hc.other
  function s' hs' := by
    obtain ⟨s, hs, hnames⟩ := h.exists_of_some hs'
    exact (hc.function s hs).same h hnames

/-- Only the name that is declared gets another meaning, and it is free. -/
theorem declare (hc : c.Unambiguous) (f : Variable → Variable) (h : c.Free x) :
    (c.setTarget (c.target.modifyVariable x f)).Unambiguous := by
  have hbuilt {y : String} (hy : y ≠ x) :
      (c.target.modifyVariable x f).builtVariable? y = c.target.builtVariable? y := by
    simp only [Target.builtVariable?, Target.variableNamed?, Target.modifyVariable,
      Table.get?_modify, if_neg (Ne.symm hy)]
  refine ⟨?_, ?_, fun s hs => ?_⟩
  · rw [target_setTarget]
    intro y hy
    by_cases hyx : y = x
    · rw [hyx]
      exact h.function
    · rw [hbuilt hyx] at hy
      exact hc.distinct y hy
  · rw [(SameRest.setTarget c _).other]
    exact hc.other
  · have hs : c.function = some s := hs
    have hclear := hc.function s hs
    obtain ⟨hname, hkeys⟩ := h.signature s hs
    rw [target_setTarget]
    refine ⟨?_, hclear.function, fun y hy => ⟨?_, (hclear.arguments y hy).2⟩⟩
    · rw [hbuilt (Ne.symm hname)]
      exact hclear.undeclared
    · rw [hbuilt fun hyx => hkeys (hyx ▸ hy)]
      exact (hclear.arguments y hy).1

/-- A function is completed under the name that was free when it was begun. -/
theorem complete (hc : c.Unambiguous) {s : Signature} {p : Procedure} (hs : c.function = some s)
    (h : { c with function := none }.SameNames c') (hp : p.name = s.name) :
    (c'.setTarget (c'.target.addFunction p)).Unambiguous := by
  have hmid : ({ c with function := none } : Compilation).Unambiguous :=
    ⟨hc.distinct, hc.other, fun _ h => by cases h⟩
  have hc' := hmid.same h
  have hfree : c'.target.builtVariable? p.name = none := by
    rw [hp, h.builtVariable?_eq_none]
    exact (hc.function s hs).undeclared
  have hnone : c'.function = none := Option.map_eq_none_iff.1 h.function
  refine ⟨?_, ?_, fun s' hs' => ?_⟩
  · rw [target_setTarget]
    intro x hx
    have hx : (c'.target.builtVariable? x).isSome = true := hx
    have hne : p.name ≠ x := by
      rintro rfl
      simp [hfree] at hx
    simp only [Target.functionNamed?, Target.addFunction, Table.get?_insert, if_neg hne]
    exact hc'.distinct x hx
  · rw [(SameRest.setTarget c' _).other]
    exact hc'.other
  · cases hnone.symm.trans hs'

theorem switch (hc : c.Unambiguous) (hf : c'.function = none)
    (hstage : c'.project.stage = c.project.stage)
    (hsprite : c'.project.sprite = c.project.sprite) : c'.Unambiguous := by
  have hfunction : ∀ s, c'.function = some s → s.Clear c'.target := fun s hs => by
    cases hf.symm.trans hs
  obtain ⟨hcurrent, hother⟩ | ⟨hcurrent, hother⟩ := Project.current_or_other hstage hsprite
  · refine ⟨?_, hother ▸ hc.other, hfunction⟩
    rw [target, hcurrent]
    exact hc.distinct
  · refine ⟨?_, hother ▸ hc.distinct, hfunction⟩
    rw [target, hcurrent]
    exact hc.other

theorem step (h : NameStep c c') (hc : c.Unambiguous) : c'.Unambiguous := by
  cases h with
  | same h => exact hc.same h
  | declare x f h => exact hc.declare f h
  | begin s hf hs =>
    refine ⟨hc.distinct, hc.other, fun s' hs' => ?_⟩
    cases hs'
    exact hs
  | complete s p hs h hp => exact hc.complete hs h hp
  | switch hcontent hentry hf hf' hstage hsprite => exact hc.switch hf' hstage hsprite

end Unambiguous

theorem Reached.unambiguous (h : Reached source sprite c) : c.Unambiguous :=
  h.nameSteps.preserve Unambiguous.step (.new sprite)

theorem Unambiguous.builtVariable?_of_isArgument (hc : c.Unambiguous) (h : c.isArgument x = true) :
    c.target.builtVariable? x = none := by
  unfold isArgument at h
  split at h
  next s hs =>
    exact ((hc.function s hs).arguments x ((s.arguments.contains_iff x).1 h)).1
  next => cases h

end Compilation

/-! ### Reading an argument -/

theorem Target.exists_block?_register (t : Target) (b : Block) :
    ∃ b', (t.register b).block? b.id = some b' ∧ b'.argument = b.argument := by
  refine ⟨_, by rw [block?_register, if_pos rfl], ?_⟩
  split <;> rfl

theorem Target.exists_block?_addBlock (t : Target) (b : Block) :
    ∃ b', (t.addBlock b).block? b.id = some b' ∧ b'.argument = b.argument := by
  simp only [addBlock]
  split <;> exact exists_block?_register _ _

/-- A name that is no variable but an argument is read by a block for that argument. -/
theorem Emit.name_argument {c : Compilation} (span : Span) (hx : c.isArgument x = true)
    (hnone : c.target.builtVariable? x = none) :
    ∃ id b, (name x span c).1 = some (.block id) ∧ (name x span c).2.target.block? id = some b ∧
      b.argument = some x := by
  obtain ⟨type, htype⟩ : ∃ type, c.function.bind (·.argumentType? x) = some type := by
    unfold Compilation.isArgument at hx
    split at hx
    next s hs =>
      obtain ⟨p, hp⟩ := Option.isSome_iff_exists.1 hx
      exact ⟨p.type, by simp [hs, Signature.argumentType?, hp]⟩
    next => cases hx
  let id := c.target.freshId "block"
  obtain ⟨b, hb, hargument⟩ := c.target.draw.exists_block?_addBlock (.reporter id x type false)
  refine ⟨id, b, ?_, ?_, hargument⟩
  · simp only [name_eq_place, bind_apply, get, hnone, htype]
    rfl
  · have htarget : (name x span c).2.target = c.target.draw.addBlock (.reporter id x type false) := by
      simp only [name_eq_place, bind_apply, get, hnone, htype]
      exact Compilation.target_setTarget _ _
    rw [htarget]
    exact hb

open Compilation

theorem Evaluation.reached_of_mem {w : Evaluation} (h : w ∈ ofSource source sprite) :
    Reached source sprite w.state := by
  obtain ⟨v, hv, hw⟩ := List.mem_flatMap.1 h
  exact .visit hv (.evaluation hw)

theorem Visit.InBodies.reached {v : Visit} {c : Compilation} (h : v.InBodies c)
    (hv : v ∈ ofSource source sprite) : Reached source sprite c := by
  obtain hc | ⟨u, hu, w, hw, hc⟩ := h
  · exact .visit hv (.entry hc)
  · exact .visit (mem_ofSource_of_mem_all hv (mem_all.2 (.inr ⟨u, hu, hw⟩))) hc

/-- In every state of a compilation no declared variable has the name of a function. While the body of
a function is compiled, that function is the current one, its own name and those of its parameters
are pairwise distinct, and no declared variable has one of them. So a name that is a parameter is
always read as that parameter. -/
theorem compile_unambiguous (source sprite : String) :
    (∀ c, Reached source sprite c → c.Unambiguous) ∧
    (∀ v ∈ Visit.ofSource source sprite, ∀ name params body span,
      v.statement = .function name params body span → ∀ c, v.InBodies c →
        (name.name :: params.map Named.name).Nodup ∧
        ∃ s, c.function = some s ∧ s.name = name.name ∧
          s.arguments.keys = params.map Named.name ∧ s.Clear c.target) ∧
    ∀ w ∈ Evaluation.ofSource source sprite, ∀ x span, w.expr = .name x span →
      w.state.isArgument x = true →
        ∃ id b, w.result.1 = some (.block id) ∧ w.result.2.target.block? id = some b ∧
          b.argument = some x := by
  refine ⟨fun c hc => hc.unambiguous, fun v hv name params body span hs c hc => ?_,
    fun w hw x span hx harg => ?_⟩
  · obtain ⟨-, -, hfunction⟩ := (Visit.placed_of_mem_ofSource hv).function_owner hs hc
    obtain ⟨s, hs, hnames⟩ := Option.map_eq_some_iff.1 hfunction
    have hname : s.name = name.name := (congrArg Prod.fst hnames :)
    have hkeys : s.arguments.keys = params.map Named.name := (congrArg Prod.snd hnames :)
    have hclear : s.Clear c.target := (hc.reached hv).unambiguous.function s hs
    refine ⟨?_, s, hs, hname, hkeys, hclear⟩
    rw [← hname, ← hkeys]
    exact List.nodup_cons.2 ⟨fun hm => (hclear.arguments _ hm).2 rfl, s.arguments.nodup⟩
  · have hnone := (Evaluation.reached_of_mem hw).unambiguous.builtVariable?_of_isArgument harg
    simp only [Evaluation.result, hx, Emit.expression]
    exact Emit.name_argument span harg hnone

/-- Whether an expression is this name. -/
def Expr.isName (x : String) : Expr → Bool
  | .name y _ => x = y
  | _ => false

/-- A parameter is used where other names are declared. -/
theorem compile_unambiguous_parameter :
    let source := "let x = 1\nfunction f(a, b) \x7b let y = a \x7d"
    (∃ c, Reached source "Sprite1" c ∧ (c.target.builtVariable? "x").isSome = true ∧
      c.target.functionNamed? "x" = none) ∧
    (∃ v ∈ Visit.ofSource source "Sprite1", ∃ name params body span c,
      v.statement = .function name params body span ∧ v.InBodies c ∧
      (name.name :: params.map Named.name).Nodup ∧
      ∃ s, c.function = some s ∧ s.name = name.name ∧
        s.arguments.keys = params.map Named.name ∧ s.Clear c.target) ∧
    ∃ w ∈ Evaluation.ofSource source "Sprite1", w.state.isArgument "a" = true ∧
      ∃ id b, w.result.1 = some (.block id) ∧ w.result.2.target.block? id = some b ∧
        b.argument = some "a" := by
  intro source
  obtain ⟨hreached, hbodies, harguments⟩ := compile_unambiguous source "Sprite1"
  refine ⟨?_, ?_, ?_⟩
  · obtain ⟨v, hv, hx⟩ : ∃ v ∈ Visit.ofSource source "Sprite1",
        (v.state.target.builtVariable? "x").isSome = true := by
      decide +kernel
    have hstate : Reached source "Sprite1" v.state := .visit hv .state
    exact ⟨v.state, hstate, hx, (hreached _ hstate).distinct "x" hx⟩
  · obtain ⟨v, hv, hneeds, hne⟩ : ∃ v ∈ Visit.ofSource source "Sprite1",
        Emit.needsEntry v.statement = false ∧ v.entries.isEmpty = false := by
      decide +kernel
    obtain ⟨c, hc⟩ := List.isEmpty_eq_false_iff_exists_mem.1 hne
    cases hs : v.statement with
    | function name params body span =>
      exact ⟨v, hv, name, params, body, span, c, hs, .inl hc,
        hbodies v hv name params body span hs c (.inl hc)⟩
    | directive | comment => simp [Visit.entries, hs] at hc
    | _ => simp [Emit.needsEntry, hs] at hneeds
  · obtain ⟨w, hw, hname, hargument⟩ : ∃ w ∈ Evaluation.ofSource source "Sprite1",
        w.expr.isName "a" = true ∧ w.state.isArgument "a" = true := by
      decide +kernel
    cases he : w.expr with
    | name x span =>
      rw [he] at hname
      obtain rfl : "a" = x := of_decide_eq_true hname
      exact ⟨w, hw, hargument, harguments w hw "a" span he hargument⟩
    | _ => simp [Expr.isName, he] at hname

end ScriptBlocks
