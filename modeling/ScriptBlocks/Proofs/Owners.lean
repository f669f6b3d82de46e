import ScriptBlocks.Proofs.NameSteps
import ScriptBlocks.Proofs.Scoping

/-!
# Owners of code

A script belongs to a target, and to a function if it is in the body of one. From where a body starts
up to its end neither changes, whatever statements stand in it.
-/
namespace ScriptBlocks

variable {otherwise : Alternative} {condition : Expr} {params : List Named}
variable {body : List Statement} {span : Span}

namespace Compilation

variable {c c' c'' : Compilation}

/-- What is compiled goes to the same target and belongs to the same function. -/
structure SameOwner (c c' : Compilation) : Prop where
  onStage : c'.project.onStage = c.project.onStage
  other : c'.project.other = c.project.other
  function : c'.function.map Signature.names = c.function.map Signature.names

namespace SameOwner

theorem refl (c : Compilation) : SameOwner c c :=
  ⟨rfl, rfl, rfl⟩

theorem trans (h : SameOwner c c') (h' : SameOwner c' c'') : SameOwner c c'' :=
  ⟨h'.onStage.trans h.onStage, h'.other.trans h.other, h'.function.trans h.function⟩

end SameOwner

theorem SameNames.owner (h : SameNames c c') : SameOwner c c' :=
  ⟨h.onStage, h.other, h.function⟩

theorem Extended.owner {σ : Script} {ids new : List String} {O : String → Prop}
    (h : Extended σ ids new O c c') : SameOwner c c' := by
  refine ⟨h.rest.onStage, h.rest.other, ?_⟩
  have hidentity := congrArg
    (Option.map fun i : String × String × String × List String × List String => (i.1, i.2.2.2.1))
    h.function.identity
  rw [Option.map_map, Option.map_map] at hidentity
  exact hidentity

end Compilation

open Compilation

namespace Visit

variable {v w : Visit} {c : Compilation}

/-- The statement belongs to a script that has been begun. -/
def InScript (v : Visit) : Prop :=
  Emit.needsEntry v.statement = true ∨ v.state.Inside

theorem Placed.extended (h : v.Placed) (hs : v.InScript) :
    ∃ σ ids new O, Extended σ ids new O v.start v.handled.2 := by
  cases h with
  | inner hp hin =>
    obtain ⟨new, he, -⟩ :=
      Emit.statement_inscribes v.statement (hp.of_eq (d := v.start) rfl rfl) hin
    exact ⟨_, _, new, _, he⟩
  | between h hneeds =>
    obtain hs | hin | hdepth := hs
    · cases hs.symm.trans hneeds
    · rw [h.between.function] at hin
      cases hin
    · rw [h.between.depth] at hdepth
      cases hdepth

theorem Placed.owner (h : v.Placed) (hs : v.InScript) :
    v.state.SameOwner v.handled.2 ∧ v.state.SameOwner v.after ∧
      (v.state.Inside → v.after.Inside) := by
  obtain ⟨σ, ids, new, O, he⟩ := h.extended hs
  have hstart : v.state.SameOwner v.start := ⟨rfl, rfl, rfl⟩
  have hafter : v.handled.2.SameOwner v.after := ⟨rfl, rfl, rfl⟩
  have hhandled := hstart.trans he.owner
  refine ⟨hhandled, hhandled.trans hafter, fun hin => ?_⟩
  have hin' : v.handled.2.Inside := he.inside (c := v.start) hin
  exact hin'

/-- Through the statements of a body. -/
theorem sequence_owner (hp : ∀ w ∈ sequence body c, w.Placed) (hin : c.Inside) :
    (∀ w ∈ sequence body c, w.state.Inside ∧ c.SameOwner w.state) ∧
      (Emit.statements body c).Inside ∧ c.SameOwner (Emit.statements body c) := by
  induction body generalizing c with
  | nil => exact ⟨by simp [sequence], hin, .refl c⟩
  | cons s rest ih =>
    obtain ⟨hfirst, hrest⟩ := List.forall_mem_cons.1 hp
    obtain ⟨-, howner, hinside⟩ := hfirst.owner (.inr hin)
    obtain ⟨hvisits, hin', hend⟩ := ih hrest (hinside hin)
    refine ⟨List.forall_mem_cons.2 ⟨⟨hin, .refl c⟩, fun w hw => ?_⟩, hin', howner.trans hend⟩
    obtain ⟨hw, how⟩ := hvisits w hw
    exact ⟨hw, howner.trans how⟩

theorem ofAlternative_owner (hp : ∀ w ∈ ofAlternative otherwise c, w.Placed) (hin : c.Inside) :
    ∀ w ∈ ofAlternative otherwise c, w.state.Inside ∧ c.SameOwner w.state := by
  cases otherwise with
  | none => simp [ofAlternative]
  | block body => exact (sequence_owner hp hin).1
  | branch condition body otherwise span =>
    intro w hw
    obtain rfl := List.mem_singleton.1 hw
    exact ⟨hin, .refl c⟩

theorem inside_of_branchHead {hasElse : Bool} {id : String} {c' : Compilation}
    (h : Emit.branchHead (Emit.part condition) hasElse c = (some id, c')) : c'.Inside := by
  rw [Emit.branchHead_eq, Emit.bind_apply] at h
  split at h
  next =>
    cases h
    exact .inr (Nat.succ_pos _)
  next => cases h

/-- Both bodies of a conditional belong where it stands. -/
theorem branch_owner (hp : Placed ⟨.branch condition body otherwise span, c⟩) :
    (∀ e ∈ entries ⟨.branch condition body otherwise span, c⟩, c.SameOwner e) ∧
      ∀ w ∈ children ⟨.branch condition body otherwise span, c⟩,
        w.state.Inside ∧ c.SameOwner w.state := by
  have hplaced := hp.children
  have hhead := Emit.KeepsNames.law.branchHead condition (Emit.alternative otherwise).isSome
    (start ⟨.branch condition body otherwise span, c⟩)
  simp only [entries, children] at hplaced ⊢
  cases hc : Emit.branchHead (Emit.part condition) (Emit.alternative otherwise).isSome
      (start ⟨.branch condition body otherwise span, c⟩) with
  | mk r c₁ =>
    rw [hc] at hhead hplaced
    cases r with
    | none => simp
    | some id =>
      have hin : c₁.Inside := inside_of_branchHead hc
      have hentry : c.SameOwner (Emit.enterBlock c₁) := by
        have hstart : c.SameOwner (start ⟨.branch condition body otherwise span, c⟩) :=
          ⟨rfl, rfl, rfl⟩
        exact hstart.trans (hhead.trans (Emit.enterBlock_names c₁)).owner
      obtain ⟨hbody, hother⟩ := List.forall_mem_append.1 hplaced
      obtain ⟨hvisits, hin', hend⟩ := sequence_owner (c := Emit.enterBlock c₁) hbody hin
      have hbetween : c.SameOwner (Emit.enterBlock
          (Emit.closeBranch id "SUBSTACK" (Emit.statements body (Emit.enterBlock c₁)))) := by
        have hclose := Emit.closeBranch_names id "SUBSTACK" (Emit.statements body (Emit.enterBlock c₁))
        exact (hentry.trans hend).trans (hclose.trans (Emit.enterBlock_names _)).owner
      refine ⟨by simp [hentry, hbetween], List.forall_mem_append.2 ⟨fun w hw => ?_, fun w hw => ?_⟩⟩
      · obtain ⟨hw, howner⟩ := hvisits w hw
        exact ⟨hw, hentry.trans howner⟩
      · obtain ⟨hw, howner⟩ := ofAlternative_owner hother hin' w hw
        exact ⟨hw, hbetween.trans howner⟩

/-- Inside of a body no function gets to its own. -/
theorem function_bodies_of_inside (name : Named) (params : List Named) (body : List Statement)
    (span : Span) (hin : c.Inside) :
    entries ⟨.function name params body span, c⟩ = [] ∧
      children ⟨.function name params body span, c⟩ = [] := by
  have hin' : Inside (start ⟨.function name params body span, c⟩) := hin
  simp only [entries, children, Emit.functionHead_of_inside hin']
  exact ⟨rfl, rfl⟩

theorem Placed.bodies_owner (h : v.Placed) (hs : v.InScript) :
    (∀ e ∈ v.entries, v.state.SameOwner e) ∧
      ∀ w ∈ v.children, w.state.Inside ∧ v.state.SameOwner w.state := by
  obtain ⟨s, c⟩ := v
  cases s with
  | branch condition body otherwise span => exact branch_owner h
  | function name params body span =>
    have hin : c.Inside := hs.resolve_left (by simp [Emit.needsEntry])
    simp [function_bodies_of_inside name params body span hin]
  | _ => simp [entries, Visit.children]

theorem Placed.passes_owner (h : v.Placed) (hs : v.InScript) (hc : v.Passes c) :
    v.state.SameOwner c := by
  cases hc with
  | state => exact .refl _
  | start => exact ⟨rfl, rfl, rfl⟩
  | entry hc => exact (h.bodies_owner hs).1 _ hc
  | handled => exact (h.owner hs).1
  | after => exact (h.owner hs).2.1
  | evaluation hw => exact (evaluations_names hw).owner
  | result hw => exact ((evaluations_names hw).trans (Evaluation.result_names _)).owner
  | filled hw => exact ((evaluations_names hw).trans (Evaluation.filled_names _)).owner

/-- All that is visited below a statement of a script belongs to the same owner. -/
theorem Placed.all_owner (h : v.Placed) (hs : v.InScript) :
    ∀ w ∈ v.all, ∀ c, w.Passes c → v.state.SameOwner c := by
  have hall : ∀ w ∈ v.all, w.Placed ∧ w.InScript ∧ v.state.SameOwner w.state := by
    refine forall_mem_all (fun w hw u hu => ?_) ⟨h, hs, .refl _⟩
    obtain ⟨hplaced, hscript, howner⟩ := hw
    obtain ⟨hin, hu'⟩ := (hplaced.bodies_owner hscript).2 u hu
    exact ⟨hplaced.children u hu, .inr hin, howner.trans hu'⟩
  intro w hw c hc
  obtain ⟨hplaced, hscript, howner⟩ := hall w hw
  exact howner.trans (hplaced.passes_owner hscript hc)

/-! ### Bodies of functions -/

theorem mem_all_trans {u : Visit} (hv : v ∈ u.all) (hw : w ∈ v.all) : w ∈ u.all := by
  induction u using Visit.induction with
  | h u ih =>
    obtain rfl | ⟨r, hr, hvr⟩ := mem_all.1 hv
    · exact hw
    · exact mem_all.2 (.inr ⟨r, hr, ih r hr hvr⟩)

theorem mem_ofSource_of_mem_all {source sprite : String} (hv : v ∈ ofSource source sprite)
    (hw : w ∈ v.all) : w ∈ ofSource source sprite := by
  unfold ofSource at hv ⊢
  cases hp : Program.ofSource source with
  | ok p =>
    rw [hp] at hv
    obtain ⟨u, hu, hvu⟩ := List.mem_flatMap.1 hv
    exact List.mem_flatMap.2 ⟨u, hu, mem_all_trans hvu hw⟩
  | error e =>
    rw [hp] at hv
    cases hv

/-- The states passed while the bodies of a statement are compiled. -/
def InBodies (v : Visit) (c : Compilation) : Prop :=
  c ∈ v.entries ∨ ∃ u ∈ v.children, ∃ w ∈ u.all, w.Passes c

theorem function_entry {name : Named} {e : Compilation}
    (h : e ∈ entries ⟨.function name params body span, c⟩) :
    e.project.onStage = c.project.onStage ∧ e.project.other = c.project.other ∧
      e.function.map Signature.names = some (name.name, params.map Named.name) ∧
      e.Inside ∧ children ⟨.function name params body span, c⟩ = sequence body e := by
  have hsame := Emit.KeepsNames.law.functionSignature name params
    (start ⟨.function name params body span, c⟩)
  simp only [entries, children, Emit.functionHead, Emit.bind_apply] at h ⊢
  cases hs : Emit.functionSignature name params (start ⟨.function name params body span, c⟩) with
  | mk r c₁ =>
    rw [hs] at hsame h
    cases r with
    | none => cases h
    | some s =>
      obtain rfl := List.mem_singleton.1 h
      obtain ⟨-, -, hnames⟩ := Emit.functionSignature_clear hs
      have henter := SameRest.setTarget { c₁ with function := some s }
        (Compilation.target { c₁ with function := some s } |>.enter (.after none))
      exact ⟨henter.onStage.trans hsame.onStage, henter.other.trans hsame.other,
        congrArg some hnames, .inl rfl, rfl⟩

/-- While the body of a function is compiled, that function is the current one. -/
theorem Placed.function_owner (h : v.Placed) {name : Named}
    (hv : v.statement = .function name params body span) (hc : v.InBodies c) :
    c.project.onStage = v.state.project.onStage ∧ c.project.other = v.state.project.other ∧
      c.function.map Signature.names = some (name.name, params.map Named.name) := by
  obtain ⟨s, c₀⟩ := v
  cases hv
  have hplaced := h.children
  -- Every state in the body has the owner of the one in which the body starts.
  have hentry : ∃ e ∈ entries ⟨.function name params body span, c₀⟩, e.SameOwner c := by
    obtain hc | ⟨u, hu, w, hw, hc⟩ := hc
    · exact ⟨c, hc, .refl c⟩
    · obtain ⟨e, he⟩ : ∃ e, e ∈ entries ⟨.function name params body span, c₀⟩ := by
        simp only [entries, Visit.children] at hu ⊢
        generalize Emit.functionHead name params _ = head at hu ⊢
        obtain ⟨r, c₁⟩ := head
        cases r with
        | none => cases hu
        | some _ => exact ⟨_, List.mem_singleton_self _⟩
      obtain ⟨-, -, -, hin, hchildren⟩ := function_entry he
      rw [hchildren] at hu hplaced
      obtain ⟨hu', howner⟩ := (sequence_owner hplaced hin).1 u hu
      exact ⟨e, he, howner.trans ((hplaced u hu).all_owner (.inr hu') w hw c hc)⟩
  obtain ⟨e, he, howner⟩ := hentry
  obtain ⟨honStage, hother, hfunction, -⟩ := function_entry he
  exact ⟨howner.onStage.trans honStage, howner.other.trans hother, howner.function.trans hfunction⟩

end Visit
end ScriptBlocks
