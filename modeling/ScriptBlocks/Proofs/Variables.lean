import ScriptBlocks.Proofs.Laws
import ScriptBlocks.Proofs.Visits

/-!
# Declared variables

Which statements may change the variables of a target. A declared variable keeps its id and stays
declared. It keeps its type too, unless a function returns into it: the variable in which a
function leaves its result is found by name, and `return` sets its type.
-/
namespace ScriptBlocks

/-- The declared variables of a target are still there. Only those with names in `N` may have got
another type. -/
def Target.Keeps (N : String → Prop) (t t' : Target) : Prop :=
  ∀ x v, t.variableNamed? x = some v → v.built = true →
    ∃ v', t'.variableNamed? x = some v' ∧ v'.id = v.id ∧ v'.built = true ∧ (v'.type = v.type ∨ N x)

namespace Target.Keeps

variable {N : String → Prop} {t t' t'' : Target}

theorem refl (t : Target) : Keeps N t t :=
  fun _ v hv hb => ⟨v, hv, rfl, hb, .inl rfl⟩

theorem trans (h : Keeps N t t') (h' : Keeps N t' t'') : Keeps N t t'' := by
  intro x v hv hb
  obtain ⟨v₁, hv₁, hid₁, hb₁, htype₁⟩ := h x v hv hb
  obtain ⟨v₂, hv₂, hid₂, hb₂, htype₂⟩ := h' x v₁ hv₁ hb₁
  refine ⟨v₂, hv₂, hid₂.trans hid₁, hb₂, ?_⟩
  rcases htype₁ with htype₁ | hN
  · exact htype₂.imp (·.trans htype₁) id
  · exact .inr hN

end Target.Keeps

namespace Compilation

variable {X Y N : String → Prop} {c c' c'' : Compilation}

/-- A step that changes no variables besides those with names in `X`, and of declared ones at most
the type. It neither switches the target nor starts, ends or answers a function. -/
structure Steady (X : String → Prop) (c c' : Compilation) : Prop where
  onStage : c'.project.onStage = c.project.onStage
  other : c'.project.other = c.project.other
  name : c'.target.name = c.target.name
  function : c'.function.map Signature.outline = c.function.map Signature.outline
  others : ∀ {x}, ¬ X x → c'.target.variableNamed? x = c.target.variableNamed? x
  named : ∀ {x}, (∀ v, c.target.variableNamed? x = some v → v.name = x) →
    ∀ v, c'.target.variableNamed? x = some v → v.name = x
  kept : ∀ {x v}, c.target.variableNamed? x = some v → v.built = true →
    ∃ v', c'.target.variableNamed? x = some v' ∧ v'.id = v.id ∧ v'.built = true

namespace Steady

/-- The variables are the same. -/
theorem of_vars (honStage : c'.project.onStage = c.project.onStage)
    (hother : c'.project.other = c.project.other) (hname : c'.target.name = c.target.name)
    (hvars : c'.target.vars = c.target.vars)
    (hf : c'.function.map Signature.outline = c.function.map Signature.outline) :
    Steady X c c' := by
  have hlookup (x : String) : c'.target.variableNamed? x = c.target.variableNamed? x := by
    rw [Target.variableNamed?, hvars]
    rfl
  exact ⟨honStage, hother, hname, hf, fun _ => hlookup _, fun hx v hv => hx v (hlookup _ ▸ hv),
    fun hv hb => ⟨_, (hlookup _).trans hv, rfl, hb⟩⟩

theorem refl (c : Compilation) : Steady X c c :=
  of_vars rfl rfl rfl rfl rfl

theorem trans (h : Steady X c c') (h' : Steady X c' c'') : Steady X c c'' where
  onStage := h'.onStage.trans h.onStage
  other := h'.other.trans h.other
  name := h'.name.trans h.name
  function := h'.function.trans h.function
  others hx := (h'.others hx).trans (h.others hx)
  named hx := h'.named (h.named hx)
  kept hv hb := by
    obtain ⟨v₁, hv₁, hid₁, hb₁⟩ := h.kept hv hb
    obtain ⟨v₂, hv₂, hid₂, hb₂⟩ := h'.kept hv₁ hb₁
    exact ⟨v₂, hv₂, hid₂.trans hid₁, hb₂⟩

/-- The current target is exchanged for one with the same variables. -/
theorem setTarget {t : Target} (hname : t.name = c.target.name) (hvars : t.vars = c.target.vars) :
    Steady X c (c.setTarget t) := by
  have hrest := SameRest.setTarget c t
  refine of_vars hrest.onStage hrest.other ?_ ?_ rfl
  · rw [target_setTarget, hname]
  · rw [target_setTarget, hvars]

theorem ofTables {t : Target} (h : t.tables = c.target.tables) : Steady X c (c.setTarget t) :=
  setTarget (congrArg Target.name h :) (congrArg Target.vars h :)

theorem setInference {i : Inference} (h : i.outline = c.inference.outline) :
    Steady X c (c.setInference i) := by
  obtain ⟨journal, hj⟩ := c.setInference_eq i
  have hname : i.target.name = c.target.name := (congrArg Prod.fst h :)
  have hvars : i.target.vars = c.target.vars := (congrArg (·.2.1) h :)
  have hfunction : i.function.map Signature.outline = c.function.map Signature.outline :=
    (congrArg (·.2.2) h :)
  have hs : Steady X c (c.setTarget i.target) := setTarget hname hvars
  rw [hj]
  exact ⟨hs.onStage, hs.other, hs.name, hfunction, hs.others, hs.named, hs.kept⟩

end Steady
end Compilation

namespace Emit

open Compilation

variable {X : String → Prop}

/-- Steps that are steady in every state. -/
def Steadily (X : String → Prop) {α : Type} (m : Emit α) : Prop :=
  ∀ c, Steady X c (m c).2

namespace Steadily

theorem follows : Follows (fun _ => True) (fun _ => True) (Steady X) where
  refl := .refl
  trans := .trans
  log _ _ := .of_vars rfl rfl rfl rfl rfl
  report _ _ _ _ _ _ := .of_vars rfl rfl rfl rfl rfl
  graph := .ofTables
  inference h _ := .setInference h
  function ho _ := .of_vars rfl rfl rfl rfl ho
  depth _ _ := .of_vars rfl rfl rfl rfl rfl

theorem law : Law (Steadily X) := follows.law

theorem createVariable (x : String) (type : ValueType) :
    Steadily (· = x) (onTarget (·.createVariable x type)) := by
  intro c
  cases hx : c.target.variableNamed? x with
  | some v =>
    have ht : (c.target.createVariable x type).2 = c.target := by
      simp only [Target.createVariable, hx]
    show Steady _ c (c.setTarget (c.target.createVariable x type).2)
    rw [ht]
    exact .ofTables rfl
  | none =>
    obtain ⟨v, t, ht, hv, hvars, hname⟩ : ∃ v t, (c.target.createVariable x type).2 = t ∧
        v.name = x ∧ t.vars = c.target.vars.insert x v ∧ t.name = c.target.name := by
      simp only [Target.createVariable, hx]
      exact ⟨_, _, rfl, rfl, rfl, rfl⟩
    have hlookup (y : String) : t.variableNamed? y =
        if x = y then some v else c.target.variableNamed? y := by
      rw [Target.variableNamed?, hvars, Table.get?_insert]
      rfl
    show Steady _ c (c.setTarget (c.target.createVariable x type).2)
    rw [ht]
    have hrest := SameRest.setTarget c t
    refine ⟨hrest.onStage, hrest.other, ?_, rfl, fun {y} hy => ?_, fun {y} hy w hw => ?_,
      fun {y w} hw hb => ⟨w, ?_, rfl, hb⟩⟩
    · rw [target_setTarget, hname]
    · rw [target_setTarget, hlookup, if_neg (Ne.symm hy)]
    · rw [target_setTarget, hlookup] at hw
      split at hw
      next hxy =>
        cases hw
        exact hv.trans hxy
      next => exact hy w hw
    · have hxy : x ≠ y := ne_of_found hx hw
      rw [target_setTarget, hlookup, if_neg hxy, hw]

theorem modifyVariable (x : String) {f : Variable → Variable} (hf : ∀ v, (f v).name = v.name)
    (hid : ∀ v, (f v).id = v.id) (hbuilt : ∀ v, v.built = true → (f v).built = true) :
    Steadily (· = x) (modifyTarget (·.modifyVariable x f)) := by
  intro c
  have hlookup (y : String) : (c.target.modifyVariable x f).variableNamed? y =
      if x = y then (c.target.variableNamed? y).map f else c.target.variableNamed? y :=
    Table.get?_modify c.target.vars x y f
  have hrest := SameRest.setTarget c (c.target.modifyVariable x f)
  show Steady _ c (c.setTarget (c.target.modifyVariable x f))
  refine ⟨hrest.onStage, hrest.other, ?_, rfl, fun {y} hy => ?_, fun {y} hy w hw => ?_,
    fun {y w} hw hb => ?_⟩
  · rw [target_setTarget]
    rfl
  · rw [target_setTarget, hlookup, if_neg (Ne.symm hy)]
  · rw [target_setTarget, hlookup] at hw
    split at hw
    next =>
      obtain ⟨v, hv, rfl⟩ := Option.map_eq_some_iff.1 hw
      exact (hf v).trans (hy v hv)
    next => exact hy w hw
  · rw [target_setTarget, hlookup, hw]
    split
    next => exact ⟨f w, rfl, hid w, hbuilt w hb⟩
    next => exact ⟨w, rfl, rfl, hb⟩

theorem declare {value : Part} (h : ∀ {X}, Steadily X value.emit) (named : Named) :
    Steadily (· = named.name) (declare named value) := by
  have law : Law (Steadily (· = named.name)) := law
  refine law.bind (law.log _) fun _ => law.bind law.get fun c => ?_
  split
  next => exact law.fail rfl _
  next =>
    split
    next => exact law.fail rfl _
    next =>
      exact law.bind (createVariable _ _) fun _ => law.bind (law.place _) fun _ =>
        law.bind (law.within (law.operand h _) _) fun _ => law.bind (law.expectedType _) fun _ =>
          law.bind (law.declaredType _ _ _) fun _ => law.bind (law.expectType _ _ _) fun _ =>
            law.bind (modifyVariable _ (fun _ => rfl) (fun _ => rfl) fun _ _ => rfl) fun _ => law.log _

theorem yieldInto (value : Part) (h : ∀ {X}, Steadily X value.emit) (function : String)
    (ref : VariableRef) : Steadily (· = ref.name) (yieldInto function ref value) := by
  have law : Law (Steadily (· = ref.name)) := law
  refine law.bind (law.place _) fun id => law.bind (law.within (law.operand h _) _) fun _ => ?_
  have hresult (type : ValueType) := (follows (X := (· = ref.name))).modifyFunction
    (g := ({ · with returnType := type })) (fun _ => rfl) fun _ => rfl
  refine law.bind (law.settleResult trivial hresult _ _) fun type => law.bind ?_ fun _ => ?_
  · exact modifyVariable _ (fun _ => rfl) (fun _ => rfl) fun _ hb => hb
  · exact law.bind (law.place _) fun _ => law.pure _

end Steadily

/-- A signature starts without a return variable, and parameters do not give it one. -/
theorem parameters_returnVariable {signature settled : Signature} {params : List Named}
    {c c' : Compilation} (h : parameters signature params c = (some settled, c')) :
    settled.returnVariable = signature.returnVariable := by
  induction params generalizing signature c with
  | nil =>
    cases h
    rfl
  | cons parameter rest ih =>
    rw [parameters_cons] at h
    split at h
    next => cases h
    next =>
      split at h
      next => cases h
      next =>
        split at h
        next => cases h
        next =>
          have hr := ih h
          exact hr

theorem functionSignature_returnVariable {name : Named} {params : List Named}
    {signature : Signature} {c c' : Compilation}
    (h : functionSignature name params c = (some signature, c')) :
    signature.returnVariable = none := by
  simp only [functionSignature, bind_apply, log, modify, get] at h
  split at h
  next => cases h
  next =>
    split at h
    next => cases h
    next =>
      split at h
      next => cases h
      next => exact parameters_returnVariable h

end Emit

theorem Signature.tables_buildReporters (prototype : String)
    (arguments : List (String × Parameter)) (t : Target) :
    (buildReporters prototype arguments t).2.tables = t.tables := by
  induction arguments generalizing t with
  | nil => rfl
  | cons argument arguments ih =>
    simp only [buildReporters]
    rw [ih, Target.tables_register]
    rfl

theorem Signature.tables_build (s : Signature) (body : Option String) (t : Target) :
    (s.build body t).2.tables = t.tables := by
  have h := tables_buildReporters s.prototype s.arguments.entries t
  cases body with
  | none =>
    simp only [build, Target.tables_register]
    exact (Target.tables_register _ _).trans h
  | some head =>
    simp only [build, Target.adopt, Target.tables_modifyBlock, Target.tables_register]
    exact (Target.tables_register _ _).trans h

theorem Target.variableNamed?_of_not_hasContent {t : Target} (h : t.hasContent = false)
    (x : String) : t.variableNamed? x = none := by
  simp only [hasContent, Bool.or_eq_false_iff, Bool.not_eq_false'] at h
  have hentries : t.vars.entries = [] := List.isEmpty_iff.1 h.1
  simp only [variableNamed?, Table.get?, hentries]
  rfl

namespace Project

theorem targets_switchTo? (p : Project) (name : String) :
    ((p.switchTo? name).getD p).stage = p.stage ∧ ((p.switchTo? name).getD p).sprite = p.sprite := by
  simp only [switchTo?]
  split
  next => exact ⟨rfl, rfl⟩
  next => split <;> exact ⟨rfl, rfl⟩

theorem current_or_other {p p' : Project} (hstage : p'.stage = p.stage)
    (hsprite : p'.sprite = p.sprite) :
    p'.current = p.current ∧ p'.other = p.other ∨ p'.current = p.other ∧ p'.other = p.current := by
  simp only [current, other, hstage, hsprite]
  cases p.onStage <;> cases p'.onStage <;> simp

end Project

namespace Compilation

variable {N : String → Prop} {c c' : Compilation}

/-- Variables are filed under their names, and the return variable of the function being compiled
has the name for it. -/
structure Filed (c : Compilation) : Prop where
  names : ∀ {x v}, c.target.variableNamed? x = some v → v.name = x
  otherNames : ∀ {x v}, c.project.other.variableNamed? x = some v → v.name = x
  result : ∀ {s ref}, c.function = some s → s.returnVariable = some ref →
    ref.name = Procedure.returnVariableName s.name c.target.name

/-- A step from any filed state to another that keeps the declared variables. -/
def Keeps (N : String → Prop) (c c' : Compilation) : Prop :=
  c.Filed → c'.Filed ∧ c.target.Keeps N c'.target

theorem Keeps.trans {c'' : Compilation} (h : Keeps N c c') (h' : Keeps N c' c'') :
    Keeps N c c'' := by
  intro hc
  obtain ⟨hc', hk⟩ := h hc
  obtain ⟨hc'', hk'⟩ := h' hc'
  exact ⟨hc'', hk.trans hk'⟩

theorem Filed.steady {X : String → Prop} (hc : c.Filed) (h : Steady X c c') : c'.Filed where
  names hv := h.named (fun _ => hc.names) _ hv
  otherNames := by
    rw [h.other]
    exact hc.otherNames
  result := by
    intro s ref hs href
    have hf := h.function
    rw [hs] at hf
    cases hcf : c.function with
    | none => simp [hcf] at hf
    | some s₀ =>
      rw [hcf] at hf
      have ho : s.outline = s₀.outline := Option.some.inj hf
      have hname : s.name = s₀.name := (congrArg Prod.fst ho :)
      have hret : s.returnVariable = s₀.returnVariable := (congrArg Prod.snd ho :)
      rw [hname, h.name]
      exact hc.result hcf (hret ▸ href)

theorem Filed.switch (hc : c.Filed) (hstage : c'.project.stage = c.project.stage)
    (hsprite : c'.project.sprite = c.project.sprite) (hf : c'.function = none) : c'.Filed := by
  obtain ⟨hcurrent, hother⟩ | ⟨hcurrent, hother⟩ := Project.current_or_other hstage hsprite
  · refine ⟨fun hv => hc.names ?_, fun hv => hc.otherNames (hother ▸ hv), by simp [hf]⟩
    rwa [target, hcurrent] at hv
  · refine ⟨fun hv => hc.otherNames ?_, fun hv => hc.names ?_, by simp [hf]⟩
    · rwa [target, hcurrent] at hv
    · rwa [hother] at hv

/-- A step that touches only variables that are not declared or have names in `N`. -/
theorem Keeps.ofSteady {X : String → Prop} (h : Steady X c c')
    (hX : ∀ x, X x → c.target.builtVariable? x = none ∨ N x) : Keeps N c c' := by
  intro hc
  refine ⟨hc.steady h, fun x v hv hb => ?_⟩
  by_cases hx : X x
  · obtain ⟨v', hv', hid, hb'⟩ := h.kept hv hb
    refine ⟨v', hv', hid, hb', .inr ((hX x hx).resolve_left fun hnone => ?_)⟩
    simp [Target.builtVariable?, hv, hb] at hnone
  · exact ⟨v, (h.others hx).trans hv, rfl, hb, .inl rfl⟩

theorem Keeps.of_steadily {α : Type} {m : Emit α} (h : m.Steadily fun _ => False)
    (c : Compilation) : Keeps N c (m c).2 :=
  .ofSteady (h c) fun _ => False.elim

end Compilation

namespace Emit

open Compilation

variable {N : String → Prop} {c : Compilation}

theorem declare_keeps (named : Named) (value : Expr) (c : Compilation) :
    Keeps N c (declare named (part value) c).2 := by
  cases hb : c.target.builtVariable? named.name with
  | none =>
    refine .ofSteady (Steadily.declare (Steadily.law.expression value) named c) fun x hx => .inl ?_
    exact hx ▸ hb
  | some v =>
    have hbuilt : (((c.log (.declaring named.name)).target.builtVariable? named.name).isSome ||
        (c.log (.declaring named.name)).isArgument named.name) = true := by
      rw [show (c.log (.declaring named.name)).target = c.target from rfl, hb]
      rfl
    have hfail : (declare named (part value) c).2 =
        (c.log (.declaring named.name)).report (.variableRedeclared named.name)
          (some named.span) := by
      simp only [declare, bind_apply, log, modify, get, if_pos hbuilt]
      rfl
    rw [hfail]
    exact .ofSteady (.of_vars rfl rfl rfl rfl rfl) (X := fun _ => False) fun _ => False.elim

/-- The first `return` of a function makes or finds its return variable. -/
theorem returnVariable_keeps {signature : Signature} (hc : c.Filed)
    (hs : c.function = some signature)
    (hN : N (Procedure.returnVariableName signature.name c.target.name)) :
    ∃ ref c', returnVariable signature c = (some ref, c') ∧
      ref.name = Procedure.returnVariableName signature.name c.target.name ∧ c'.Filed ∧
      c.target.Keeps N c'.target := by
  cases hr : signature.returnVariable with
  | some ref =>
    refine ⟨ref, c, ?_, hc.result hs hr, hc, .refl _⟩
    simp only [returnVariable, hr]
    rfl
  | none =>
    let x := Procedure.returnVariableName signature.name c.target.name
    let ref := (c.target.createVariable x .unresolved).1
    let c₁ := c.setTarget (c.target.createVariable x .unresolved).2
    have hsteady : Steady (· = x) c c₁ := Steadily.createVariable x .unresolved c
    have hname : ref.name = x := by
      simp only [ref, Target.createVariable]
      split
      next v hv => exact hc.names hv
      next => rfl
    obtain ⟨hfiled, hkeeps⟩ : c₁.Filed ∧ c.target.Keeps N c₁.target :=
      Keeps.ofSteady hsteady (fun y hy => .inr (hy ▸ hN)) hc
    refine ⟨ref, { c₁ with function := c₁.function.map ({ · with returnVariable := some ref }) },
      ?_, hname, ⟨hfiled.names, hfiled.otherNames, ?_⟩, hkeeps⟩
    · simp only [returnVariable, hr]
      rfl
    · intro s ref' hs' href'
      have hf : c₁.function = some signature := hs
      simp only [hf, Option.map_some] at hs'
      cases hs'
      cases href'
      rw [hname]
      exact (congrArg (Procedure.returnVariableName signature.name) hsteady.name).symm

theorem yield_keeps (value : Expr) (span : Span)
    (hN : ∀ s, c.function = some s → N (Procedure.returnVariableName s.name c.target.name)) :
    Keeps N c (yield span (part value) c).2 := by
  cases hs : c.function with
  | none =>
    simp only [yield, bind_apply, get, hs]
    exact .of_steadily (Steadily.law.fail rfl span) c
  | some signature =>
    intro hc
    obtain ⟨ref, c', hret, hname, hfiled, hkeeps⟩ := returnVariable_keeps
      (c := c.log (.returning signature.name)) ⟨hc.names, hc.otherNames, hc.result⟩ hs (hN _ hs)
    have htail := Steadily.yieldInto (part value) (Steadily.law.expression value) signature.name ref c'
    obtain ⟨hfiled', hkeeps'⟩ : Filed _ ∧ c'.target.Keeps N _ :=
      Keeps.ofSteady htail (fun x hx => .inr (hx ▸ hname ▸ hN _ hs)) hfiled
    rw [yield_apply hs, bind_apply, hret]
    exact ⟨hfiled', hkeeps.trans hkeeps'⟩

theorem finishFunction_steadily {X : String → Prop} (name : Named) (signature : Signature)
    (scope : Scope) : Steadily X (finishFunction name signature scope) := by
  have law : Law (Steadily X) := Steadily.law
  refine law.bind (law.settleArguments _ _ _) fun settled => ?_
  refine law.bind (law.onGraph fun t => settled.tables_build _ t) fun procedure => ?_
  exact law.bind (law.log _) fun _ c => Steady.setTarget rfl rfl

/-- A directive may switch the target, but only while there are no variables. -/
theorem directive_keeps (name : Named) (c : Compilation) : Keeps N c (directive name c).2 := by
  have law : Law (Steadily fun _ => False) := Steadily.law
  simp only [directive, bind_apply, get]
  split
  next => exact .of_steadily (law.fail rfl name.span) c
  next hlate =>
    simp only [Bool.or_eq_true, not_or, Bool.not_eq_true, Option.isSome_eq_false_iff,
      Option.isNone_iff_eq_none] at hlate
    obtain ⟨⟨⟨hcontent, -⟩, hfunction⟩, -⟩ := hlate
    split
    next =>
      intro hc
      obtain ⟨hstage, hsprite⟩ := c.project.targets_switchTo? "Stage"
      refine ⟨?_, fun x v hv _ => ?_⟩
      · exact hc.switch hstage hsprite hfunction
      · rw [Target.variableNamed?_of_not_hasContent hcontent] at hv
        cases hv
    next =>
      split
      next => exact .ofSteady (X := fun _ => False) (.of_vars rfl rfl rfl rfl rfl) fun _ => False.elim
      next => exact .of_steadily (law.fail rfl name.span) c

theorem functionHead_keeps (name : Named) (params : List Named) (c : Compilation) :
    Keeps N c (functionHead name params c).2 := by
  intro hc
  obtain ⟨hfiled, hkeeps⟩ := Keeps.of_steadily (Steadily.law.functionSignature name params) c hc
  rw [functionHead, bind_apply]
  cases hs : functionSignature name params c with
  | mk r c₁ =>
    rw [hs] at hfiled hkeeps
    cases r with
    | none => exact ⟨hfiled, hkeeps⟩
    | some signature =>
      refine ⟨⟨hfiled.names, hfiled.otherNames, fun {s ref} hf href => ?_⟩, hkeeps⟩
      cases hf
      rw [functionSignature_returnVariable hs] at href
      cases href

theorem closeFunction_keeps (name : Named) (c : Compilation) :
    Keeps N c (closeFunction name c).2 := by
  have hexit : Keeps N c (c.setTarget c.target.exit.2) :=
    .ofSteady (X := fun _ => False) (.ofTables rfl) fun _ => False.elim
  cases hf : c.function with
  | none =>
    rw [closeFunction_none hf]
    exact hexit
  | some signature =>
    rw [closeFunction_some hf]
    have hend : Keeps N (c.setTarget c.target.exit.2)
        { c.setTarget c.target.exit.2 with function := none } :=
      fun hc => ⟨⟨hc.names, hc.otherNames, by simp⟩, .refl _⟩
    exact (hexit.trans hend).trans (.of_steadily (finishFunction_steadily name signature _) _)

theorem comment_steadily {X : String → Prop} (text : String) : Steadily X (comment text) :=
  Steadily.law.bind (fun _ => .setTarget rfl rfl) fun _ => Steadily.law.pure _

end Emit

namespace Compilation.Keeps

variable {N : String → Prop}

/-- Between the visits of statements declared variables are kept. -/
theorem glue : Visit.Glue (Compilation.Keeps N) where
  refl _ hc := ⟨hc, .refl _⟩
  trans := trans
  contexts _ _ := .ofSteady (X := fun _ => False) (.of_vars rfl rfl rfl rfl rfl) fun _ => False.elim
  enterBlock _ := .ofSteady (X := fun _ => False) (.ofTables rfl) fun _ => False.elim
  functionHead := Emit.functionHead_keeps
  closeFunction := Emit.closeFunction_keeps
  branchHead condition hasElse := of_steadily (Emit.Steadily.law.branchHead condition hasElse)
  closeBranch id slot c := by
    have hexit : Keeps N c (c.setTarget c.target.exit.2) :=
      .ofSteady (X := fun _ => False) (.ofTables rfl) fun _ => False.elim
    exact hexit.trans (of_steadily (Emit.Steadily.law.attachBranch id slot _) _)
  endBranches id c := by
    have hdepth : Steady (fun _ => False) c { c with branchDepth := c.branchDepth - 1 } :=
      .of_vars rfl rfl rfl rfl rfl
    exact .ofSteady (hdepth.trans (.ofTables rfl)) fun _ => False.elim

theorem ensureEntry (c : Compilation) : Keeps N c (c.setTarget c.target.ensureEntry) := by
  cases he : c.target.entry with
  | some _ =>
    refine .ofSteady (X := fun _ => False) (.setTarget ?_ ?_) fun _ => False.elim <;>
      simp only [Target.ensureEntry, he]
  | none =>
    have htables := c.target.draw.tables_addBlock (.flagClicked (c.target.freshId "block"))
    refine .ofSteady (X := fun _ => False) (.setTarget ?_ ?_) fun _ => False.elim
    · simp only [Target.ensureEntry, he]
      exact (congrArg Target.name htables :)
    · simp only [Target.ensureEntry, he]
      exact (congrArg Target.vars htables :)

end Compilation.Keeps

theorem Compilation.Filed.new (sprite : String) :
    Compilation.Filed { project := .new sprite } where
  names h := by cases h
  otherNames h := by cases h
  result h := by cases h

namespace Visit

/-- The visit is a `return` of a function whose return variable has this name. -/
def ReturnsInto (v : Visit) (x : String) : Prop :=
  ∃ value span s, v.statement = .yield value span ∧ v.state.function = some s ∧
    x = Procedure.returnVariableName s.name v.state.target.name

theorem keeps_of_not_hasBodies {N : String → Prop} {v : Visit} (hb : v.hasBodies = false)
    (hN : ∀ x, v.ReturnsInto x → N x) : v.state.Keeps N v.after := by
  have law : Emit.Law (Emit.Steadily fun _ => False) := Emit.Steadily.law
  have hhandled : v.start.Keeps N v.handled.2 := by
    obtain ⟨s, c⟩ := v
    cases s with
    | declare named value span => exact Emit.declare_keeps named value _
    | assign named op opSpan value span =>
      exact .of_steadily (law.assign (law.expression value) named op opSpan) _
    | yield value span =>
      exact Emit.yield_keeps value span fun s hs => hN _ ⟨value, span, s, rfl, hs, rfl⟩
    | call name arguments span =>
      exact .of_steadily (law.callStatement (law.expressions arguments) name span _) _
    | directive name span => exact Emit.directive_keeps name _
    | comment text span => exact .of_steadily (Emit.comment_steadily text) _
    | function name params body span => cases hb
    | branch condition body otherwise span => cases hb
  exact (Compilation.Keeps.glue.contexts _ _).trans (hhandled.trans (Compilation.Keeps.glue.contexts _ _))

/-- A declared variable keeps its id and stays declared, and it keeps its type unless a `return`
sets it: through every visit, and from every visit to the end. -/
theorem declared_variable_kept (source sprite : String) :
    ∀ v ∈ ofSource source sprite,
      v.state.target.Keeps (fun x => ∃ w ∈ v.all, w.ReturnsInto x) v.after.target ∧
      v.after.target.Keeps (fun x => ∃ w ∈ ofSource source sprite, w.ReturnsInto x)
        (compile source sprite).current := by
  intro v hv
  cases hp : Program.ofSource source with
  | error e => simp [ofSource, hp] at hv
  | ok p =>
    have hvisits : ofSource source sprite =
        (program p.statements { project := .new sprite }).flatMap all := by
      simp only [ofSource, hp]
    have hcurrent : (compile source sprite).current =
        (Emit.program p.statements { project := .new sprite }).target := by
      simp only [compile, Project.compile, hp]
      rfl
    rw [hvisits] at hv ⊢
    rw [hcurrent]
    let visits := (program p.statements { project := .new sprite }).flatMap all
    have hglue : Glue (Compilation.Keeps fun x => ∃ w ∈ visits, w.ReturnsInto x) :=
      Compilation.Keeps.glue
    obtain ⟨-, hrun⟩ := hglue.program Compilation.Keeps.ensureEntry
      fun w hw hb => keeps_of_not_hasBodies hb fun x hx => ⟨w, hw, hx⟩
    obtain ⟨hto, hover, hfrom⟩ := hrun v hv
    have hstate := (hto (.new sprite)).1
    have hglue' : Glue (Compilation.Keeps fun x => ∃ w ∈ v.all, w.ReturnsInto x) :=
      Compilation.Keeps.glue
    have hself := hglue'.visit
      (fun w hw hb => keeps_of_not_hasBodies hb fun x hx => ⟨w, hw, hx⟩) v (mem_all.2 (.inl rfl))
    exact ⟨(hself.2.1 hstate).2, (hfrom (hover hstate).1).2⟩

/-- A declared variable that is assigned to. -/
theorem declared_variable_kept_assigned :
    ∃ v ∈ ofSource "let x = \"a\"\nx = \"b\"" "Sprite1", ∃ w w',
      v.state.target.variableNamed? "x" = some w ∧ w.built = true ∧
      v.after.target.variableNamed? "x" = some w' ∧ w'.id = w.id ∧ w'.built = true ∧
      (w'.type = w.type ∨ ∃ u ∈ v.all, u.ReturnsInto "x") := by
  obtain ⟨v, hv, hsome⟩ : ∃ v ∈ ofSource "let x = \"a\"\nx = \"b\"" "Sprite1",
      (v.state.target.builtVariable? "x").isSome = true := by
    decide +kernel
  obtain ⟨w, hw⟩ := Option.isSome_iff_exists.1 hsome
  obtain ⟨hw, hb⟩ := Option.filter_eq_some_iff.1 hw
  obtain ⟨w', hw', hkept⟩ := (declared_variable_kept _ _ v hv).1 "x" w hw hb
  exact ⟨v, hv, w, w', hw, hb, hw', hkept⟩

/-- A function whose return variable has the name of a declared variable changes its type. -/
theorem declared_variable_retyped :
    ∃ v ∈ ofSource
        "let f_Sprite1_ReturnValue = \"a\"\nfunction f() \x7b return 1 \x7d" "Sprite1",
      (v.state.target.builtVariable? "f_Sprite1_ReturnValue").map Variable.type = some .string ∧
      (v.after.target.builtVariable? "f_Sprite1_ReturnValue").map Variable.type =
        some .number := by
  decide +kernel

end Visit
end ScriptBlocks
