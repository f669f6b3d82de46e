import ScriptBlocks.Proofs.Naming
import ScriptBlocks.Proofs.Visits

/-!
# Statements without bodies

Declarations, assignments, results, calls and comments: each extends its script by the blocks of
its translation, or an error is reported.
-/
namespace ScriptBlocks.Emit

open Compilation

variable {ref : VariableRef} {v : Variable} {type : ValueType} {plain : Bool} {op : ArithmeticOp}
variable {operand : Operand} {q : String}
variable {env : Env} {c c' c'' : Compilation} {σ : Script} {ids cs : List String} {n : String}
variable {content : Content} {calls : List Tree} {P : String → Prop}

/-- The block that sets a variable is well typed when its value has the type of the variable. -/
theorem setVariable_wellTyped {t : Target} {b : Block} {value : SlotValue}
    (hface : b.face = (Block.setVariable n ref .empty).face) (hslots : b.slots = [("VALUE", value)])
    (hv : t.variableNamed? ref.name = some v) (href : v.ref = ref) (ht : v.type ≠ .unresolved)
    (hvalue : value.HasType t v.type) : b.WellTyped t := by
  have hop : b.opcode = .setVariable := Block.opcode_of_face hface rfl
  have hfields : b.fields = (Block.setVariable n ref .empty).fields :=
    (congrArg Block.fields hface :)
  subst href
  simp only [Block.WellTyped, hop]
  refine ⟨v, ?_, hv, Block.slotHas_of_mem (by rw [hslots]; simp) ht hvalue⟩
  rw [hfields]
  rfl

theorem setVariable_slots (n : String) (ref : VariableRef) (v : Operand) :
    ((Block.setVariable n ref .empty).fillAll ["VALUE"] [v]).slots = [("VALUE", v.slotValue)] := by
  rw [Block.fillAll_one]
  rfl

/-- Values keep their types when only names change. -/
theorem hasType_later {value : SlotValue} {new : List String} {O : String → Prop}
    (he : Extended σ ids new O c c') (hg : c.target.Grows c'.target) (ht : type ≠ .unresolved)
    (h : value.HasType c.target type) : value.HasType c'.target type := by
  refine h.mono ht hg fun x b _ hx hi => ?_
  obtain ⟨b', hb', hk⟩ := he.runs.advance.old hx
  exact ⟨b', hb', hk.inferred hi⟩

/-- A statement that sets a variable, up to what settles the type of the variable. -/
theorem Laid.set_compiled {v : Operand} {trees : List Tree} {declared : List String}
    (h : Laid env (.setVariable n ref .empty) [("VALUE", v.slotValue)] [content] calls σ ids cs n [v]
      (· = n) c c') (hs : Sited c.target σ [] ids)
    (he : Extended σ (ids ++ (cs ++ [n])) [] (fun _ => False) c' c'')
    (hname : env.Covers c''.inference → trees = calls ++ [.setVariable ref content])
    (hchecked : ∀ D : String → Prop, (∀ x ∈ declared, D x) → c.Checked D (fun _ => False) →
      c'.Checked D (· = n) → c'.target.Grows c''.target ∧ c''.Checked D (· = n) ∧
      ∃ w, c''.target.variableNamed? ref.name = some w ∧ w.ref = ref ∧ w.type ≠ .unresolved ∧
        c'.inference.Has v w.type) (hsettled : c'.ResultSettled → c''.ResultSettled) :
    Compiled env σ ids (cs ++ [n]) trees declared c c'' := by
  obtain ⟨b, hb, hface, hslots⟩ := h.block
  refine h.compiled hs he hname (fun hcov => ?_) (fun D hD hc hc' => ?_) hsettled
  · refine (Shape.setVariable ref).tree_at hb hface ?_
    rw [hslots]
    obtain ⟨_, _, hv, -, heq⟩ := List.forall₂_cons_right_iff.1 (h.yields.values hcov)
    cases heq
    exact ⟨rfl, hv, trivial⟩
  · obtain ⟨hgrows, hc'', w, hw, href, ht, hv⟩ := hchecked D hD hc hc'
    refine hc''.close fun x bx hx hbx => ?_
    obtain rfl : x = n := hx
    obtain ⟨b', hb', hk⟩ := he.runs.advance.old hb
    obtain rfl := Option.mem_unique hbx hb'
    have hvalue := hv.slotValue hc'.sane (h.yields.known v (by simp))
    refine setVariable_wellTyped (hk.face.trans hface) ?_ hw href ht (hasType_later he hgrows ht hvalue)
    rw [← hslots, Block.slots, hk.inputs id]
    rfl

section

variable {value : Part}

theorem declaredType_quietly (hg : c.inference.Good) (ht : type ≠ .void) (x : String) (span : Span) :
    ∃ type' c', declaredType x span type c = (some type', c') ∧
      Quietly c ((some type', c') : Option ValueType × Compilation) ∧ type' ≠ .unresolved ∧
      type' ≠ .void := by
  have hreport := Quietly.report hg (.untypedVariable x) span
  unfold declaredType
  split
  · exact ⟨.string, _, rfl, hreport.trans (.pure hreport.good _), by decide, by decide⟩
  · contradiction
  · exact ⟨type, c, rfl, .pure hg _, by assumption, by assumption⟩

/-- What follows the creation of the variable in a declaration. -/
def declareInto (named : Named) (ref : VariableRef) (value : Part) : Emit Unit := do
  let id ← place fun id => .setVariable id ref .empty
  let operand ← within (.inputs id 0) value.operand
  settleVariable named.name operand value.span

theorem declare_apply (named : Named) (value : Part) (c : Compilation) :
    declare named value c =
      let c := c.log (.declaring named.name)
      if (c.target.builtVariable? named.name).isSome || c.isArgument named.name then
        fail (.variableRedeclared named.name) named.span c
      else if isFunctionName c named.name then
        fail (.variableNamedLikeFunction named.name) named.span c
      else
        declareInto named (c.target.createVariable named.name .unresolved).1 value
          (c.setTarget (c.target.createVariable named.name .unresolved).2) := by
  simp only [declare, bind_apply, log, modify, get]
  split
  · rfl
  · split
    · rfl
    · rfl

/-- A check either reports an error or settles types. -/
theorem expectType_cases (hg : c.inference.Good) (hv : type.IsValue) (ops : List Operand)
    (span : Span) : (∃ c', expectType type ops span c = (none, c') ∧
      Quietly c ((none, c') : Option Unit × Compilation)) ∨
    ∃ c', expectType type ops span c = (some (), c') ∧
      Quietly c ((some (), c') : Option Unit × Compilation) ∧
      ∀ op ∈ ops, c.inference.Known op → c'.inference.Has op type := by
  obtain ⟨hq, hhas⟩ := Quietly.expectType hg hv ops span
  cases hr : expectType type ops span c with
  | mk r c' =>
    rw [hr] at hq
    cases r with
    | none => exact .inl ⟨c', rfl, hq⟩
    | some u => exact .inr ⟨c', rfl, hq, hhas c' hr⟩

theorem declareInto_compiled {named : Named} {w : Variable}
    (hF : Fills env value.operand (fun v => [v]) [content] calls) (hg : c.inference.Good)
    (hs : Sited c.target σ [] ids) (hw : c.target.variableNamed? named.name = some w)
    (href : w.ref = ref) (hbuilt : w.built = false)
    (hargs : ∀ s, c.function = some s → named.name ∉ s.arguments.keys) :
    ∃ new, Compiled env σ ids new (calls ++ [env.set named.name content]) [named.name] c
      (declareInto named ref value c).2 := by
  let K (_ : String) (operand : Operand) : Emit Unit :=
    settleVariable named.name operand value.span
  have hshape : Shape (Block.setVariable · ref .empty) 0 (["VALUE"] ++ []) .setVariable
    [("VARIABLE", ⟨ref.name, some ref.id⟩)] none := .setVariable ref
  obtain ⟨n, cs, c₁, he₁, ⟨hloud, hrun⟩ | ⟨v, hrun, hlaid⟩⟩ :=
    place_within (K := K) hshape hF rfl hg hs
  · have hrun : declareInto named ref value c = (none, c₁) := hrun
    rw [hrun]
    exact ⟨_, .failed he₁ hloud⟩
  have hrun : declareInto named ref value c = K n v c₁ := hrun
  rw [hrun]
  have hknown := hlaid.yields.known v (by simp)
  obtain ⟨type, c₂, h₂, hq₂, htype, hvoid⟩ := declaredType_quietly hlaid.runs.good
    (hlaid.runs.good.expected_ne_void hknown) named.name value.span
  have hlaid₂ := hlaid.quiet hq₂
  obtain ⟨c₃, h₃, hq₃⟩ | ⟨c₃, h₃, hq₃, hhas⟩ := expectType_cases hq₂.good ⟨htype, hvoid⟩ [v] value.span
  · have hK : K n v c₁ = (none, c₃) := by simp only [K, settleVariable, bind_apply, expectedType, h₂, h₃]
    rw [hK]
    exact ⟨_, .failed (hlaid₂.quiet hq₃).extended (hq₃.loud rfl)⟩
  have hlaid₃ := hlaid₂.quiet hq₃
  rw [setVariable_slots] at hlaid₃
  let c₄ := c₃.setTarget (c₃.target.modifyVariable named.name ({ · with type, built := true }))
  have hK : K n v c₁ = log (.declared named.name type) c₄ := by
    simp only [K, settleVariable, bind_apply, expectedType, h₂, h₃]
    rfl
  rw [hK]
  -- the variable is as it was, and it is no argument
  have hw₃ : c₃.target.variableNamed? named.name = some w := by
    rw [Target.variableNamed?, hlaid₃.calm.vars_eq]
    exact hw
  have hname : w.name = named.name := hg.tables.names hw
  have hargs₃ : ∀ s, c₃.function = some s → named.name ∉ s.arguments.keys := by
    intro s hs₃
    obtain ⟨s₀, hs₀, hf, -⟩ := hlaid₃.calm.function.exists_of_some hs₃
    exact hf.keys ▸ hargs s₀ hs₀
  have he₄ : Extended σ (ids ++ (cs ++ [n])) [] (fun _ => False) c₃ c₄ :=
    .modifyVariable hq₃.good hlaid₃.runs.sited (fun _ => rfl) (fun _ => ⟨htype, hvoid⟩) (fun _ _ => rfl)
      (.inr hargs₃)
  have hw₄ : c₄.target.variableNamed? named.name = some { w with type, built := true } := by
    rw [target_setTarget, Target.variableNamed?_modifyVariable, if_pos rfl, hw₃]
    rfl
  refine ⟨cs ++ [n], .then_quiet ?_ hs (.log he₄.runs.good _)⟩
  refine hlaid₃.set_compiled hs he₄ (fun hcov => ?_) (fun D hD _ hc => ?_) id
  · rw [Env.set, Env.ref, (hcov.vars (Target.builtVariable?_eq_some.2 ⟨hw₄, rfl⟩)).2]
    exact congrArg (fun r => calls ++ [Tree.setVariable r content]) href
  · have hD' := hD named.name (by simp)
    have hnone : c₃.target.builtVariable? named.name = none := by
      rw [Target.builtVariable?, hw₃]
      simp [Option.filter, hbuilt]
    refine ⟨?_, hc.declare hq₃.good hD' hnone, { w with type, built := true }, ?_, href, htype,
      hhas v (by simp) (hq₂.quiet.known hknown)⟩
    · rw [target_setTarget]
      exact hc.grows_modifyVariable hD' hnone _
    · rw [← href, show w.ref.name = named.name from hname]
      exact hw₄

theorem declare_compiles (hF : Fills env value.operand (fun v => [v]) [content] calls)
    (named : Named) :
    Compiles env plain (fun c => (declare named value c).2) (calls ++ [env.set named.name content])
      [named.name] := by
  intro c σ ids hg hs _
  have hq : Quietly c ((some (), c.log (.declaring named.name)) : Option Unit × Compilation) :=
    .log hg _
  have hs₁ : Sited (c.log (.declaring named.name)).target σ [] ids := hs
  simp only [declare_apply]
  split
  next => exact ⟨[], .after_quiet hq hs (.of_fail hs₁ (.fail hq.good rfl _) rfl)⟩
  next hfree =>
    split
    next => exact ⟨[], .after_quiet hq hs (.of_fail hs₁ (.fail hq.good rfl _) rfl)⟩
    next =>
      simp only [Bool.or_eq_true, not_or, Bool.not_eq_true, Option.isSome_eq_false_iff,
        Option.isNone_iff_eq_none] at hfree
      obtain ⟨hnone, hargument⟩ := hfree
      generalize hc₁ : c.log (.declaring named.name) = c₁ at *
      have hcreate : Compiled env σ ids [] [] [named.name] c₁ _ :=
        .createVariable hq.good hs₁ named.name
      obtain ⟨w, hw, href, hbuilt⟩ : ∃ w,
          (c₁.target.createVariable named.name .unresolved).2.variableNamed? named.name = some w ∧
          w.ref = (c₁.target.createVariable named.name .unresolved).1 ∧ w.built = false := by
        obtain ⟨w, hw, ht⟩ | ⟨w, t', -, ht, -, -, -, hbuilt, hw, -⟩ :=
          c₁.target.createVariable_cases named.name
        · rw [ht]
          refine ⟨w, hw, rfl, ?_⟩
          rw [← Bool.not_eq_true]
          intro hbuilt
          simp [Target.builtVariable?_eq_some.2 ⟨hw, hbuilt⟩] at hnone
        · rw [ht]
          exact ⟨w, hw, rfl, hbuilt⟩
      obtain ⟨new, hc⟩ := declareInto_compiled hF hcreate.extended.runs.good
        (by simpa using hcreate.extended.runs.sited) (by rw [target_setTarget]; exact hw) href hbuilt
        fun s hf hm => by
          simp [isArgument, show c₁.function = some s from hf, Signature.hasArgument,
            (s.arguments.contains_iff named.name).2 hm] at hargument
      exact ⟨new, .after_quiet hq hs ((hcreate.after hs₁ hc).mono (by simp))⟩

theorem assignPlain_compiled {x : String}
    (hF : Fills env value.operand (fun v => [v]) [content] calls) (hg : c.inference.Good)
    (hs : Sited c.target σ [] ids) (hv : c.target.builtVariable? x = some v) :
    ∃ new, Compiled env σ ids new (calls ++ [env.set x content]) [] c
      (((place fun id => .setVariable id v.ref .empty) >>= (assignPlain v · value)) c).2 := by
  let K : String → Operand → Emit Unit := fun _ operand => do
    let mismatch? ← assertType v.type [operand]
    mismatch?.elim (pure ()) fun mismatch =>
      fail (.wrongAssignment mismatch.found.name v.type.name) value.span
  have hassign : (assignPlain v · value) = fun id => within (.inputs id 0) value.operand >>= K id := by
    funext id
    rw [assignPlain]
    congr 1
    funext operand
    refine bind_congr fun mismatch? => ?_
    cases mismatch? <;> rfl
  have hshape : Shape (Block.setVariable · v.ref .empty) 0 (["VALUE"] ++ []) .setVariable
    [("VARIABLE", ⟨v.name, some v.id⟩)] none := .setVariable v.ref
  obtain ⟨n, cs, c₁, he₁, ⟨hloud, hrun⟩ | ⟨operand, hrun, hlaid⟩⟩ :=
    place_within (K := K) hshape hF rfl hg hs
  · rw [hassign, hrun]
    exact ⟨_, .failed he₁ hloud⟩
  rw [hassign, hrun]
  obtain ⟨hx, hbuilt⟩ := Target.builtVariable?_eq_some.1 hv
  have hvalue : v.type.IsValue := ⟨hg.tables.built hx hbuilt, hg.tables.values hx⟩
  obtain ⟨hq, hhas⟩ := Quietly.assertType hlaid.runs.good hvalue [operand]
  cases ha : assertType v.type [operand] c₁ with
  | mk r c₂ =>
    rw [ha] at hq hhas
    have hlaid₂ := hlaid.quiet hq
    obtain _ | _ | mismatch := r
    · have hK : K n operand c₁ = (none, c₂) := by simp only [K, bind_apply, ha]
      rw [hK]
      exact ⟨_, .failed hlaid₂.extended (hq.loud rfl)⟩
    · have hK : K n operand c₁ = (some (), c₂) := by
        simp only [K, bind_apply, ha]
        rfl
      rw [hK]
      rw [setVariable_slots] at hlaid₂
      have hname : v.name = x := hg.tables.names hx
      refine ⟨_, hlaid₂.set_compiled hs (.refl hq.good hlaid₂.runs.sited) (fun hcov => ?_)
        (fun D _ hc hc₂ => ?_) id⟩
      · rw [Env.set, Env.ref, ((hlaid₂.extended.covers hcov).vars hv).2]
        rfl
      · refine ⟨.of_tables rfl, hc₂, v, ?_, rfl, hvalue.1,
          hhas rfl operand (by simp) (hlaid.yields.known operand (by simp))⟩
        rw [Target.variableNamed?, hlaid₂.calm.vars_eq, show v.ref.name = x from hname]
        exact hx
    · have hK : K n operand c₁ =
          fail (.wrongAssignment mismatch.found.name v.type.name) value.span c₂ := by
        simp only [K, bind_apply, ha, Option.elim_some]
      rw [hK]
      have hfail : Quietly c₂ (fail (.wrongAssignment mismatch.found.name v.type.name) value.span c₂ :
        Option Unit × Compilation) := .fail hq.good rfl _
      exact ⟨_, .failed (hlaid₂.quiet hfail).extended (hfail.loud rfl)⟩

theorem assignCombined_apply (h : v.type = .number) (id : String) (op : ArithmeticOp)
    (opSpan : Span) (value : Part) (c : Compilation) : assignCombined v id op opSpan value c =
      (do
        let p ← within (.inputs id 0) do
          let inner ← place fun n => .arithmetic n op (.payload (.variable v.ref)) .empty
          let operand ← within (.inputs inner 0) value.operand
          pure (inner, operand)
        warnDivisionByZero op p.2 value.span
        expectType .number [p.2] value.span : Emit Unit) c := by
  simp only [assignCombined, h, ne_eq, not_true_eq_false, ↓reduceIte, bind_apply, onTarget,
    Target.drawBlock, within, place, modifyTarget, modify, target_setTarget, setTarget_setTarget]
  -- the inner block is drawn before the scope is opened, which makes no difference
  rw [show (c.target.enter (.inputs id 0)).draw = c.target.draw.enter (.inputs id 0) from rfl,
    show (c.target.enter (.inputs id 0)).freshId "block" = c.target.freshId "block" from rfl]
  generalize value.operand _ = r
  obtain ⟨_ | operand, c'⟩ := r <;> simp [pure_apply]

theorem combination_slots (n : String) (op : ArithmeticOp) (value : Payload) (v : Operand) :
    ((Block.arithmetic n op (.payload value) .empty).fillAll ["NUM2"] [v]).slots =
      [("NUM1", .payload value), ("NUM2", v.slotValue)] := by
  rw [Block.fillAll_one]
  simp [Block.slots, Block.arithmetic,
    Block.pair_entries n _ .number .number (by decide : "NUM1" ≠ "NUM2")]

/-- The operator of a combined assignment stands in the slot of the block that sets the
variable. -/
structure Combination (op : ArithmeticOp) (value : Payload) (operand : Operand) (c : Compilation)
    (ids : List String) (q : String) (c' : Compilation) : Prop where
  inner : Inner c ids q
  block : ∃ b, c'.target.block? q = some b ∧
    b.face = (Block.arithmetic q op (.payload value) .empty).face ∧
    b.slots = [("NUM1", .payload value), ("NUM2", operand.slotValue)] ∧ b.next = none ∧
    b.inferred = .number

theorem Combination.quiet {payload : Payload} {α : Type} {r : Option α × Compilation}
    (h : Combination op payload operand c ids q c') (hq : Quietly c' r) :
    Combination op payload operand c ids q r.2 := by
  obtain ⟨b, hb, hface, hslots, hnext, hi⟩ := h.block
  obtain ⟨b', hb', hk⟩ := hq.quiet.old hb
  refine ⟨h.inner, b', hb', hk.face.trans hface, ?_, (hk.next id).trans hnext,
    (hk.inferred (by simp [hi])).trans hi⟩
  rw [← hslots, Block.slots, hk.inputs id]
  rfl

theorem combination_core (op : ArithmeticOp)
    (hF : Fills env value.operand (fun v => [v]) [content] calls)
    (hp : Placed (.setVariable n v.ref .empty) σ ids n c c') : ∃ cs c₁ r, within (.inputs n 0) (do
        let inner ← place fun q => .arithmetic q op (.payload (.variable v.ref)) .empty
        let operand ← within (.inputs inner 0) value.operand
        pure (inner, operand)) c' = (r, c₁) ∧
      Extended σ ids (cs ++ [n]) (fun _ => False) c c₁ ∧
      (r = none → c₁.project.success = false) ∧
      ∀ q operand, r = some (q, operand) →
        Laid env (.setVariable n v.ref .empty) [("VALUE", .block q)] [content] calls σ ids cs n
          [operand] (fun x => x = n ∨ x = q) c c₁ ∧
        Combination op (.variable v.ref) operand c (ids ++ (cs ++ [n])) q c₁ := by
  obtain ⟨b, hb, hface, hin⟩ := hp.block
  have hopen : Runs σ (ids ++ [n]) (ids ++ [n]) [(n, 0)] (· = n) c' _ :=
    open_inputs hp.runs.good hp.runs.sited
  have hfree : b.free 0 = ["VALUE"] :=
    (Block.free_eq_of_inputs hin 0).trans ((Shape.setVariable v.ref).free n)
  obtain ⟨cs, k, c₁, hruns, hcalm, hcase⟩ :=
    operator_core (K := fun q operand => pure (q, operand))
      (Shape.combination op (.variable v.ref)) (fun _ => Block.valued_of .number rfl (by decide)) hF rfl
      hopen.good hopen.sited (by rw [target_setTarget]; exact hb) hfree
  obtain ⟨hruns', hcalm', hrest, hyields, htyped⟩ :=
    close_inputs hp.runs.good hp.runs.sited hb hruns hcalm
  have he : Extended σ ids (cs ++ [n]) (fun _ => False) c (c₁.setTarget c₁.target.exit.2) :=
    .of_calm (hp.runs_trans hruns') (hp.calm.trans hcalm' hruns'.advance)
  obtain ⟨hloud, hrun⟩ | ⟨q, operand, hrun, hop, hi⟩ := hcase
  · exact ⟨cs, _, none, by simp only [within, hrun], he, fun _ => hrest.success_false hloud, by simp⟩
  · refine ⟨cs, _, some (q, operand), by simp only [within, hrun]; rfl, he, by simp, ?_⟩
    rintro _ _ ⟨⟩
    obtain ⟨a, ha, hain, -⟩ := hop.anchor
    obtain ⟨bq, hbq, hqface, hqin, hqnext, -, -⟩ := hop.block
    have hinner := hop.inner
    rw [Compilation.Inner, target_setTarget] at hinner
    refine ⟨hp.laid hruns' hcalm' (b := a) ?_ ?_ (hyields hop.yields)
      (htyped (hop.typed.mono fun _ hx => .inr hx)) (.inl rfl),
      ⟨block?_none_of_later hp.runs.advance hinner.1, ?_⟩,
      ⟨bq, by rw [target_setTarget]; exact hbq, hqface, ?_, hqnext, (hi bq hbq).trans rfl⟩⟩
    · rw [target_setTarget]
      exact ha
    · rw [Block.slots, hain]
      have hslots : (b.fill "VALUE" (.block q)).slots = [("VALUE", .block q)] := by
        rw [Block.slots_fill, Block.slots, hin]
        rfl
      exact hslots
    · rw [← List.append_assoc]
      exact hinner.2
    · rw [← combination_slots q op, Block.slots, hqin]
      rfl

/-- The operator of a combined assignment reads as its tree. -/
theorem Combination.script_at {payload : Payload} (h : Combination op payload operand c ids q c')
    (hat : content.At (env.look c'.target) (Inner c ids) operand.slotValue) :
    Content.At (env.look c'.target) (Inner c ids) (.block q)
      (.script [.arithmetic op (.payload payload) content]) := by
  obtain ⟨b, hb, hface, hslots, hnext, -⟩ := h.block
  refine ⟨h.inner, (Shape.combination op payload).tree_at hb hface ?_, env.view b,
    by simp [Env.look, hb], ?_⟩
  · rw [hslots]
    exact ⟨rfl, rfl, rfl, hat, trivial⟩
  · rw [show (env.view b).next = none from hnext]
    trivial

theorem Combination.wellTyped (h : Combination op (.variable v.ref) operand c ids q c')
    (hs : c'.target.Sane) (hv : c'.target.variableNamed? v.ref.name = some v)
    (htype : v.type = .number) (hk : c'.inference.Known operand)
    (hhas : c'.inference.Has operand .number) :
    ∀ b, c'.target.block? q = some b → b.WellTyped c'.target := by
  intro b hbq
  obtain ⟨b', hb, hface, hslots, -, -⟩ := h.block
  obtain rfl := Option.mem_unique hbq hb
  have hop : b.opcode = .arithmetic op := Block.opcode_of_face hface rfl
  have hvalue : SlotValue.HasType c'.target (.payload (.variable v.ref)) .number := ⟨v, hv, htype⟩
  simp only [Block.WellTyped, hop]
  exact ⟨Block.slotHas_of_mem (by rw [hslots]; simp) (by decide) hvalue,
    Block.slotHas_of_mem (by rw [hslots]; simp) (by decide) (hhas.slotValue hs hk)⟩

theorem assignCombined_compiled {x : String} {opSpan : Span}
    (hF : Fills env value.operand (fun v => [v]) [content] calls) (hg : c.inference.Good)
    (hs : Sited c.target σ [] ids) (hv : c.target.builtVariable? x = some v) :
    ∃ new, Compiled env σ ids new
      (calls ++ [env.set x (.script [.arithmetic op (env.name x) content])]) [] c
      (((place fun id => .setVariable id v.ref .empty) >>=
        (assignCombined v · op opSpan value)) c).2 := by
  obtain ⟨n, c₁, hplace, hp⟩ := place_next (Shape.setVariable v.ref) hg hs
  rw [bind_of_eq hplace]
  obtain ⟨hx, -⟩ := Target.builtVariable?_eq_some.1 hv
  by_cases htype : v.type = .number
  swap
  · have hfail : assignCombined v n op opSpan value c₁ =
        fail (.wrongAssignment "number" v.type.name) opSpan c₁ := by
      simp only [assignCombined, htype, ne_eq, not_false_eq_true, ↓reduceIte]
    rw [hfail]
    have hq : Quietly c₁ (fail (.wrongAssignment "number" v.type.name) opSpan c₁ :
      Option Unit × Compilation) := .fail hp.runs.good rfl _
    have he : Extended σ ids ([n] ++ []) (fun _ => False) c _ :=
      (Extended.of_calm hp.runs hp.calm).trans (.of_quiet hp.runs.sited hq) fun _ _ _ hx =>
        hx.elim id id
    exact ⟨_, .failed he (hq.loud rfl)⟩
  rw [assignCombined_apply htype]
  obtain ⟨cs, c₂, r, hwithin, he₂, hloud, hok⟩ := combination_core op hF hp
  obtain _ | ⟨q, operand⟩ := r
  · simp only [bind_apply, hwithin]
    exact ⟨_, .failed he₂ (hloud rfl)⟩
  rw [bind_of_eq hwithin]
  obtain ⟨hlaid, hcomb⟩ := hok q operand rfl
  obtain ⟨c₃, h₃, hq₃⟩ := warnDivisionByZero_quietly hlaid.runs.good op operand value.span
  rw [bind_of_eq h₃]
  have hlaid₃ := hlaid.quiet hq₃
  obtain ⟨c₄, h₄, hq₄⟩ | ⟨c₄, h₄, hq₄, hhas⟩ :=
    expectType_cases hq₃.good (by decide : ValueType.number.IsValue) [operand] value.span
  · simp only [h₄]
    exact ⟨_, .failed (hlaid₃.quiet hq₄).extended (hq₄.loud rfl)⟩
  simp only [h₄]
  have hlaid₄ := hlaid₃.quiet hq₄
  have hcomb₄ := (hcomb.quiet hq₃).quiet hq₄
  have hname : v.name = x := hg.tables.names hx
  have hv₄ : c₄.target.variableNamed? v.ref.name = some v := by
    rw [Target.variableNamed?, hlaid₄.calm.vars_eq, show v.ref.name = x from hname]
    exact hx
  obtain ⟨b, hb, hface, hslots⟩ := hlaid₄.block
  have htrees : env.Covers c₄.inference →
      calls ++ [env.set x (.script [.arithmetic op (env.name x) content])] =
        calls ++ [.setVariable v.ref (.script [.arithmetic op (.payload (.variable v.ref)) content])] := by
    intro hcov
    obtain ⟨harg, href⟩ := (hlaid₄.extended.covers hcov).vars hv
    simp only [Env.set, Env.name, Env.ref, harg, href]
    rfl
  refine ⟨_, hlaid₄.compiled hs (.refl hq₄.good hlaid₄.runs.sited) htrees (fun hcov => ?_)
    (fun D _ hc hc₄ => hc₄.close ?_) id⟩
  · refine (Shape.setVariable v.ref).tree_at hb hface ?_
    rw [hslots]
    obtain ⟨_, _, hat, -, heq⟩ := List.forall₂_cons_right_iff.1 (hlaid₄.yields.values hcov)
    cases heq
    exact ⟨rfl, hcomb₄.script_at hat, trivial⟩
  · rintro y by₄ (rfl | rfl) hy
    · obtain rfl := Option.mem_unique hy hb
      obtain ⟨bq, hbq, -, -, -, hi⟩ := hcomb₄.block
      exact setVariable_wellTyped hface hslots hv₄ rfl (by simp [htype]) ⟨bq, hbq, hi.trans htype.symm⟩
    · have hk := hlaid₃.yields.known operand (by simp)
      exact hcomb₄.wellTyped hc₄.sane hv₄ htype (hlaid₄.yields.known operand (by simp))
        (hhas operand (by simp) hk) by₄ hy

theorem assign_apply (named : Named) (op : Option ArithmeticOp) (opSpan : Span) (value : Part)
    (c : Compilation) :
    assign named op opSpan value c =
      let c := c.log (.assigning named.name op)
      match c.target.builtVariable? named.name with
      | none => fail (.undefinedVariable named.name) named.span c
      | some v =>
        match op with
        | none => ((place fun id => .setVariable id v.ref .empty) >>= (assignPlain v · value)) c
        | some op =>
          ((place fun id => .setVariable id v.ref .empty) >>=
            (assignCombined v · op opSpan value)) c := by
  cases hv : (c.log (.assigning named.name op)).target.builtVariable? named.name <;>
    cases op <;> simp only [assign, bind_apply, log, modify, target, hv]

theorem assign_compiles (hF : Fills env value.operand (fun v => [v]) [content] calls)
    (named : Named) (op : Option ArithmeticOp) (opSpan : Span) :
    Compiles env plain (fun c => (assign named op opSpan value c).2)
      (calls ++ [env.set named.name
        (op.elim content fun op => .script [.arithmetic op (env.name named.name) content])]) [] := by
  intro c σ ids hg hs _
  have hq : Quietly c ((some (), c.log (.assigning named.name op)) : Option Unit × Compilation) :=
    .log hg _
  have hs₁ : Sited (c.log (.assigning named.name op)).target σ [] ids := hs
  simp only [assign_apply]
  split
  next => exact ⟨[], .after_quiet hq hs (.of_fail hs₁ (.fail hq.good rfl _) rfl)⟩
  next v hv =>
    cases op with
    | none =>
      obtain ⟨new, hc⟩ := assignPlain_compiled hF hq.good hs₁ hv
      exact ⟨new, .after_quiet hq hs hc⟩
    | some op =>
      obtain ⟨new, hc⟩ := assignCombined_compiled hF hq.good hs₁ hv
      exact ⟨new, .after_quiet hq hs hc⟩

end

/-- A call as a statement: its arguments fill the slots of its block. -/
theorem callStatement_compiles {contents : List Content} {spans : List Span}
    {m : Emit (List Operand)} (hF : Fills env m id contents calls)
    (hlen : contents.length = spans.length) (f : String) (span : Span) :
    Compiles env plain (fun c => (callStatement f span m spans c).2)
      (calls ++ [.call (env.callee f) contents]) [] := by
  intro c σ ids hg hs _
  obtain ⟨p, hcallee, hp, hsize⟩ | ⟨problem, hproblem, hcallee⟩ := callee_eq c f spans.length span
  swap
  · have hfail : callStatement f span m spans c = (none, (fail problem span c : Option Unit × _).2) := by
      simp only [callStatement, bind_apply, hcallee]
      rfl
    have hq : Quietly c (fail problem span c : Option Unit × Compilation) := .fail hg hproblem _
    simp only [hfail]
    exact ⟨[], .of_fail hs hq rfl⟩
  have hnodup : p.slotNames.Nodup := (hg.tables.procs hp).1
  have hq : Quietly c ((some (), c.log (.calling f)) : Option Unit × Compilation) := .log hg _
  have hs₁ : Sited (c.log (.calling f)).target σ [] ids := hs
  obtain ⟨n, c₁, hplace, hplaced⟩ := place_next (Procedure.callBlock_shape hnodup) hq.good hs₁
  obtain ⟨b, hb, hface, hin⟩ := hplaced.block
  obtain ⟨cs, c₂, r, hargs, hruns, hcalm, hloud, hok⟩ :=
    callArguments_fills hF hplaced.runs.good hplaced.runs.sited hnodup
      (fun _ ha => hg.tables.arguments hp ha) hsize hlen hb hin
  have hrun : callStatement f span m spans c = (r, c₂) := by
    simp only [callStatement, bind_apply, hcallee, log, modify, hplace, hargs]
  simp only [hrun]
  cases r with
  | none =>
    have he : Extended σ ids (cs ++ [n]) (fun _ => False) _ c₂ :=
      .of_calm (hplaced.runs_trans hruns) (hplaced.calm.trans hcalm hruns.advance)
    exact ⟨_, .after_quiet hq hs (.failed he (hloud rfl))⟩
  | some u =>
    obtain ⟨ops, b', hops, hb', hslots, hhas, hy, ht⟩ := hok rfl
    have hlaid := hplaced.laid (P := (· = n)) hruns hcalm hb' hslots hy
      (ht.mono fun _ => False.elim) rfl
    obtain ⟨b₂, hb₂, hface₂, hslots₂⟩ := hlaid.block
    have hp₂ : c₂.target.functionNamed? f = some p := by
      rw [Target.functionNamed?, hlaid.calm.functions_eq]
      exact hp
    have htrees : env.Covers c₂.inference →
        calls ++ [Tree.call (env.callee f) contents] = calls ++ [Tree.call p contents] := by
      intro hcov
      rw [Env.callee, hcov.procedures hp₂]
      rfl
    refine ⟨_, .after_quiet hq hs (hlaid.compiled hs₁ (.refl hlaid.runs.good hlaid.runs.sited)
      htrees (fun hcov => ?_) (fun D _ _ hc₂ => hc₂.close ?_) id)⟩
    · exact call_tree hnodup hb₂ hface₂ hops hslots₂ (hlaid.yields.values hcov)
    · rintro x bx rfl hx
      obtain rfl := Option.mem_unique hx hb₂
      have hcalm₂ : c₂.inference.target.Sane := hc₂.sane
      exact call_wellTyped hcalm₂ hp₂ (fun _ ha => hg.tables.arguments hp ha) hface₂ hops hslots₂
        hhas

theorem comment_compiles (env : Env) (text : String) :
    Compiles env plain (fun c => (comment text c).2) [] [] := by
  intro c σ ids hg hs _
  have hr := Target.Renamed.addComment c.target text
  have he : Extended σ ids [] (fun _ => False) c (c.setTarget (c.target.addComment text).2) :=
    .of_renamed hg hs hr
      (hr.proper hg.tables fun hx => ⟨hg.tables.names hx, hg.tables.values hx, hg.tables.built hx⟩)
      (fun {x v} hx => ⟨v, hx, rfl, id⟩) fun ha x v s hx hs => by
        rw [target_setTarget] at hx
        exact ha x v s hx hs
  exact ⟨[], he, fun _ _ => .nil, fun _ D _ hc => hc.addComment hg text,
    fun _ => id⟩

theorem directive_of_inside (hin : c.Inside) (name : Named) :
    directive name c = fail .lateDirective name.span c := by
  have hlate : (c.target.hasContent || c.target.entry.isSome || c.function.isSome ||
      decide (0 < c.branchDepth)) = true := by
    obtain h | h := hin
    · simp [h]
    · simp [h]
  simp only [directive, bind_apply, get, hlate, ↓reduceIte]

theorem functionHead_of_inside (hin : c.Inside) (name : Named) (params : List Named) :
    functionHead name params c =
      fail .nestedFunction name.span (c.log (.defining name.name)) := by
  have hnested : ((c.log (.defining name.name)).function.isSome ||
      decide (0 < (c.log (.defining name.name)).branchDepth)) = true := by
    obtain h | h := hin
    · simp [show (c.log (.defining name.name)).function.isSome = true from h]
    · simp [show 0 < (c.log (.defining name.name)).branchDepth from h]
  simp only [functionHead, functionSignature, bind_apply, get, log, modify, hnested, ↓reduceIte]
  rfl

theorem function_of_inside (hin : c.Inside) (name : Named) (params : List Named)
    (body : Compilation → Compilation) :
    function name params body c = fail .nestedFunction name.span (c.log (.defining name.name)) := by
  rw [function_apply, functionHead_of_inside hin]
  rfl

/-- Inside of bodies, directives are reported. -/
theorem directive_compiles (env : Env) (name : Named) :
    Compiles env false (fun c => (directive name c).2) [] [] := by
  intro c σ ids hg hs hinside
  simp only [directive_of_inside (hinside.resolve_left (by decide))]
  exact ⟨[], .of_fail hs (.fail hg rfl _) rfl⟩

/-- Functions inside of bodies are reported. -/
theorem function_compiles (env : Env) (name : Named) (params : List Named)
    (body : Compilation → Compilation) :
    Compiles env false (fun c => (function name params body c).2) [] [] := by
  intro c σ ids hg hs hinside
  have hq : Quietly c ((some (), c.log (.defining name.name)) : Option Unit × Compilation) := .log hg _
  simp only [function_of_inside (hinside.resolve_left (by decide))]
  exact ⟨[], .after_quiet hq hs (.of_fail hs (.fail hq.good rfl _) rfl)⟩

end ScriptBlocks.Emit
