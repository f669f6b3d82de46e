import ScriptBlocks.Proofs.Statements
import ScriptBlocks.Proofs.Visits

/-!
# Results of functions

A `return` stores its value in the return variable of the function and stops the script. The first
one makes the variable and settles its type together with the type of the result.
-/
namespace ScriptBlocks

/-- What is known about the result does not concern the arguments. -/
theorem Signature.Follows.result (s : Signature) (type : ValueType) (ref : Option VariableRef) :
    s.Follows { s with returnType := type, returnVariable := ref } :=
  ⟨rfl, rfl, rfl, rfl, rfl, fun h => ⟨_, h, fun _ => rfl, fun _ => id⟩⟩

namespace Compilation

variable {σ : Script} {ids : List String} {O D P : String → Prop} {c : Compilation}
variable {s : Signature} {type : ValueType}

/-- A change of what is known about the result of the function being compiled. -/
theorem Extended.modifyResult (hg : c.inference.Good) (hs : Sited c.target σ [] ids)
    (hf : c.function = some s) {result : Option VariableRef} (hvoid : type ≠ .void)
    (htype : s.returnType ≠ .unresolved → type = s.returnType)
    (hvar : ∀ ref, s.returnVariable = some ref → result = some ref)
    (hmade : type ≠ .unresolved → s.returnType ≠ .unresolved ∨ result ≠ none) :
    Extended σ ids [] O c
      { c with function := some { s with returnType := type, returnVariable := result } } := by
  have hproper := hg.signature hf
  refine .of_blocks hs rfl rfl (Nat.le_refl _) ⟨hg.tables, ?_, ?_⟩ (.setFunction c _) (.of_tables rfl)
    ?_ ?_ fun ha x v s₁ hx hs₁ => ?_
  · rintro _ ⟨⟩
    exact ⟨hproper.ids, hproper.params, hvoid⟩
  · rintro _ a p x ⟨⟩ ha hx
    exact hg.tracked hf ha hx
  · rw [hf]
    exact .some ⟨.result s type result, htype, hvar, hmade⟩
  · rintro x ⟨a, _, p, ⟨⟩, ha, hx⟩
    exact ⟨a, s, p, hf, ha, hx⟩
  · cases hs₁
    exact ha x v s hx hf

/-- The return variable is made without a type. -/
theorem Checked.makeResult (hc : c.Checked D P) (hg : c.inference.Good) (hf : c.function = some s)
    (hnone : s.returnVariable = none) {r : VariableRef × Target}
    (hr : c.target.createVariable (Procedure.returnVariableName s.name c.target.name) .unresolved = r) :
    ({ c.setTarget r.2 with function := some { s with returnVariable := some r.1 } }).Checked D P := by
  obtain ⟨htype, hfresh⟩ := (hc.result s hf).fresh hnone
  have hD := (hc.result s hf).name
  obtain ⟨v, hv, -⟩ | ⟨v, t', -, ht, hren, hname, hunresolved, hbuilt, hv, hother⟩ :=
    c.target.createVariable_cases (Procedure.returnVariableName s.name c.target.name)
  · simp [hfresh] at hv
  · obtain rfl : (v.ref, t') = r := ht.symm.trans hr
    have htarget : ({ c.setTarget t' with
      function := some { s with returnVariable := some v.ref } }).target = t' := c.target_setTarget t'
    refine hc.rename hg.tables ?_ ?_ ?_ ?_
      (hc.named_later ?_ ?_ (fun s₁ hs₁ => ⟨_, rfl, ?_⟩) ?_) ?_
    rotate_left 6
    · obtain rfl := Option.mem_unique hf hs₁
      rfl
    rotate_left 2
    all_goals rw [htarget]
    · exact hren.blocks
    · exact hren.functions
    · refine ⟨fun {y w} hy _ => ⟨w, ?_, rfl, rfl⟩, fun hf => (hren.functionNamed? _).trans hf⟩
      rw [hother y (ne_of_found hfresh hy).symm, hy]
    · intro y w hy hw hb
      refine hc.unbuilt y w hy ?_ hb
      rw [← hw, hother]
      rintro rfl
      exact hD hy
    · exact hren.name
    · exact hren.functions
    · intro y w hy
      by_cases hyx : y = Procedure.returnVariableName s.name c.target.name
      · refine .inr (.inr ⟨s.name, ?_, .inr ⟨_, rfl, rfl⟩⟩)
        rw [htarget, hren.name, hyx]
      · exact .inl ⟨w, hother y hyx ▸ hy⟩
    · rintro _ ⟨⟩
      refine ⟨by rw [hren.name]; exact hD, ?_, by simp⟩
      rintro _ ⟨⟩
      exact ⟨v, by rw [hren.name]; exact hv, rfl, hunresolved.trans htype.symm⟩

/-- The type of the result is that of the return variable. -/
theorem Checked.settleResult (hc : c.Checked D P) (hg : c.inference.Good) (hf : c.function = some s)
    {ref : VariableRef} (hvar : s.returnVariable = some ref)
    (htype : s.returnType ≠ .unresolved → type = s.returnType) {c' : Compilation}
    (htarget : c'.target = c.target.modifyVariable ref.name ({ · with type }))
    (hf' : c'.function = some { s with returnType := type }) :
    c'.Checked D P ∧ c.target.Grows c'.target ∧
      ∃ w, c'.target.variableNamed? ref.name = some w ∧ w.ref = ref ∧ w.type = type := by
  obtain ⟨v, hv, href, hvtype⟩ := (hc.result s hf).made hvar
  have hD := (hc.result s hf).name
  have hname : ref.name = Procedure.returnVariableName s.name c.target.name := by
    rw [← href]
    exact hg.tables.names hv
  have hlookup (y : String) := c.target.variableNamed?_modifyVariable ref.name y ({ · with type })
  have hother : ∀ y, y ≠ ref.name →
      (c.target.modifyVariable ref.name ({ · with type })).variableNamed? y =
        c.target.variableNamed? y := fun y hy => by rw [hlookup, if_neg (Ne.symm hy)]
  have hself : (c.target.modifyVariable ref.name ({ · with type })).variableNamed? ref.name =
      some { v with type } := by
    rw [hlookup, if_pos rfl, hname, hv]
    rfl
  have hgrows : c.target.Grows c'.target := by
    rw [htarget]
    refine ⟨fun {y w} hy hw => ?_, id⟩
    by_cases hyx : y = ref.name
    · subst hyx
      obtain rfl := Option.mem_unique hy (hname ▸ hv)
      exact ⟨_, hself, rfl, (htype (hvtype ▸ hw)).trans hvtype.symm⟩
    · exact ⟨w, (hother y hyx).trans hy, rfl, rfl⟩
  have hnames : ∀ s₁, c.function = some s₁ → ∃ s', c'.function = some s' ∧ s'.name = s₁.name := by
    intro s₁ hs₁
    obtain rfl := Option.mem_unique hf hs₁
    exact ⟨_, hf', rfl⟩
  refine ⟨hc.rename hg.tables ?_ ?_ hgrows ?_ (hc.named_later ?_ ?_ hnames ?_) ?_, hgrows,
    { v with type }, ?_, href, rfl⟩
  all_goals rw [htarget]
  · rfl
  · rfl
  · intro y w hy hw hb
    refine hc.unbuilt y w hy ?_ hb
    rw [← hw, hother]
    rintro rfl
    exact hD (hname ▸ hy)
  · rfl
  · rfl
  · intro y w hy
    by_cases hyx : y = ref.name
    · exact .inl ⟨v, by rw [hyx, hname, hv]⟩
    · exact .inl ⟨w, hother y hyx ▸ hy⟩
  · rw [hf']
    rintro _ ⟨⟩
    refine ⟨hD, ?_, by simp [hvar]⟩
    intro r hr
    obtain rfl := Option.mem_unique hvar hr
    exact ⟨{ v with type }, hname ▸ hself, href, rfl⟩
  · exact hself

end Compilation

namespace Emit

open Compilation

variable {env : Env} {c : Compilation} {σ : Script} {ids : List String} {s : Signature}
variable {content : Content} {calls : List Tree} {value : Part}

theorem resultType_quietly (hg : c.inference.Good) {type : ValueType} (ht : type ≠ .void)
    (f : String) (span : Span) :
    ∃ type' c', resultType f span type c = (some type', c') ∧
      Quietly c ((some type', c') : Option ValueType × Compilation) ∧ type' ≠ .unresolved ∧
      type' ≠ .void := by
  have hreport := Quietly.report hg (.untypedResult f) span
  unfold resultType
  split
  · exact ⟨.string, _, rfl, hreport.trans (.pure hreport.good _), by decide, by decide⟩
  · contradiction
  · exact ⟨type, c, rfl, .pure hg _, by assumption, by assumption⟩

/-- The value of a `return` has the type of the result, which the first one settles. -/
theorem settleResult_cases (hg : c.inference.Good) (hf : c.function = some s) {operand : Operand}
    (hk : c.inference.Known operand) (f : String) (span : Span) :
    (∃ c', settleResult f operand span c = (none, c') ∧
      Quietly c ((none, c') : Option Unit × Compilation)) ∨
    ∃ type c' s', settleResult f operand span c =
        (some type, { c' with function := some { s' with returnType := type } }) ∧
      Quietly c ((some (), c') : Option Unit × Compilation) ∧ c'.function = some s' ∧
      s.Follows s' ∧ s'.returnVariable = s.returnVariable ∧ type ≠ .unresolved ∧ type ≠ .void ∧
      c'.inference.Has operand type ∧ (s'.returnType ≠ .unresolved → type = s'.returnType) := by
  by_cases hdeclared : s.returnType = .unresolved
  · obtain ⟨type, c₁, h₁, hq₁, hne, hvoid⟩ := resultType_quietly hg (hg.expected_ne_void hk) f span
    have hrun : settleResult f operand span c = (do
        expectType type [operand] span
        modify fun c => { c with function := c.function.map ({ · with returnType := type }) }
        pure type : Emit ValueType) c₁ := by
      simp only [settleResult, bind_apply, get, hf, Option.map_some, Option.getD_some, hdeclared, ne_eq,
        not_true_eq_false, ↓reduceIte, expectedType, h₁]
    rw [hrun]
    obtain ⟨c₂, h₂, hq₂⟩ | ⟨c₂, h₂, hq₂, hhas⟩ := expectType_cases hq₁.good ⟨hne, hvoid⟩ [operand] span
    · exact .inl ⟨c₂, by simp only [bind_apply, h₂], hq₁.trans hq₂⟩
    · have hq : Quietly c ((some (), c₂) : Option Unit × Compilation) := hq₁.trans hq₂
      obtain ⟨s', hs', hfollows, htype, hvar⟩ := hq.quiet.function.exists_later hf
      refine .inr ⟨type, c₂, s', ?_, hq, hs', hfollows, hvar, hne, hvoid,
        hhas operand (by simp) (hq₁.quiet.known hk), fun h => absurd (htype.trans hdeclared) h⟩
      simp only [bind_apply, h₂, modify, pure_apply, show c₂.function = some s' from hs', Option.map_some]
  · have hvoid := (hg.signature hf).result
    have hrun : settleResult f operand span c = (do
        expectType s.returnType [operand] span
        pure s.returnType : Emit ValueType) c := by
      simp only [settleResult, bind_apply, get, hf, Option.map_some, Option.getD_some, hdeclared, ne_eq,
        not_false_eq_true, ↓reduceIte]
    rw [hrun]
    obtain ⟨c₂, h₂, hq⟩ | ⟨c₂, h₂, hq, hhas⟩ := expectType_cases hg ⟨hdeclared, hvoid⟩ [operand] span
    · exact .inl ⟨c₂, by simp only [bind_apply, h₂], hq⟩
    · obtain ⟨s', hs', hfollows, htype, hvar⟩ := hq.quiet.function.exists_later hf
      refine .inr ⟨s.returnType, c₂, s', ?_, hq, hs', hfollows, hvar, hdeclared, hvoid,
        hhas operand (by simp) hk, fun _ => htype.symm⟩
      simp only [bind_apply, h₂, pure_apply]
      rw [← htype, ← hs']
      rfl

/-- The return variable of the function being compiled, once it is known. -/
theorem returnVariable_extended (hg : c.inference.Good) (hs : Sited c.target σ [] ids)
    (hf : c.function = some s) :
    ∃ ref c' s', returnVariable s c = (some ref, c') ∧ c'.function = some s' ∧ s'.name = s.name ∧
      s'.returnVariable = some ref ∧ Extended σ ids [] (fun _ => False) c c' ∧
      ∀ D : String → Prop, c.Checked D (fun _ => False) → c'.Checked D fun _ => False := by
  cases hvar : s.returnVariable with
  | some ref =>
    exact ⟨ref, c, s, by simp only [returnVariable, hvar]; rfl, hf, rfl, hvar, .refl hg hs,
      fun _ => id⟩
  | none =>
    generalize hr : c.target.createVariable (Procedure.returnVariableName s.name c.target.name)
      .unresolved = r
    have hcreate : Extended σ ids [] (fun _ => False) c (c.setTarget r.2) := by
      rw [← hr]
      exact .createVariable hg hs _
    have hresult : Extended σ (ids ++ []) [] (fun _ => False) (c.setTarget r.2)
        { c.setTarget r.2 with function := some { s with returnVariable := some r.1 } } :=
      .modifyResult hcreate.runs.good hcreate.runs.sited hf (hg.signature hf).result (fun _ => rfl)
        (by simp [hvar]) .inl
    refine ⟨r.1, { c.setTarget r.2 with function := some { s with returnVariable := some r.1 } },
      { s with returnVariable := some r.1 }, ?_, rfl, rfl, rfl,
      hcreate.trans hresult fun _ _ _ hx => hx.elim id id,
      fun D hc => hc.makeResult hg hf hvar hr⟩
    simp only [returnVariable, hvar, bind_apply, target, onTarget, hr, modify, pure_apply,
      function_setTarget, hf, Option.map_some]

/-- A `return` ends its script. -/
theorem stop_compiled (env : Env) (hg : c.inference.Good) (hs : Sited c.target σ [] ids) :
    ∃ n c', place (fun id => .stop id "this script") c = (some n, c') ∧
      Compiled env σ ids [n] [.stop] [] c c' := by
  obtain ⟨n, c', hplace, hp⟩ := place_next (Shape.stop "this script") hg hs
  obtain ⟨b, hb, hface, hin⟩ := hp.block
  have hruns : Runs σ (ids ++ [n]) (ids ++ [n]) [] (· = n) c' c' :=
    (Quietly.pure hp.runs.good ()).runs hp.runs.sited
  have hlaid : Laid env (.stop n "this script") [] [] [] σ ids [] n [] (· = n) c c' :=
    hp.laid (by simpa using hruns) (.refl c') hb (by rw [Block.slots, hin]; rfl)
      ⟨by simp, fun _ => .nil, fun _ => .nil⟩ (.refl _ c') rfl
  obtain ⟨b', hb', hface', hslots⟩ := hlaid.block
  have htrees : env.Covers c'.inference → [Tree.stop] = [] ++ [Tree.stop] := fun _ => rfl
  refine ⟨n, c', hplace, hlaid.compiled hs (.refl hp.runs.good hlaid.runs.sited) htrees
    (fun _ => ?_) (fun D _ _ hc => hc.close ?_) id⟩
  · refine (Shape.stop "this script").tree_at hb' hface' ?_
    rw [hslots]
    trivial
  · rintro x bx rfl hx
    obtain rfl := Option.mem_unique hx hb'
    simp [Block.WellTyped, show bx.opcode = .stop from Block.opcode_of_face hface' rfl]

theorem yieldInto_compiled {ref : VariableRef}
    (hF : Fills env value.operand (fun v => [v]) [content] calls) (hg : c.inference.Good)
    (hs : Sited c.target σ [] ids) (hf : c.function = some s) (hvar : s.returnVariable = some ref) :
    ∃ new, Compiled env σ ids new
        (calls ++ [env.setResult content, .stop]) [] c
        (yieldInto s.name ref value c).2 ∧
      ((yieldInto s.name ref value c).2.project.success = true →
        (yieldInto s.name ref value c).2.ResultSettled) := by
  let K (_ : String) (operand : Operand) : Emit Unit := storeResult s.name ref operand value.span
  have hshape : Shape (Block.setVariable · ref .empty) 0 (["VALUE"] ++ []) .setVariable
    [("VARIABLE", ⟨ref.name, some ref.id⟩)] none := .setVariable ref
  obtain ⟨n, cs, c₁, he₁, ⟨hloud, hrun⟩ | ⟨v, hrun, hlaid⟩⟩ :=
    place_within (K := K) hshape hF rfl hg hs
  · have hrun : yieldInto s.name ref value c = (none, c₁) := hrun
    rw [hrun]
    exact ⟨_, .failed he₁ hloud, by simp [hloud]⟩
  have hrun : yieldInto s.name ref value c = K n v c₁ := hrun
  rw [hrun]
  obtain ⟨s₁, hf₁, -, -, hvar₁⟩ := hlaid.calm.function.exists_later hf
  have hknown := hlaid.yields.known v (by simp)
  obtain ⟨c₂, h₂, hq₂⟩ | ⟨type, c₂, s₂, h₂, hq₂, hf₂, -, hvar₂, hne, hvoid, hhas, htype⟩ :=
    settleResult_cases hlaid.runs.good hf₁ hknown s.name value.span
  · have hK : K n v c₁ = (none, c₂) := by simp only [K, storeResult, bind_apply, h₂]
    rw [hK]
    have hloud : c₂.project.success = false := hq₂.loud rfl
    exact ⟨_, .failed (hlaid.quiet hq₂).extended hloud, by simp [hloud]⟩
  have hlaid₂ := hlaid.quiet hq₂
  rw [setVariable_slots] at hlaid₂
  have hresult : s₂.returnVariable = some ref := hvar₂.trans (hvar₁.trans hvar)
  let c₃ := { c₂ with function := some { s₂ with returnType := type } }
  let c₄ := c₃.setTarget (c₃.target.modifyVariable ref.name ({ · with type }))
  have he₃ : Extended σ (ids ++ (cs ++ [n])) [] (fun _ => False) c₂ c₃ :=
    .modifyResult hq₂.good hlaid₂.runs.sited hf₂ hvoid htype (fun _ => id) fun _ => .inr (by simp [hresult])
  have he₄ : Extended σ (ids ++ (cs ++ [n]) ++ []) [] (fun _ => False) c₃ c₄ :=
    .modifyVariable he₃.runs.good he₃.runs.sited (fun _ => rfl) (fun _ => ⟨hne, hvoid⟩) (fun _ => id)
      (.inl fun _ => rfl)
  have hsettled : c₄.ResultSettled := by
    rintro _ ⟨⟩ -
    exact hne
  have hset : Compiled env σ ids (cs ++ [n])
      (calls ++ [env.setResult content]) [] c c₄ := by
    refine hlaid₂.set_compiled hs (he₃.trans he₄ fun _ _ _ hx => hx.elim id id) (fun hcov => ?_)
      (fun D _ _ hc => ?_) fun _ => hsettled
    · rw [Env.setResult, hcov.result rfl hresult]
      rfl
    · obtain ⟨hc₄, hgrows, w, hw, href, rfl⟩ := hc.settleResult hq₂.good hf₂ hresult htype
        (c₃.target_setTarget _) rfl
      exact ⟨hgrows, hc₄, w, hw, href, hne, hhas⟩
  obtain ⟨m, c₅, h₅, hstop⟩ := stop_compiled env hset.extended.runs.good
    hset.extended.runs.sited
  have hK : K n v c₁ = (some (), c₅) := by
    have hrest : (place (fun id => .stop id "this script") >>= fun _ => (pure () : Emit Unit)) c₄ =
        (some (), c₅) := (bind_of_eq h₅).trans rfl
    rw [← hrest]
    exact (bind_of_eq h₂).trans rfl
  rw [hK]
  have hall := hset.trans hs hstop
  rw [List.append_assoc calls] at hall
  exact ⟨_, hall, fun hsuccess => hstop.settled hsuccess hsettled⟩

theorem yield_compiles {plain : Bool} (hF : Fills env value.operand (fun v => [v]) [content] calls)
    (span : Span) :
    Compiles env plain (fun c => (yield span value c).2)
      (calls ++ [env.setResult content, .stop]) [] := by
  intro c σ ids hg hs _
  cases hf : c.function with
  | none =>
    have hfail : yield span value c = fail .strayReturn span c := by
      simp only [yield, bind_apply, get, hf]
    simp only [hfail]
    exact ⟨[], .of_fail hs (.fail hg rfl _) rfl⟩
  | some s =>
    have hq : Quietly c ((some (), c.log (.returning s.name)) : Option Unit × Compilation) := .log hg _
    have hs₁ : Sited (c.log (.returning s.name)).target σ [] ids := hs
    obtain ⟨ref, c₁, s₁, h₁, hf₁, hname, hvar, he₁, hc₁⟩ := returnVariable_extended hq.good hs₁ hf
    simp only [yield_apply hf, bind_of_eq h₁]
    have hs₂ := he₁.runs.sited
    rw [List.append_nil] at hs₂
    obtain ⟨new, hc, hsettled⟩ := yieldInto_compiled hF he₁.runs.good hs₂ hf₁ hvar
    rw [hname] at hc hsettled
    exact ⟨new, .after_quiet hq hs (.after_names he₁ hs₁ hc₁ hc hsettled)⟩

end Emit
end ScriptBlocks
