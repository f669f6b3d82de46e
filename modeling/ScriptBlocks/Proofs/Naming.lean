import ScriptBlocks.Proofs.Placing

/-!
# Variables of statements

Statements create variables and settle their types. No block changes, so a script stays in place;
what has been checked stays so as long as settled types do.
-/
namespace ScriptBlocks

/-- Two targets that differ at most in their variables and comments. -/
structure Target.Renamed (t t' : Target) : Prop where
  blocks : t'.blocks = t.blocks
  scopes : t'.scopes = t.scopes
  functions : t'.functions = t.functions
  name : t'.name = t.name
  entry : t'.entry = t.entry
  intact : t'.intact = t.intact
  drawn : t.drawn ≤ t'.drawn

namespace Target

variable {t t' : Target}

theorem variableNamed?_modifyVariable (t : Target) (x y : String) (f : Variable → Variable) :
    (t.modifyVariable x f).variableNamed? y =
      if x = y then (t.variableNamed? y).map f else t.variableNamed? y :=
  t.vars.get?_modify x y f

theorem builtVariable?_eq_some {x : String} {v : Variable} :
    t.builtVariable? x = some v ↔ t.variableNamed? x = some v ∧ v.built = true :=
  Option.filter_eq_some_iff

theorem Renamed.functionNamed? (h : t.Renamed t') (f : String) :
    t'.functionNamed? f = t.functionNamed? f := by
  rw [Target.functionNamed?, h.functions]
  rfl

theorem Renamed.proper (h : t.Renamed t') (hp : t.Proper)
    (hv : ∀ {x v}, t'.variableNamed? x = some v → v.name = x ∧ v.type ≠ .void ∧
      (v.built = true → v.type ≠ .unresolved)) : t'.Proper where
  intact := h.intact.trans hp.intact
  names hx := (hv hx).1
  values hx := (hv hx).2.1
  built hx := (hv hx).2.2
  procs hf := hp.procs (h.functionNamed? _ ▸ hf)
  arguments hf := hp.arguments (h.functionNamed? _ ▸ hf)
  results hf := hp.results (h.functionNamed? _ ▸ hf)

theorem Renamed.modifyVariable (t : Target) (x : String) (f : Variable → Variable) :
    t.Renamed (t.modifyVariable x f) :=
  ⟨rfl, rfl, rfl, rfl, rfl, rfl, Nat.le_refl _⟩

theorem Renamed.addComment (t : Target) (text : String) : t.Renamed (t.addComment text).2 :=
  ⟨rfl, rfl, rfl, rfl, rfl, rfl, Nat.le_succ _⟩

/-- What creating a variable does: an old one stays, a new one has no type. -/
theorem createVariable_cases (t : Target) (x : String) :
    (∃ v, t.variableNamed? x = some v ∧ t.createVariable x .unresolved = (v.ref, t)) ∨
    ∃ v t', t.variableNamed? x = none ∧ t.createVariable x .unresolved = (v.ref, t') ∧
      t.Renamed t' ∧ v.name = x ∧ v.type = .unresolved ∧ v.built = false ∧
      t'.variableNamed? x = some v ∧ ∀ y, y ≠ x → t'.variableNamed? y = t.variableNamed? y := by
  cases hx : t.variableNamed? x with
  | some v => exact .inl ⟨v, rfl, by simp only [createVariable, hx]⟩
  | none =>
    let v : Variable := ⟨x, t.name ++ "_" ++ t.freshId "var", .unresolved, false⟩
    exact .inr ⟨v, { t.draw with vars := t.vars.insert x v }, rfl, by simp only [createVariable, hx, v],
      ⟨rfl, rfl, rfl, rfl, rfl, rfl, Nat.le_succ _⟩, rfl, rfl, rfl, Table.get?_insert_self ..,
      fun y hy => Table.get?_insert_of_ne _ _ (Ne.symm hy)⟩

end Target

namespace Compilation

variable {σ : Script} {ids : List String} {O D P : String → Prop} {c : Compilation} {t : Target}
variable {x : String}

/-- A change of variables that keeps those that are there. -/
theorem Extended.of_renamed (hg : c.inference.Good) (hs : Sited c.target σ [] ids)
    (h : c.target.Renamed t) (hp : t.Proper)
    (hvars : ∀ {x v}, c.target.variableNamed? x = some v → ∃ v', t.variableNamed? x = some v' ∧
      v'.ref = v.ref ∧ (v.built = true → v'.built = true))
    (hapart : c.Apart → (c.setTarget t).Apart) : Extended σ ids [] O c (c.setTarget t) := by
  have hblock (y : String) : t.block? y = c.target.block? y := by
    rw [Target.block?, h.blocks]
    rfl
  refine .of_blocks hs ?_ ?_ ?_ ⟨?_, hg.signature, fun {s a p y} hf ha hy => ?_⟩ (.setTarget c t) ?_
    (.refl _) id hapart
  · rw [target_setTarget]
    exact h.blocks
  · rw [target_setTarget]
    exact h.scopes
  · rw [target_setTarget]
    exact h.drawn
  · rw [inference_setTarget]
    exact hp
  · obtain ⟨b, hb, hrest⟩ := hg.tracked hf ha hy
    exact ⟨b, by rw [inference_setTarget]; exact (hblock y).trans hb, hrest⟩
  · rw [target_setTarget]
    exact ⟨h.name, h.entry, h.functions, hvars⟩

/-- A new variable is not declared yet. -/
theorem Extended.createVariable (hg : c.inference.Good) (hs : Sited c.target σ [] ids)
    (x : String) :
    Extended σ ids [] O c (c.setTarget (c.target.createVariable x .unresolved).2) := by
  obtain ⟨v, hx, ht⟩ | ⟨v, t', hx, ht, hr, hname, htype, hbuilt, hv, hother⟩ :=
    c.target.createVariable_cases x
  · rw [ht, setTarget_target]
    exact .refl hg hs
  · rw [ht]
    have hold : ∀ {y w}, t'.variableNamed? y = some w →
        y = x ∧ w = v ∨ y ≠ x ∧ c.target.variableNamed? y = some w := by
      intro y w hy
      by_cases hyx : y = x
      · subst hyx
        exact .inl ⟨rfl, Option.mem_unique hy hv⟩
      · exact .inr ⟨hyx, hother y hyx ▸ hy⟩
    refine .of_renamed hg hs hr (hr.proper hg.tables fun {y w} hy => ?_) (fun {y w} hy => ?_)
      fun ha y w s hy hs => ?_
    · obtain ⟨rfl, rfl⟩ | ⟨-, hy⟩ := hold hy
      · exact ⟨hname, by simp [htype], by simp [hbuilt]⟩
      · exact ⟨hg.tables.names hy, hg.tables.values hy, hg.tables.built hy⟩
    · refine ⟨w, ?_, rfl, id⟩
      rw [hother y, hy]
      rintro rfl
      simp [hx] at hy
    · rw [target_setTarget, Target.builtVariable?_eq_some] at hy
      obtain ⟨rfl, rfl⟩ | ⟨-, hy'⟩ := hold hy.1
      · simp [hbuilt] at hy
      · exact ha y w s (Target.builtVariable?_eq_some.2 ⟨hy', hy.2⟩) hs

/-- Settling the type of a variable. Only a name that is no argument becomes declared. -/
theorem Extended.modifyVariable (hg : c.inference.Good) (hs : Sited c.target σ [] ids)
    {f : Variable → Variable} (href : ∀ v, (f v).ref = v.ref) (hvalue : ∀ v, (f v).type.IsValue)
    (hbuilt : ∀ v, v.built = true → (f v).built = true)
    (hargs : (∀ v, (f v).built = v.built) ∨ ∀ s, c.function = some s → x ∉ s.arguments.keys) :
    Extended σ ids [] O c (c.setTarget (c.target.modifyVariable x f)) := by
  have hold : ∀ {y w}, (c.target.modifyVariable x f).variableNamed? y = some w →
      ∃ v, c.target.variableNamed? y = some v ∧ (y = x ∧ w = f v ∨ y ≠ x ∧ w = v) := by
    intro y w hy
    rw [Target.variableNamed?_modifyVariable] at hy
    split at hy
    next h =>
      obtain ⟨v, hv, rfl⟩ := Option.map_eq_some_iff.1 hy
      exact ⟨v, hv, .inl ⟨h.symm, rfl⟩⟩
    next h => exact ⟨w, hy, .inr ⟨Ne.symm h, rfl⟩⟩
  have hr := Target.Renamed.modifyVariable c.target x f
  refine .of_renamed hg hs hr (hr.proper hg.tables fun {y w} hy => ?_) (fun {y w} hy => ?_)
    fun ha y w s hy hs => ?_
  · obtain ⟨v, hv, ⟨rfl, rfl⟩ | ⟨-, rfl⟩⟩ := hold hy
    · exact ⟨(congrArg VariableRef.name (href v) :).trans (hg.tables.names hv), (hvalue v).2,
        fun _ => (hvalue v).1⟩
    · exact ⟨hg.tables.names hv, hg.tables.values hv, hg.tables.built hv⟩
  · rw [Target.variableNamed?_modifyVariable, hy]
    split
    · exact ⟨f w, rfl, href w, hbuilt w⟩
    · exact ⟨w, rfl, rfl, id⟩
  · rw [target_setTarget, Target.builtVariable?_eq_some] at hy
    obtain ⟨v, hv, ⟨rfl, rfl⟩ | ⟨-, rfl⟩⟩ := hold hy.1
    · obtain hsame | hargs := hargs
      · exact ha y v s (Target.builtVariable?_eq_some.2 ⟨hv, hsame v ▸ hy.2⟩) hs
      · exact hargs s hs
    · exact ha y w s (Target.builtVariable?_eq_some.2 ⟨hv, hy.2⟩) hs

section

variable {v : Variable} {type : ValueType}

/-- Comments have no types. -/
theorem Checked.addComment (hc : c.Checked D P) (hg : c.inference.Good) (text : String) :
    (c.setTarget (c.target.addComment text).2).Checked D P := by
  refine hc.rename hg.tables ?_ ?_ ?_ ?_ (hc.named_later ?_ ?_ (fun s hs => ⟨s, hs, rfl⟩) ?_) ?_
  all_goals rw [target_setTarget]
  · rfl
  · rfl
  · exact ⟨fun hx _ => ⟨_, hx, rfl, rfl⟩, id⟩
  · exact hc.unbuilt
  · rfl
  · rfl
  · exact fun x v hx => .inl ⟨v, hx⟩
  · exact fun s hs => (hc.result s hs).later (fun _ _ => rfl) rfl rfl rfl rfl

/-- A variable that is to be declared. -/
theorem Checked.createVariable (hc : c.Checked D P) (hg : c.inference.Good) (hx : D x) :
    (c.setTarget (c.target.createVariable x .unresolved).2).Checked D P := by
  obtain ⟨v, hv, ht⟩ | ⟨v, t', hnone, ht, hr, hname, htype, hbuilt, hv, hother⟩ :=
    c.target.createVariable_cases x
  · rw [ht, setTarget_target]
    exact hc
  · rw [ht]
    refine hc.rename hg.tables ?_ ?_ ?_ ?_ (hc.named_later ?_ ?_ (fun s hs => ⟨s, hs, rfl⟩) ?_) ?_
    all_goals rw [target_setTarget]
    · exact hr.blocks
    · exact hr.functions
    · refine ⟨fun {y w} hy _ => ⟨w, ?_, rfl, rfl⟩, fun hf => (hr.functionNamed? _).trans hf⟩
      rw [hother y (ne_of_found hnone hy).symm, hy]
    · intro y w hD hy hb
      by_cases hyx : y = x
      · subst hyx
        obtain rfl := Option.mem_unique hy hv
        exact htype
      · exact hc.unbuilt y w hD (hother y hyx ▸ hy) hb
    · exact hr.name
    · exact hr.functions
    · intro y w hy
      by_cases hyx : y = x
      · exact .inr (.inl (hyx ▸ hx))
      · exact .inl ⟨w, hother y hyx ▸ hy⟩
    · refine fun s hs => (hc.result s hs).later (fun y hy => hother y ?_) hr.name rfl rfl rfl
      rintro rfl
      exact hy hx

/-- Creating a variable on the way to its declaration. -/
theorem Compiled.createVariable {env : Env} (hg : c.inference.Good) (hs : Sited c.target σ [] ids)
    (x : String) :
    Compiled env σ ids [] [] [x] c (c.setTarget (c.target.createVariable x .unresolved).2) :=
  ⟨.createVariable hg hs x, fun _ _ => .nil, fun _ _ hD hc => hc.createVariable hg (hD x (by simp)),
    fun _ => id⟩

/-- A variable that is not declared yet has no type that could change. -/
theorem Checked.grows_modifyVariable (hc : c.Checked D P) (hx : D x)
    (hnone : c.target.builtVariable? x = none) (f : Variable → Variable) :
    c.target.Grows (c.target.modifyVariable x f) := by
  refine ⟨fun {y w} hy hne => ⟨w, ?_, rfl, rfl⟩, id⟩
  rw [Target.variableNamed?_modifyVariable, if_neg, hy]
  rintro rfl
  cases hb : w.built with
  | true => simp [Target.builtVariable?_eq_some.2 ⟨hy, hb⟩] at hnone
  | false => exact hne (hc.unbuilt _ w hx hy hb)

/-- A declaration settles the type of a variable that had none. -/
theorem Checked.declare (hc : c.Checked D P) (hg : c.inference.Good) (hx : D x)
    (hnone : c.target.builtVariable? x = none) :
    (c.setTarget (c.target.modifyVariable x ({ · with type, built := true }))).Checked D P := by
  have hlookup (y : String) :=
    c.target.variableNamed?_modifyVariable x y ({ · with type, built := true })
  have hother : ∀ y, y ≠ x → (c.target.modifyVariable x ({ · with type, built := true })).variableNamed?
      y = c.target.variableNamed? y := fun y hy => by rw [hlookup, if_neg (Ne.symm hy)]
  have hself : ∀ {w}, (c.target.modifyVariable x ({ · with type, built := true })).variableNamed? x =
      some w → w.built = true := by
    intro w hw
    rw [hlookup, if_pos rfl] at hw
    obtain ⟨v, -, rfl⟩ := Option.map_eq_some_iff.1 hw
    rfl
  refine hc.rename hg.tables ?_ ?_ ?_ ?_ (hc.named_later ?_ ?_ (fun s hs => ⟨s, hs, rfl⟩) ?_) ?_
  all_goals rw [target_setTarget]
  · rfl
  · rfl
  · exact hc.grows_modifyVariable hx hnone _
  · intro y w hD hy hb
    by_cases hyx : y = x
    · subst hyx
      simp [hself hy] at hb
    · exact hc.unbuilt y w hD (hother y hyx ▸ hy) hb
  · rfl
  · rfl
  · intro y w hy
    by_cases hyx : y = x
    · exact .inr (.inl (hyx ▸ hx))
    · exact .inl ⟨w, hother y hyx ▸ hy⟩
  · refine fun s hs => (hc.result s hs).later (fun y hy => hother y ?_) rfl rfl rfl rfl
    rintro rfl
    exact hy hx

end

end Compilation
end ScriptBlocks
