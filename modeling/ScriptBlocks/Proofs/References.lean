import ScriptBlocks.Project.Json
import ScriptBlocks.Proofs.Contents
import ScriptBlocks.Proofs.Hoisting

/-!
# References

Blocks refer to variables by name and id, and calls refer to a procedure by the texts of its
signature. Ids are unique in a target, every reference to a variable is to one of the target, and a
call has the signature of exactly one prototype.
-/
namespace ScriptBlocks

variable {label f : String} {p : Procedure} {fields : List (String × Json)}

/-! ### Ids -/

namespace Target

theorem idText_toList (label : String) (n : Nat) :
    (idText label n).toList = label.toList ++ '_' :: Nat.toDigits 10 n := by
  rw [idText, String.toList_append, String.toList_append, List.append_assoc]
  congr 1
  exact congrArg ('_' :: ·) Nat.toList_repr

/-- Ids with different labels differ. -/
theorem idText_ne {label' : String} (h : '_' ∉ label.toList) (h' : label ≠ label') (n m : Nat) :
    idText label n ≠ idText label' m := by
  intro heq
  have hl := congrArg String.toList heq
  rw [idText_toList, idText_toList,
    List.append_cons_inj_of_notMem h Nat.underscore_not_in_toDigits] at hl
  exact h' (String.toList_injective hl.1)

theorem variableId_eq (name : String) (n : Nat) :
    variableId name n = idText (name ++ "_var") n := by
  simp only [variableId, idText, String.append_assoc]
  rfl

theorem variableId_injective {name : String} {n m : Nat}
    (h : variableId name n = variableId name m) : n = m := by
  rw [variableId_eq, variableId_eq] at h
  exact idText_injective h

/-- The id of a variable has an underscore more. -/
theorem idText_ne_variableId (h : '_' ∉ label.toList) (name : String) (n m : Nat) :
    idText label n ≠ variableId name m := by
  rw [variableId_eq]
  refine idText_ne h ?_ n m
  rintro rfl
  simp at h

/-- All ids that have been given out in a target. -/
def ids (t : Target) : List String :=
  t.blocks.keys ++ t.comments.keys ++ t.vars.values.map Variable.id ++
    t.functions.values.flatMap fun p => p.arguments.values.map Argument.id

theorem Numbered.arguments_nodup {t : Target} (h : t.Numbered) :
    (t.functions.values.flatMap fun p => p.arguments.values.map Argument.id).Nodup := by
  obtain ⟨ns, hnodup, -, heq⟩ := h.arguments
  rw [heq]
  exact hnodup.map fun _ _ hne => idText_injective hne

/-- The arguments of a function have different ids. -/
theorem Numbered.slotNames_nodup {t : Target} (h : t.Numbered) (hp : t.functionNamed? f = some p) :
    p.slotNames.Nodup :=
  (List.nodup_flatMap.1 h.arguments_nodup).1 p
    (List.mem_map.2 ⟨(f, p), Table.get?_eq_some_iff.1 hp, rfl⟩)

theorem Numbered.vars_nodup {t : Target} (h : t.Numbered) :
    (t.vars.values.map Variable.id).Nodup := by
  obtain ⟨ns, hnodup, -, heq⟩ := h.vars
  rw [heq]
  exact hnodup.map fun _ _ hne => variableId_injective hne

theorem Numbered.ids_nodup {t : Target} (h : t.Numbered) : t.ids.Nodup := by
  have hvar : ∀ x ∈ t.vars.values.map Variable.id, ∃ n, x = variableId t.name n := by
    obtain ⟨ns, -, -, heq⟩ := h.vars
    rw [heq]
    intro x hx
    obtain ⟨n, -, rfl⟩ := List.mem_map.1 hx
    exact ⟨n, rfl⟩
  have hargument : ∀ x ∈ t.functions.values.flatMap fun p => p.arguments.values.map Argument.id,
      ∃ n, x = idText "argument" n := by
    obtain ⟨ns, -, -, heq⟩ := h.arguments
    rw [heq]
    intro x hx
    obtain ⟨n, -, rfl⟩ := List.mem_map.1 hx
    exact ⟨n, rfl⟩
  refine List.nodup_append.2 ⟨List.nodup_append.2 ⟨List.nodup_append.2 ⟨t.blocks.nodup,
    t.comments.nodup, ?_⟩, h.vars_nodup, ?_⟩, h.arguments_nodup, ?_⟩
  · intro x hx y hy
    obtain ⟨n, rfl⟩ := h.blocks x hx
    obtain ⟨m, rfl⟩ := h.comments y hy
    exact idText_ne (by decide) (by decide) n m
  · intro x hx y hy
    obtain ⟨m, rfl⟩ := hvar y hy
    obtain hx | hx := List.mem_append.1 hx
    · obtain ⟨n, rfl⟩ := h.blocks x hx
      exact idText_ne_variableId (by decide) t.name n m
    · obtain ⟨n, rfl⟩ := h.comments x hx
      exact idText_ne_variableId (by decide) t.name n m
  · intro x hx y hy
    obtain ⟨m, rfl⟩ := hargument y hy
    obtain hx | hx := List.mem_append.1 hx
    · obtain hx | hx := List.mem_append.1 hx
      · obtain ⟨n, rfl⟩ := h.blocks x hx
        exact idText_ne (by decide) (by decide) n m
      · obtain ⟨n, rfl⟩ := h.comments x hx
        exact idText_ne (by decide) (by decide) n m
    · obtain ⟨n, rfl⟩ := hvar x hx
      exact (idText_ne_variableId (by decide) t.name m n).symm

end Target

/-! ### Variables in a document -/

namespace Json

/-- The field of an object. -/
def field? (key : String) : Json → Option Json
  | .object fields => fields.lookup key
  | _ => none

theorem lookup_insertField (key other : String) (value : Json) (fields : List (String × Json)) :
    (insertField key value fields).lookup other =
      if other = key then some value else fields.lookup other := by
  have hcons : ∀ (k : String) (v : Json) (rest : List (String × Json)),
      List.lookup other ((k, v) :: rest) = if other = k then some v else rest.lookup other := by
    intro k v rest
    by_cases h : other = k
    · simp [h]
    · simp [List.lookup_cons, h, beq_false_of_ne h]
  induction fields with
  | nil => exact hcons key value []
  | cons e fields ih =>
    obtain ⟨k, v⟩ := e
    simp only [insertField]
    split
    · exact hcons key value _
    · split
      next hk =>
        subst hk
        rw [hcons, hcons]
        split <;> rfl
      next hk =>
        rw [hcons, hcons, ih]
        by_cases ho : other = key
        · rw [if_pos ho, if_neg (ho ▸ hk), if_pos ho]
        · rw [if_neg ho, if_neg ho]

/-- Of the fields with one key the last counts. -/
theorem field?_record (fields rest : List (String × Json)) (key : String) (value : Json)
    (h : key ∉ rest.map (·.1)) :
    (record (fields ++ (key, value) :: rest)).field? key = some value := by
  have hrest : ∀ sorted : List (String × Json), sorted.lookup key = some value →
      (rest.foldl (fun sorted field => insertField field.1 field.2 sorted) sorted).lookup key =
        some value := by
    induction rest with
    | nil => exact fun _ hsorted => hsorted
    | cons e rest ih =>
      simp only [List.map_cons, List.mem_cons, not_or] at h
      intro sorted hsorted
      refine ih h.2 _ ?_
      rw [lookup_insertField, if_neg h.1, hsorted]
  rw [record, field?, List.foldl_append, List.foldl_cons]
  refine hrest _ ?_
  rw [lookup_insertField, if_pos rfl]

theorem insertField_perm {key : String} (value : Json) (h : key ∉ fields.map (·.1)) :
    (insertField key value fields).Perm ((key, value) :: fields) := by
  induction fields with
  | nil => exact .refl _
  | cons e fields ih =>
    obtain ⟨k, v⟩ := e
    simp only [List.map_cons, List.mem_cons, not_or] at h
    simp only [insertField]
    split
    · exact .refl _
    · rw [if_neg h.1]
      exact ((ih h.2).cons _).trans (.swap _ _ _)

/-- Fields with different keys are all kept. -/
theorem record_perm (h : (fields.map (·.1)).Nodup) :
    ∃ sorted, record fields = .object sorted ∧ sorted.Perm fields := by
  have hfold : ∀ sorted : List (String × Json), ((sorted ++ fields).map (·.1)).Nodup →
      (fields.foldl (fun sorted field => insertField field.1 field.2 sorted) sorted).Perm
        (sorted ++ fields) := by
    induction fields with
    | nil =>
      intro sorted _
      rw [List.append_nil]
      exact .refl _
    | cons e fields ih =>
      intro sorted hsorted
      obtain ⟨key, value⟩ := e
      have hmiddle : (sorted ++ (key, value) :: fields).Perm ((key, value) :: (sorted ++ fields)) :=
        List.perm_middle
      have hnodup := (hmiddle.map (·.1)).nodup_iff.1 hsorted
      have hkey : key ∉ sorted.map (·.1) := fun hm => by
        rw [List.map_cons, List.nodup_cons, List.map_append, List.mem_append] at hnodup
        exact hnodup.1 (.inl hm)
      have hinsert := (insertField_perm value hkey).append_right fields
      refine ((ih (List.nodup_cons.1 h).2 _ ?_).trans hinsert).trans hmiddle.symm
      exact (hinsert.map (·.1)).nodup_iff.2 hnodup
  exact ⟨_, rfl, hfold [] h⟩

end Json

namespace Target

/-- The fields of a document that describe the variables of a target. -/
def variableFields (t : Target) : List (String × Json) :=
  t.vars.values.map fun v => (v.id, .array [.string v.name, v.type.initialValue])

theorem toJson_variables (t : Target) :
    t.toJson.field? "variables" = some (.record t.variableFields) := by
  refine Json.field?_record [_, _] _ "variables" (.record t.variableFields) ?_
  cases t.isStage <;> simp [stageFields, spriteFields]

end Target

/-! ### Variables -/

theorem forall₂_zipWith {α β γ : Type} {R : α → β → Prop} (g : α → β → γ) {as : List α}
    {bs : List β} (h : List.Forall₂ R as bs) :
    List.Forall₂ (fun a c => ∃ b, c = g a b ∧ R a b) as (List.zipWith g as bs) := by
  induction h with
  | nil => exact .nil
  | cons hab _ ih => exact .cons ⟨_, rfl, hab⟩ ih

/-- A prototype has a slot for each argument. -/
theorem Procedure.Presented.inputs_eq {t : Target} (h : p.Presented t f) (hids : p.slotNames.Nodup) :
    p.prototypeBlock.inputs.entries = List.zipWith (fun a r =>
      (a.2.id, ⟨.argument, .block r⟩)) p.arguments.entries p.reporters := by
  rw [prototypeBlock, Table.values, List.zipWith_map_left]
  refine Table.entries_ofEntries ?_
  have hkeys : p.arguments.entries.map (·.2.id) = (List.zipWith (fun a r =>
      (a.2.id, (⟨.argument, .block r⟩ : Input))) p.arguments.entries p.reporters).map (·.1) := by
    rw [← List.forall₂_eq_eq_eq, List.forall₂_map_left_iff, List.forall₂_map_right_iff]
    exact (forall₂_zipWith _ h.reporters).imp fun a e he => by
      obtain ⟨r, rfl, -⟩ := he
      rfl
  rw [← hkeys]
  rwa [slotNames, Table.values, List.map_map] at hids

/-- The slots of a prototype hold the reporters of the arguments. -/
theorem Procedure.Presented.slots {t : Target} (h : p.Presented t f) (hids : p.slotNames.Nodup) :
    List.Forall₂ (fun a e => ∃ r, e = (a.2.id, ⟨.argument, .block r⟩) ∧
        t.Shows r (.reporter r a.1 a.2.type true))
      p.arguments.entries p.prototypeBlock.inputs.entries := by
  rw [h.inputs_eq hids]
  exact forall₂_zipWith _ h.reporters

namespace Target.Arranged

variable {t : Target} {x : String} {b : Block}

/-- A block that sets a variable sets one of the target. -/
theorem assigns (h : t.Arranged) (hx : t.block? x = some b) (hb : b.opcode = .setVariable) :
    ∃ ref, b.fields.entries = [("VARIABLE", ⟨ref.name, some ref.id⟩)] ∧ t.Declares ref := by
  have hopcode : ∀ {b' : Block}, b.alone = b'.alone → b'.opcode = .setVariable :=
    fun heq => (congrArg Block.opcode heq :).symm.trans hb
  obtain hb' | ⟨-, point, heq⟩ | ⟨f, p, hp, ⟨-, point, heq⟩ | ⟨-, heq⟩ | ⟨a, type, heq⟩⟩ :=
    h.block_cases hx
  · exact hb'.assigns hb
  all_goals cases hopcode heq

end Target.Arranged

/-- In every target all ids are different, so that the document has one field for each variable.
Every block that sets a variable, every slot that shows one and the return variable of every
function refer to a variable of the target by its name and its id. -/
theorem compile_resolves (source sprite : String) :
    ∀ t ∈ (compile source sprite).targets,
      (t.blocks.keys ++ t.comments.keys ++ t.vars.values.map Variable.id ++
        t.functions.values.flatMap fun p => p.arguments.values.map Argument.id).Nodup ∧
      (∃ fields, t.toJson.field? "variables" = some (.object fields) ∧
        fields.Perm (t.vars.values.map fun v =>
          (v.id, .array [.string v.name, v.type.initialValue]))) ∧
      (∀ x b, t.block? x = some b → b.id = x ∧
        (b.opcode = .setVariable → ∃ ref,
          b.fields.entries = [("VARIABLE", ⟨ref.name, some ref.id⟩)] ∧ t.Declares ref) ∧
        ∀ slot input ref, (slot, input) ∈ b.inputs.entries →
          input.value = .payload (.variable ref) → t.Declares ref) ∧
      ∀ f p ref, t.functionNamed? f = some p → p.returnVariable = some ref → t.Declares ref := by
  intro t ht
  have harr := arranged_of_mem_targets ht
  have hlinked := linked_of_mem_targets ht
  refine ⟨harr.numbered.ids_nodup, ?_, fun x b hx => ⟨?_, harr.assigns hx, ?_⟩, harr.returns⟩
  · have hkeys : (t.variableFields.map (·.1)).Nodup := by
      rw [Target.variableFields, List.map_map]
      exact harr.numbered.vars_nodup
    obtain ⟨fields, hrecord, hperm⟩ := Json.record_perm hkeys
    exact ⟨fields, t.toJson_variables.trans (congrArg some hrecord), hperm⟩
  · exact hlinked.id_eq (Target.links_eq_some hx)
  · exact fun slot input ref hm hv => (harr.apt hx hm).bound ref hv

/-- A comparison that is mirrored, in a program with an error. -/
theorem compile_resolves_mirrored :
    let source := "let x = 1\nif x >= 0 \x7b x = y \x7d"
    (compile source "Sprite1").success = false ∧ ∃ t ∈ (compile source "Sprite1").targets,
      ∃ b ref input, t.block? "block_6" = some b ∧ b.opcode = .equals ∧
        ("OPERAND1", input) ∈ b.inputs.entries ∧ input.value = .payload (.variable ref) ∧
        t.Declares ref ∧ ref.id ∈ t.vars.values.map Variable.id ∧ t.ids.Nodup := by
  intro source
  obtain ⟨hloud, t, ht, b, hb, hopcode, ⟨slot, input⟩, he, rfl, hvalue⟩ :
      (compile source "Sprite1").success = false ∧ ∃ t ∈ (compile source "Sprite1").targets,
        ∃ b ∈ t.block? "block_6", b.opcode = .equals ∧ ∃ e ∈ b.inputs.entries, e.1 = "OPERAND1" ∧
          e.2.value = .payload (.variable ⟨"x", "Sprite1_var_2"⟩) := by
    decide +kernel
  obtain ⟨hids, -, hblocks, -⟩ := compile_resolves source "Sprite1" t ht
  have hdeclares := (hblocks "block_6" b hb).2.2 _ input _ he hvalue
  refine ⟨hloud, t, ht, b, _, input, hb, hopcode, he, hvalue, hdeclares, ?_, hids⟩
  obtain ⟨v, hv, href⟩ := hdeclares
  exact List.mem_map.2 ⟨v, List.mem_map.2 ⟨_, Table.get?_eq_some_iff.1 hv, rfl⟩,
    congrArg VariableRef.id href⟩

/-! ### Calls -/

/-- The text that identifies the procedure of a call or a prototype. -/
def Block.proccode? (b : Block) : Option String :=
  b.mutation.bind Mutation.proccode

namespace Target.Arranged

variable {t : Target} {x : String} {b : Block}

/-- A call is of a function of the target. -/
theorem calls (h : t.Arranged) (hx : t.block? x = some b) (hb : b.opcode = .call) :
    ∃ f p, t.functionNamed? f = some p ∧ b.mutation = (p.callBlock b.id).mutation ∧
      b.slotKinds = (p.callBlock b.id).slotKinds := by
  have hopcode : ∀ {b' : Block}, b.alone = b'.alone → b'.opcode = .call :=
    fun heq => (congrArg Block.opcode heq :).symm.trans hb
  obtain hb' | ⟨-, point, heq⟩ | ⟨f, p, hp, ⟨-, point, heq⟩ | ⟨-, heq⟩ | ⟨a, type, heq⟩⟩ :=
    h.block_cases hx
  · exact hb'.calls hb
  all_goals cases hopcode heq

/-- A prototype is that of a function. -/
theorem prototypes (h : t.Arranged) (hx : t.block? x = some b) (hb : b.opcode = .prototype) :
    ∃ f p, t.functionNamed? f = some p ∧ x = p.prototype ∧ b.alone = p.prototypeBlock.alone := by
  have hopcode : ∀ {b' : Block}, b.alone = b'.alone → b'.opcode = .prototype :=
    fun heq => (congrArg Block.opcode heq :).symm.trans hb
  obtain hb' | ⟨-, point, heq⟩ | ⟨f, p, hp, ⟨-, point, heq⟩ | ⟨hid, heq⟩ | ⟨a, type, heq⟩⟩ :=
    h.block_cases hx
  · exact absurd hb hb'.opcode
  · cases hopcode heq
  · cases hopcode heq
  · exact ⟨f, p, hp, hid, heq⟩
  · cases hopcode heq

end Target.Arranged

/-- The functions of a target are told apart by their texts. -/
theorem eq_of_proccode {source sprite : String} {t : Target}
    (ht : t ∈ (compile source sprite).targets) {g : String} {q : Procedure}
    (hp : t.functionNamed? f = some p) (hq : t.functionNamed? g = some q)
    (heq : p.mutation.proccode = q.mutation.proccode) : p = q := by
  obtain hblank | ⟨program, hprogram, rfl⟩ := blank_or_compiled ht
  · simp [hblank.functions] at hp
  · have htarget : (program.compiled sprite).target = (compile source sprite).current :=
      (congrArg Project.current (compile_eq hprogram sprite)).symm
    rw [htarget] at hp hq
    obtain ⟨hcoded, hname⟩ := Program.function_coded hprogram hp
    obtain ⟨hcoded', hname'⟩ := Program.function_coded hprogram hq
    obtain rfl := hcoded.name_eq hcoded' hname hname' heq
    exact Option.mem_unique hp hq

/-- Every call has the signature of exactly one prototype, which lists the arguments of the call in
order: their ids are the names of the slots of both blocks, and the prototype shows their names. -/
theorem compile_calls (source sprite : String) :
    ∀ t ∈ (compile source sprite).targets, ∀ x b, t.block? x = some b → b.opcode = .call →
      ∃ (y : String) (c : Block) (m m' : Mutation) (f : String) (arguments : List (String × Argument)),
        t.block? y = some c ∧ c.opcode = .prototype ∧ b.mutation = some m ∧ c.mutation = some m' ∧
        m.proccode = m'.proccode ∧
        (∀ y' c', t.block? y' = some c' → c'.opcode = .prototype →
          c'.proccode? = m.proccode → y' = y) ∧
        m.argumentIds = m'.argumentIds ∧ m.warp = m'.warp ∧
        m'.proccode = some (arguments.foldl (fun code a =>
          code ++ if a.2.type = .boolean then " %b" else " %s") f) ∧
        m'.argumentIds = some (Json.strings (arguments.map (·.2.id))).compact ∧
        m'.argumentNames = some (Json.strings (arguments.map (·.1))).compact ∧
        m'.argumentDefaults = some (Json.strings (arguments.map fun a =>
          if a.2.type = .boolean then "false" else "")).compact ∧
        b.inputs.entries.map (fun e => (e.1, e.2.kind)) = arguments.map (fun a =>
          (a.2.id, if a.2.type = .boolean then .boolean else .text)) ∧
        List.Forall₂ (fun a e => e.1 = a.2.id ∧ e.2.kind = .argument ∧
            ∃ r reporter, e.2.value = .block r ∧ t.block? r = some reporter ∧
              reporter.shadow = true ∧ reporter.opcode = .reporter (a.2.type = .boolean) ∧
              reporter.fields.entries = [("VALUE", ⟨a.1, none⟩)])
          arguments c.inputs.entries := by
  intro t ht x b hx hb
  have harr := arranged_of_mem_targets ht
  obtain ⟨f, p, hp, hmutation, hslots⟩ := harr.calls hx hb
  have hpresented := harr.procedures hp
  have hids := harr.numbered.slotNames_nodup hp
  obtain ⟨c, hc, heq⟩ := hpresented.prototype
  have hinputs : c.inputs = p.prototypeBlock.inputs := (congrArg Block.inputs heq :)
  refine ⟨p.prototype, c, _, p.mutation, f, p.arguments.entries, hc, (congrArg Block.opcode heq :),
    hmutation, (congrArg Block.mutation heq :), rfl, fun y' c' hy' hc' hcode => ?_, rfl, rfl,
    congrArg Mutation.proccode hpresented.mutation,
    congrArg Mutation.argumentIds hpresented.mutation,
    congrArg Mutation.argumentNames hpresented.mutation,
    congrArg Mutation.argumentDefaults hpresented.mutation, ?_, ?_⟩
  · obtain ⟨g, q, hq, rfl, heq'⟩ := harr.prototypes hy' hc'
    have hcode' : c'.proccode? = q.mutation.proccode :=
      congrArg (·.bind Mutation.proccode) (congrArg Block.mutation heq' :)
    rw [eq_of_proccode ht hq hp (hcode'.symm.trans hcode)]
  · exact hslots.trans (by
      rw [Block.slotKinds, Procedure.callBlock_entries hids, List.map_map, Table.values, List.map_map]
      rfl)
  · rw [hinputs]
    refine (hpresented.slots hids).imp ?_
    rintro a e ⟨r, rfl, reporter, hr, hshown⟩
    refine ⟨rfl, rfl, r, reporter, rfl, hr, (congrArg Block.shadow hshown :),
      (congrArg Block.opcode hshown :), ?_⟩
    exact (congrArg (·.fields.entries) hshown :)

/-- A call of a function with a boolean argument, in a program with an error. -/
theorem compile_calls_boolean :
    let source := "function f(a, b) \x7b if b \x7b return a + 1 \x7d \x7d\nlet x = f(1, 2 > 1)\ny = 3"
    (compile source "Sprite1").success = false ∧ ∃ t ∈ (compile source "Sprite1").targets,
      ∃ b y c, t.block? "block_17" = some b ∧ b.opcode = .call ∧ t.block? y = some c ∧
        c.opcode = .prototype ∧ c.proccode? = b.proccode? ∧ b.inputs.keys = c.inputs.keys := by
  intro source
  obtain ⟨hloud, t, ht, b, hb, hopcode⟩ : (compile source "Sprite1").success = false ∧
      ∃ t ∈ (compile source "Sprite1").targets, ∃ b ∈ t.block? "block_17", b.opcode = .call := by
    decide +kernel
  obtain ⟨y, c, m, m', f, arguments, hc, hprototype, hm, hm', hcode, -, -, -, -, -, -, -, hslots,
    hreporters⟩ := compile_calls source "Sprite1" t ht "block_17" b hb hopcode
  refine ⟨hloud, t, ht, b, y, c, hb, hopcode, hc, hprototype, ?_, ?_⟩
  · rw [Block.proccode?, Block.proccode?, hm, hm']
    exact hcode.symm
  · have hkeys : arguments.map (·.2.id) = c.inputs.keys := by
      rw [Table.keys, ← List.forall₂_eq_eq_eq, List.forall₂_map_left_iff, List.forall₂_map_right_iff]
      exact hreporters.imp fun a e he => he.1.symm
    rw [← hkeys]
    simpa [List.map_map, Table.keys, Function.comp_def] using congrArg (List.map Prod.fst) hslots

end ScriptBlocks
