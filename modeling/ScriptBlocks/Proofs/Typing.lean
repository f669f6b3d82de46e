import ScriptBlocks.Proofs.Inferred

/-!
# Types of slots

The type of what a slot holds can be read off the graph and the variables. A block is well typed
when the slots whose type matters to it are filled with values of that type.
-/
namespace ScriptBlocks

/-- The contents of a slot have a type. A text that spells a truth value counts as one. -/
def SlotValue.HasType (t : Target) : SlotValue → ValueType → Prop
  | .empty, _ => False
  | .payload (.number _), type => type = .number
  | .payload (.text text), type =>
    type = (Literal.text text).type ∨ type = .boolean ∧ (text = "true" ∨ text = "false")
  | .payload (.color _), type => type = .color
  | .payload (.variable ref), type => ∃ v, t.variableNamed? ref.name = some v ∧ v.type = type
  | .block x, type => ∃ b, t.block? x = some b ∧ b.inferred = type

namespace Block

/-- A slot is filled with a value of a settled type. -/
def SlotHas (t : Target) (b : Block) (slot : String) (type : ValueType) : Prop :=
  type ≠ .unresolved ∧ ∃ input, b.inputs.get? slot = some input ∧ input.value.HasType t type

/-- The slots of a block hold what it works with. -/
def WellTyped (t : Target) (b : Block) : Prop :=
  match b.opcode with
  | .arithmetic _ => b.SlotHas t "NUM1" .number ∧ b.SlotHas t "NUM2" .number
  | .join => b.SlotHas t "STRING2" .number
  | .logic _ => b.SlotHas t "OPERAND1" .boolean ∧ b.SlotHas t "OPERAND2" .boolean
  | .not => b.SlotHas t "OPERAND" .boolean
  | .branch => b.SlotHas t "CONDITION" .boolean
  | .branchElse => b.SlotHas t "CONDITION" .boolean
  | .setVariable => ∃ v, b.fields.get? "VARIABLE" = some ⟨v.name, some v.id⟩ ∧
      t.variableNamed? v.name = some v ∧ b.SlotHas t "VALUE" v.type
  | .call => ∃ f p, t.functionNamed? f = some p ∧
      b.mutation.bind Mutation.proccode = p.mutation.proccode ∧
      b.inputs.keys = p.arguments.values.map Argument.id ∧
      ∀ a ∈ p.arguments.values, b.SlotHas t a.id a.type
  | _ => True

end Block

/-- What error-free compilation keeps: functions leave results of the right type in their return
variables. -/
structure Target.Sane (t : Target) : Prop where
  results : ∀ {f p}, t.functionNamed? f = some p → p.returnType ≠ .void →
    ∃ v, p.returnVariable = some v.ref ∧ t.variableNamed? v.name = some v ∧
      v.type = p.returnType
  returns : ∀ {f p}, t.functionNamed? f = some p → p.returnVariable ≠ none → p.returnType ≠ .void

/-- An operand of a settled type fills a slot with a value of that type. -/
theorem Inference.Has.slotValue {i : Inference} {op : Operand} {type : ValueType}
    (hs : i.target.Sane) (hk : i.Known op) (h : i.Has op type) :
    op.slotValue.HasType i.target type := by
  rcases op with value | ref | id | ⟨f, result⟩
  · cases value with
    | number value => exact h.symm
    | text value => exact .inl h.symm
    | boolean value => exact .inr ⟨h.symm, by cases value <;> simp⟩
    | color value => exact h.symm
  · obtain ⟨v, hv, -⟩ := hk
    have hv' : i.target.variableNamed? ref.name = some v := (Option.filter_eq_some_iff.1 hv).1
    refine ⟨v, hv', ?_⟩
    simpa [Has, variableType, hv'] using h
  · exact h
  · obtain ⟨p, hp, rfl, hv⟩ := hk
    obtain ⟨p', hp', hr⟩ := h
    rw [hp] at hp'
    cases hp'
    obtain ⟨v, hret, hvar, htype⟩ := hs.results hp hv
    rw [hret]
    exact ⟨v, hvar, htype.trans hr⟩

/-- Variables and functions as they are later: settled types and all names stay. -/
structure Target.Grows (t t' : Target) : Prop where
  vars : ∀ {x v}, t.variableNamed? x = some v → v.type ≠ .unresolved →
    ∃ v', t'.variableNamed? x = some v' ∧ v'.ref = v.ref ∧ v'.type = v.type
  functions : ∀ {f p}, t.functionNamed? f = some p → t'.functionNamed? f = some p

theorem Target.Grows.of_tables {t t' : Target} (h : t'.tables = t.tables) : t.Grows t' where
  vars {x v} hx _ := by
    have hvars : t'.vars = t.vars := (congrArg Target.vars h :)
    refine ⟨v, ?_, rfl, rfl⟩
    rw [Target.variableNamed?, hvars]
    exact hx
  functions {f p} hf := by
    have hfuns : t'.functions = t.functions := (congrArg Target.functions h :)
    rw [Target.functionNamed?, hfuns]
    exact hf

section

variable {t t' : Target}

/-- Values keep settled types. -/
theorem SlotValue.HasType.mono {value : SlotValue} {type : ValueType} (ht : type ≠ .unresolved)
    (hg : t.Grows t')
    (hb : ∀ x b, value = .block x → t.block? x = some b → b.inferred ≠ .unresolved →
      ∃ b', t'.block? x = some b' ∧ b'.inferred = b.inferred)
    (h : value.HasType t type) : value.HasType t' type := by
  rcases value with _ | x | (_ | _ | _ | ref)
  · exact h
  · obtain ⟨b, hx, rfl⟩ := h
    exact hb x b rfl hx ht
  · exact h
  · exact h
  · exact h
  · obtain ⟨v, hx, rfl⟩ := h
    obtain ⟨v', hv', -, htype⟩ := hg.vars hx ht
    exact ⟨v', hv', htype⟩

/-- A block with the fields of a well-typed one, and slots that hold the same types. -/
theorem Block.WellTyped.transfer {b b' : Block} (h : b.WellTyped t) (hfields : b'.fields = b.fields)
    (hmut : b'.mutation = b.mutation) (hkeys : b'.inputs.keys = b.inputs.keys)
    (hop : b'.opcode = b.opcode) (hg : t.Grows t')
    (slot : ∀ {name type}, b.SlotHas t name type → b'.SlotHas t' name type) : b'.WellTyped t' := by
  unfold WellTyped at h ⊢
  rw [hop]
  split at h
  · exact ⟨slot h.1, slot h.2⟩
  · exact slot h
  · exact ⟨slot h.1, slot h.2⟩
  · exact slot h
  · exact slot h
  · exact slot h
  · obtain ⟨v, hf, hv, hs⟩ := h
    obtain ⟨v', hv', href, htype⟩ := hg.vars hv hs.1
    have hname : v'.name = v.name := congrArg VariableRef.name href
    have hid : v'.id = v.id := congrArg VariableRef.id href
    exact ⟨v', by rw [hfields, hname, hid, hf], hname ▸ hv', htype ▸ slot hs⟩
  · obtain ⟨f, p, hf, hm, hk, ha⟩ := h
    exact ⟨f, p, hg.functions hf, hmut ▸ hm, hkeys.trans hk, fun a hmem => slot (ha a hmem)⟩
  · trivial

/-- A block whose slots do not change stays well typed. -/
theorem Block.WellTyped.mono {b b' : Block} (h : b.WellTyped t) (hface : b'.face = b.face)
    (hin : b'.inputs = b.inputs)
    (hop : b'.opcode = b.opcode ∨ ∃ type, b'.opcode = Block.reporterOpcode type)
    (hg : t.Grows t')
    (hb : ∀ x bx, x ∈ b.children → t.block? x = some bx → bx.inferred ≠ .unresolved →
      ∃ bx', t'.block? x = some bx' ∧ bx'.inferred = bx.inferred) : b'.WellTyped t' := by
  obtain hop | ⟨type, hop⟩ := hop
  · refine h.transfer (congrArg Block.fields hface :) (congrArg Block.mutation hface :)
      (congrArg Table.keys hin) hop hg ?_
    rintro name type ⟨ht, input, hi, hv⟩
    refine ⟨ht, input, hin ▸ hi, hv.mono ht hg fun x bx hx => hb x bx ?_⟩
    refine List.mem_filterMap.2 ⟨input, List.mem_map.2 ⟨_, Table.get?_eq_some_iff.1 hi, rfl⟩, ?_⟩
    simp [Input.block?, hx]
  · simp [WellTyped, hop, reporterOpcode]

end

end ScriptBlocks
