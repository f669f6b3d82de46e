import ScriptBlocks.Proofs.Copy

/-!
# How the contents of a target grow

Compiling statements adds blocks to a target and fills slots. The variables that slots and fields
come to refer to are variables of the target, a call has the slots and the signature of a function
of the target, and blocks keep their place on the canvas. `Enlarged` is this relation between two
states of a target. It also says which of the new blocks nothing holds.
-/
namespace ScriptBlocks

variable {value : SlotValue} {input : Input} {slot : String}

/-- A variable of the target has this name and this id. -/
def Target.Declares (t : Target) (ref : VariableRef) : Prop :=
  ∃ v, t.variableNamed? ref.name = some v ∧ v.ref = ref

/-- If a slot refers to a variable, the target has it. -/
def SlotValue.Bound (t : Target) (value : SlotValue) : Prop :=
  ∀ ref, value = .payload (.variable ref) → t.Declares ref

theorem SlotValue.Bound.of_ne {t : Target} (h : ∀ ref, value ≠ .payload (.variable ref)) :
    value.Bound t :=
  fun ref hv => absurd hv (h ref)

theorem SlotValue.Bound.mono {t t' : Target} (h : value.Bound t)
    (hd : ∀ {ref}, t.Declares ref → t'.Declares ref) : value.Bound t' :=
  fun ref hv => hd (h ref hv)

/-- A slot for a body holds no plain value. -/
def Input.Housed (input : Input) : Prop :=
  input.kind = .substack → ∀ value, input.value ≠ .payload value

/-- What a slot holds is there, and it is of the right kind. -/
structure Input.Apt (t : Target) (input : Input) : Prop where
  bound : input.value.Bound t
  housed : input.Housed

theorem Input.Apt.of_not_payload {t : Target} (h : ∀ value, input.value ≠ .payload value) :
    input.Apt t :=
  ⟨.of_ne fun ref => h (.variable ref), fun _ => h⟩

theorem Input.Apt.of_kind {t : Target} (h : input.value.Bound t) (hk : input.kind ≠ .substack) :
    input.Apt t :=
  ⟨h, fun hs => absurd hs hk⟩

theorem Input.Apt.mono {t t' : Target} (h : input.Apt t)
    (hd : ∀ {ref}, t.Declares ref → t'.Declares ref) : input.Apt t' :=
  ⟨h.bound.mono hd, h.housed⟩

/-- A slot keeps its name and its kind, and if it holds something else now, this is apt. -/
structure SlotKept (t : Target) (e e' : String × Input) : Prop where
  name : e'.1 = e.1
  kind : e'.2.kind = e.2.kind
  value : e'.2 = e.2 ∨ e'.2.Apt t

theorem SlotKept.refl (t : Target) (e : String × Input) : SlotKept t e e :=
  ⟨rfl, rfl, .inl rfl⟩

theorem SlotKept.trans {t t' : Target} {e e' e'' : String × Input} (h : SlotKept t e e')
    (h' : SlotKept t' e' e'') (hd : ∀ {ref}, t.Declares ref → t'.Declares ref) :
    SlotKept t' e e'' where
  name := h'.name.trans h.name
  kind := h'.kind.trans h.kind
  value := by
    rcases h'.value with hv' | hv'
    · rw [hv']
      exact h.value.imp_right (·.mono hd)
    · exact .inr hv'

/-- The names of the slots of a block and what they take. -/
def Block.slotKinds (b : Block) : List (String × SlotKind) :=
  b.inputs.entries.map fun e => (e.1, e.2.kind)

/-- A slot takes values: it is not one for a body. -/
def Block.Takes (b : Block) (slot : String) : Prop :=
  (slot, .substack) ∉ b.slotKinds

theorem Block.Takes.of_kinds {b b' : Block} (h : b.Takes slot) (hk : b'.slotKinds = b.slotKinds) :
    b'.Takes slot := by
  rwa [Takes, hk]

theorem Block.Takes.of_inputs {b b' : Block} (h : b.Takes slot) (hin : b'.inputs = b.inputs) :
    b'.Takes slot :=
  h.of_kinds (by rw [slotKinds, hin, slotKinds])

theorem Block.Takes.kind {b : Block} (h : b.Takes slot) {e : String × Input}
    (he : e ∈ b.inputs.entries) (hslot : e.1 = slot) : e.2.kind ≠ .substack :=
  fun hk => h (List.mem_map.2 ⟨e, he, by rw [hslot, hk]⟩)

/-- What becomes of a block while scripts are compiled. Only reporters change their opcode. -/
structure Block.Lasts (t : Target) (b b' : Block) : Prop where
  fields : b'.fields = b.fields
  mutation : b'.mutation = b.mutation
  opcode : b'.opcode = b.opcode ∨ ∃ boolean, b'.opcode = .reporter boolean
  position : b'.position = b.position
  topLevel : b'.topLevel = b.topLevel
  parent : b'.parent = none → b.parent = none
  slots : List.Forall₂ (SlotKept t) b.inputs.entries b'.inputs.entries

/-- A block of a script that stands below the start of the script. -/
structure Block.Scripted (t : Target) (b : Block) : Prop where
  position : b.position = none
  topLevel : b.topLevel = false
  opcode : b.opcode ≠ .prototype
  apt : ∀ e ∈ b.inputs.entries, e.2.Apt t
  assigns : b.opcode = .setVariable →
    ∃ ref, b.fields.entries = [("VARIABLE", ⟨ref.name, some ref.id⟩)] ∧ t.Declares ref
  calls : b.opcode = .call → ∃ f p, t.functionNamed? f = some p ∧
    b.mutation = (p.callBlock b.id).mutation ∧ b.slotKinds = (p.callBlock b.id).slotKinds

theorem forall₂_trans {α β γ : Type} {R : α → β → Prop} {S : β → γ → Prop} {T : α → γ → Prop}
    (h : ∀ a b c, R a b → S b c → T a c) {as : List α} {bs : List β} {cs : List γ}
    (hab : List.Forall₂ R as bs) (hbc : List.Forall₂ S bs cs) : List.Forall₂ T as cs := by
  induction hab generalizing cs with
  | nil =>
    cases hbc
    exact .nil
  | cons hr _ ih =>
    cases hbc with
    | cons hs hrest => exact .cons (h _ _ _ hr hs) (ih hrest)

namespace Block.Lasts

variable {t t' : Target} {b b' b'' : Block}

theorem of_eq (hfields : b'.fields = b.fields) (hmutation : b'.mutation = b.mutation)
    (hopcode : b'.opcode = b.opcode ∨ ∃ boolean, b'.opcode = .reporter boolean)
    (hposition : b'.position = b.position) (htop : b'.topLevel = b.topLevel)
    (hparent : b'.parent = none → b.parent = none) (hinputs : b'.inputs = b.inputs) :
    b.Lasts t b' := by
  refine ⟨hfields, hmutation, hopcode, hposition, htop, hparent, ?_⟩
  rw [hinputs]
  exact List.forall₂_same.2 fun e _ => .refl t e

theorem refl (t : Target) (b : Block) : b.Lasts t b :=
  of_eq rfl rfl (.inl rfl) rfl rfl (fun hp => hp) rfl

theorem trans (h : b.Lasts t b') (h' : b'.Lasts t' b'')
    (hd : ∀ {ref}, t.Declares ref → t'.Declares ref) : b.Lasts t' b'' where
  fields := h'.fields.trans h.fields
  mutation := h'.mutation.trans h.mutation
  opcode := by
    rcases h'.opcode with ho' | ho'
    · rw [ho']
      exact h.opcode
    · exact .inr ho'
  position := h'.position.trans h.position
  topLevel := h'.topLevel.trans h.topLevel
  parent hp := h.parent (h'.parent hp)
  slots := forall₂_trans (fun _ _ _ hs hs' => hs.trans hs' hd) h.slots h'.slots

theorem mono (h : b.Lasts t b') (hd : ∀ {ref}, t.Declares ref → t'.Declares ref) :
    b.Lasts t' b' :=
  h.trans (refl t' b') hd

theorem slotKinds (h : b.Lasts t b') : b'.slotKinds = b.slotKinds := by
  have hmap : List.Forall₂ (· = ·) b.slotKinds b'.slotKinds :=
    List.rel_map (fun _ _ hs => Prod.ext hs.name.symm hs.kind.symm) h.slots
  rw [List.forall₂_eq_eq_eq] at hmap
  exact hmap.symm

/-- A slot is given another value. -/
theorem fill (hv : ∀ e ∈ b.inputs.entries, e.1 = slot → (⟨e.2.kind, value⟩ : Input).Apt t) :
    b.Lasts t (b.fill slot value) where
  fields := rfl
  mutation := rfl
  opcode := .inl rfl
  position := rfl
  topLevel := rfl
  parent hp := hp
  slots := by
    rw [Block.fill, Table.entries_modify, List.forall₂_map_right_iff]
    refine List.forall₂_same.2 fun e he => ?_
    split
    next hslot => exact ⟨rfl, rfl, .inr (hv e he hslot)⟩
    next => exact .refl t e

end Block.Lasts

namespace Block.Scripted

variable {t t' : Target} {b b' : Block}

theorem lasts (h : b.Scripted t) (hb : b.Lasts t' b')
    (hd : ∀ {ref}, t.Declares ref → t'.Declares ref)
    (hf : ∀ {f p}, t.functionNamed? f = some p → t'.functionNamed? f = some p) :
    b'.Scripted t' where
  position := hb.position.trans h.position
  topLevel := hb.topLevel.trans h.topLevel
  opcode ho := by
    rcases hb.opcode with he | ⟨_, he⟩
    · exact h.opcode (he ▸ ho)
    · rw [he] at ho
      cases ho
  apt e' he' := by
    obtain ⟨e, he, hs⟩ := forall₂_exists_of_mem hb.slots.flip he'
    rcases hs.value with hv | hv
    · rw [hv]
      exact (h.apt e he).mono hd
    · exact hv
  assigns ho := by
    rcases hb.opcode with he | ⟨_, he⟩
    · obtain ⟨ref, hfields, hr⟩ := h.assigns (he ▸ ho)
      exact ⟨ref, by rw [hb.fields, hfields], hd hr⟩
    · rw [he] at ho
      cases ho
  calls ho := by
    rcases hb.opcode with he | ⟨_, he⟩
    · obtain ⟨f, p, hp, hm, hk⟩ := h.calls (he ▸ ho)
      exact ⟨f, p, hf hp, hb.mutation.trans hm, hb.slotKinds.trans hk⟩
    · rw [he] at ho
      cases ho

/-- A copy takes over what the block does. -/
theorem copied (h : b.Scripted t) (copyOf : String → String) (id parent : String) :
    (b.copied copyOf id parent).Scripted t := by
  refine h.lasts ⟨rfl, rfl, .inl rfl, rfl, h.topLevel.symm, fun hp => (by cases hp), ?_⟩
    (fun hr => hr) fun hf => hf
  rw [Block.copied, Table.map, List.forall₂_map_right_iff]
  refine List.forall₂_same.2 fun e _ => ?_
  obtain ⟨name, kind, _ | child | value⟩ := e
  · exact .refl t _
  · exact ⟨rfl, rfl, .inr (.of_not_payload (by simp [Input.rename, Input.set]))⟩
  · exact .refl t _

end Block.Scripted

/-- The id of the variable that was created with this number. -/
def Target.variableId (name : String) (number : Nat) : String :=
  name ++ "_" ++ Target.idText "var" number

/-- Ids are numbered by draws, each kind of them with a label of its own. Variables and arguments
have got different numbers. -/
structure Target.Numbered (t : Target) : Prop where
  blocks : ∀ x ∈ t.blocks.keys, ∃ n, x = Target.idText "block" n
  comments : ∀ x ∈ t.comments.keys, ∃ n, x = Target.idText "comment" n
  vars : ∃ ns : List Nat, ns.Nodup ∧ (∀ n ∈ ns, n ≤ t.drawn) ∧
    t.vars.values.map Variable.id = ns.map (Target.variableId t.name)
  arguments : ∃ ns : List Nat, ns.Nodup ∧ (∀ n ∈ ns, n ≤ t.drawn) ∧
    t.functions.values.flatMap (fun p => p.arguments.values.map Argument.id) =
      ns.map (Target.idText "argument")

/-- Further draws, and blocks with ids of their own. -/
theorem Target.Numbered.of_names {t t' : Target} (h : t.Numbered) (hname : t'.name = t.name)
    (hvars : t'.vars = t.vars) (hfunctions : t'.functions = t.functions)
    (hcomments : t'.comments = t.comments) (hd : t.drawn ≤ t'.drawn)
    (hb : ∀ {x b}, t'.block? x = some b → t.block? x = none → ∃ n, x = Target.idText "block" n) :
    t'.Numbered where
  blocks x hx := by
    by_cases hx' : x ∈ t.blocks.keys
    · exact h.blocks x hx'
    · obtain ⟨b, hsome⟩ := Option.isSome_iff_exists.1 ((Table.contains_iff _ _).2 hx)
      exact hb hsome ((Table.get?_eq_none_iff _ _).2 hx')
  comments := by
    rw [hcomments]
    exact h.comments
  vars := by
    obtain ⟨ns, hnodup, hle, heq⟩ := h.vars
    rw [hvars, hname]
    exact ⟨ns, hnodup, fun n hn => Nat.le_trans (hle n hn) hd, heq⟩
  arguments := by
    obtain ⟨ns, hnodup, hle, heq⟩ := h.arguments
    rw [hfunctions]
    exact ⟨ns, hnodup, fun n hn => Nat.le_trans (hle n hn) hd, heq⟩

theorem Target.Numbered.of_tables {t t' : Target} (h : t.Numbered) (ht : t'.tables = t.tables)
    (hd : t.drawn ≤ t'.drawn)
    (hb : ∀ {x b}, t'.block? x = some b → t.block? x = none → ∃ n, x = Target.idText "block" n) :
    t'.Numbered :=
  h.of_names (congrArg Target.name ht :) (congrArg Target.vars ht :)
    (congrArg Target.functions ht :) (congrArg Target.comments ht :) hd hb

/-- Scripts have been written into a target. New blocks that nothing holds are among `Loose`. -/
structure Target.Enlarged (Loose : String → Prop) (t t' : Target) : Prop where
  old : ∀ {x b}, t.block? x = some b → ∃ b', t'.block? x = some b' ∧ b.Lasts t' b'
  new : ∀ {x b}, t'.block? x = some b → t.block? x = none →
    b.Scripted t' ∧ (b.parent = none → Loose x)
  declares : ∀ {ref}, t.Declares ref → t'.Declares ref
  functions : ∀ {f p}, t.functionNamed? f = some p → t'.functionNamed? f = some p
  scripts : t'.scripts = t.scripts
  numbered : t.Numbered → t'.Numbered

/-- No slot for a body holds a plain value. -/
def Target.Housed (t : Target) : Prop :=
  ∀ ⦃x b⦄, t.block? x = some b → ∀ e ∈ b.inputs.entries, e.2.Housed

theorem Target.declares_of_tables {t t' : Target} (h : t'.tables = t.tables) {ref : VariableRef}
    (hr : t.Declares ref) : t'.Declares ref := by
  obtain ⟨v, hv, he⟩ := hr
  refine ⟨v, ?_, he⟩
  rw [Target.variableNamed?, show t'.vars = t.vars from (congrArg Target.vars h :)]
  exact hv

theorem Target.functionNamed?_of_tables {t t' : Target} (h : t'.tables = t.tables) (f : String) :
    t'.functionNamed? f = t.functionNamed? f := by
  rw [Target.functionNamed?, show t'.functions = t.functions from (congrArg Target.functions h :)]
  rfl

namespace Target.Enlarged

variable {L L' : String → Prop} {t t' t'' : Target} {x : String} {b : Block}

theorem trans (h : t.Enlarged L t') (h' : t'.Enlarged L t'') : t.Enlarged L t'' where
  old hx := by
    obtain ⟨b', hb', hk⟩ := h.old hx
    obtain ⟨b'', hb'', hk'⟩ := h'.old hb'
    exact ⟨b'', hb'', hk.trans hk' h'.declares⟩
  new {x b} hb hx := by
    cases hx' : t'.block? x with
    | none =>
      exact h'.new hb hx'
    | some b' =>
      obtain ⟨hs, hp⟩ := h.new hx' hx
      obtain ⟨b'', hb'', hk⟩ := h'.old hx'
      rw [hb] at hb''
      cases hb''
      exact ⟨hs.lasts hk h'.declares h'.functions, fun hn => hp (hk.parent hn)⟩
  declares hr := h'.declares (h.declares hr)
  functions hf := h'.functions (h.functions hf)
  scripts := h'.scripts.trans h.scripts
  numbered hn := h'.numbered (h.numbered hn)

/-- Which of the new blocks are loose is decided in the end. -/
theorem mono (h : t.Enlarged L t')
    (hL : ∀ x b, t'.block? x = some b → t.block? x = none → b.parent = none → L x → L' x) :
    t.Enlarged L' t' where
  old := h.old
  new {x b} hb hx :=
    ⟨(h.new hb hx).1, fun hn => hL x b hb hx hn ((h.new hb hx).2 hn)⟩
  declares := h.declares
  functions := h.functions
  scripts := h.scripts
  numbered := h.numbered

/-- A change of the blocks, and further draws. -/
theorem of_tables (ht : t'.tables = t.tables) (hscripts : t'.scripts = t.scripts)
    (hd : t.drawn ≤ t'.drawn)
    (hold : ∀ {x b}, t.block? x = some b → ∃ b', t'.block? x = some b' ∧ b.Lasts t b')
    (hnew : ∀ {x b}, t'.block? x = some b → t.block? x = none → b.Scripted t ∧
      (b.parent = none → L x) ∧ ∃ n, x = Target.idText "block" n) : t.Enlarged L t' where
  old hx := by
    obtain ⟨b', hb', hk⟩ := hold hx
    exact ⟨b', hb', hk.mono (declares_of_tables ht)⟩
  new {x b} hb hx := by
    obtain ⟨hs, hp, -⟩ := hnew hb hx
    exact ⟨hs.lasts (.refl t' b) (declares_of_tables ht)
      fun hf => (functionNamed?_of_tables ht _).trans hf, hp⟩
  declares := declares_of_tables ht
  functions hf := (functionNamed?_of_tables ht _).trans hf
  scripts := hscripts
  numbered hn := by
    exact hn.of_tables ht hd fun hb hnone => (hnew hb hnone).2.2

theorem of_blocks (hb : t'.blocks = t.blocks) (ht : t'.tables = t.tables)
    (hscripts : t'.scripts = t.scripts) (hd : t.drawn ≤ t'.drawn) : t.Enlarged L t' := by
  have hlookup (x : String) : t'.block? x = t.block? x := by
    rw [Target.block?, hb]
    rfl
  refine of_tables ht hscripts hd (fun {x b} hx => ⟨b, (hlookup x).trans hx, .refl t b⟩)
    fun {x b} hx hn => ?_
  rw [hlookup, hn] at hx
  cases hx

theorem refl (t : Target) : t.Enlarged L t :=
  of_blocks rfl rfl rfl (Nat.le_refl _)

theorem modifyBlock (id : String) {f : Block → Block}
    (hf : ∀ b, t.block? id = some b → b.Lasts t (f b)) : t.Enlarged L (t.modifyBlock id f) := by
  have hlookup (x : String) := Target.block?_modifyBlock t id x f
  refine of_tables rfl rfl (Nat.le_refl _) (fun {x b} hx => ?_) fun {x b} hx hn => ?_
  · by_cases hid : id = x
    · subst hid
      exact ⟨f b, by simp [hlookup, hx], hf b hx⟩
    · exact ⟨b, by simp [hlookup, hid, hx], .refl t b⟩
  · rw [hlookup, hn] at hx
    simp at hx

/-- A further change of an old block. -/
theorem modify_old (h : t.Enlarged L t') {id : String} (hx : t.block? id = some b)
    {f : Block → Block} (hf : ∀ b', b.Lasts t' b' → b.Lasts t' (f b')) :
    t.Enlarged L (t'.modifyBlock id f) where
  old {x bx} hbx := by
    obtain ⟨b', hb', hk⟩ := h.old hbx
    rw [Target.block?_modifyBlock, hb']
    by_cases hid : id = x
    · subst hid
      rw [hx] at hbx
      cases hbx
      exact ⟨f b', by simp, (hf b' hk).mono fun hr => hr⟩
    · exact ⟨b', by simp [hid], hk.mono fun hr => hr⟩
  new {x b'} hb' hn := by
    have hid : id ≠ x := (ne_of_found hn hx).symm
    rw [Target.block?_modifyBlock, if_neg hid] at hb'
    obtain ⟨hs, hp⟩ := h.new hb' hn
    exact ⟨hs.lasts (.refl _ b') (fun hr => hr) fun hf => hf, hp⟩
  declares := h.declares
  functions := h.functions
  scripts := h.scripts
  numbered hn := by
    refine (h.numbered hn).of_tables rfl (Nat.le_refl _) fun {x b} hx' hnx => ?_
    simp [block?_modifyBlock, hnx] at hx'

theorem fillSlot (id slot : String)
    (hv : ∀ b, t.block? id = some b → ∀ e ∈ b.inputs.entries, e.1 = slot →
      (⟨e.2.kind, value⟩ : Input).Apt t) : t.Enlarged L (t.fillSlot id slot value) :=
  modifyBlock id fun b hb => .fill (hv b hb)

theorem fillSlot_block (id slot x : String) : t.Enlarged L (t.fillSlot id slot (.block x)) :=
  fillSlot id slot fun _ _ _ _ _ => .of_not_payload (by simp)

theorem setNext (id : String) (next : Option String) : t.Enlarged L (t.setNext id next) :=
  modifyBlock id fun _ _ => .of_eq rfl rfl (.inl rfl) rfl rfl (fun hp => hp) rfl

theorem adopt (parent : String) {child : String}
    (h : ∀ b, t.block? child = some b → b.topLevel = false) :
    t.Enlarged L (t.adopt parent child) :=
  modifyBlock child fun b hb =>
    .of_eq rfl rfl (.inl rfl) rfl (h b hb).symm (fun hp => by cases hp) rfl

/-- A block is written under a free id. The blocks in its slots get it as their parent. -/
theorem register (hn : t.block? b.id = none) (hid : ∃ n, b.id = Target.idText "block" n)
    (hb : b.Scripted t) (hL : b.parent = none → L b.id)
    (hchild : ∀ y ∈ b.children, ∀ m, t.block? y = some m → m.topLevel = false) :
    t.Enlarged L (t.register b) := by
  have hself : (if b.parent.isSome then { b with topLevel := false } else b) = b := by
    split
    · rw [← hb.topLevel]
    · rfl
  have hlookup (x : String) : (t.register b).block? x =
      if b.id = x then some b else if x ∈ b.children then (t.block? x).map (Target.under b.id)
      else t.block? x := by
    rw [Target.block?_register, hself]
  have hdrawn : t.drawn ≤ (t.register b).drawn := by simp
  have hscripts : (t.register b).scripts = t.scripts := by
    rw [Target.register_eq]
    rfl
  refine of_tables (by simp) hscripts hdrawn (fun {x bx} hx => ?_) fun {x bx} hx hnx => ?_
  · have hne : b.id ≠ x := ne_of_found hn hx
    by_cases hm : x ∈ b.children
    · refine ⟨Target.under b.id bx, by simp [hlookup, hne, hm, hx], ?_⟩
      exact .of_eq rfl rfl (.inl rfl) rfl (hchild x hm bx hx).symm (fun hp => by cases hp) rfl
    · exact ⟨bx, by simp [hlookup, hne, hm, hx], .refl t bx⟩
  · rw [hlookup, hnx] at hx
    by_cases he : b.id = x
    · subst he
      simp only [↓reduceIte, Option.some.injEq] at hx
      subst hx
      exact ⟨hb, hL, hid⟩
    · simp [he] at hx

/-- Blocks that do not lead a script go on not to do so, and neither do new ones. -/
theorem topLevel (h : t.Enlarged L t') (hx : ∀ b, t.block? x = some b → b.topLevel = false) :
    ∀ b, t'.block? x = some b → b.topLevel = false := by
  intro b' hb'
  cases hb : t.block? x with
  | none => exact (h.new hb' hb).1.topLevel
  | some b =>
    obtain ⟨b'', hb'', hk⟩ := h.old hb
    rw [hb'] at hb''
    cases hb''
    exact hk.topLevel.trans (hx b hb)

theorem scripted (h : t.Enlarged L t') (hb : b.Scripted t) : b.Scripted t' :=
  hb.lasts (.refl t' b) h.declares h.functions

/-- Slots for bodies go on to hold no plain values. -/
theorem housed (h : t.Enlarged L t') (ht : t.Housed) : t'.Housed := by
  intro x b' hb' e' he'
  cases hx : t.block? x with
  | none => exact ((h.new hb' hx).1.apt e' he').housed
  | some b =>
    obtain ⟨b'', hb'', hk⟩ := h.old hx
    obtain rfl := Option.mem_unique hb' hb''
    obtain ⟨e, he, hs⟩ := forall₂_exists_of_mem hk.slots.flip he'
    rcases hs.value with hv | hv
    · rw [hv]
      exact ht hx e he
    · exact hv.housed

/-- A block is written into a slot or after another block, or as the first of a sequence. -/
theorem addBlock (hscopes : t.scopes ≠ []) (hn : t.block? b.id = none)
    (hid : ∃ n, b.id = Target.idText "block" n) (hb : b.Scripted t)
    (hchild : ∀ y ∈ b.children, ∀ m, t.block? y = some m → m.topLevel = false)
    (hL : ∀ b', (t.addBlock b).block? b.id = some b' → b'.parent = none → L b.id) :
    t.Enlarged L (t.addBlock b) := by
  have hplaced : ∀ {t₁ : Target} (parent : Option String), t.Enlarged L t₁ →
      t₁.block? b.id = none → t.addBlock b = t₁.register { b with parent } →
      t.Enlarged L (t.addBlock b) := by
    intro t₁ parent h hn₁ heq
    have hwritten : (t₁.register { b with parent }).block? b.id =
        some (if parent.isSome then { b with parent, topLevel := false } else { b with parent }) := by
      rw [Target.block?_register]
      exact if_pos rfl
    rw [heq]
    have hs := h.scripted hb
    refine h.trans (register hn₁ hid ⟨hs.position, hs.topLevel, hs.opcode, hs.apt, hs.assigns,
      hs.calls⟩ (fun hp => ?_) fun y hy => h.topLevel (hchild y hy))
    rw [heq] at hL
    refine hL _ hwritten ?_
    split <;> exact hp
  have hrescoped : t.Enlarged L { t with scopes := (Scopes.place t.scopes t.blocks b.id).2 } :=
    of_blocks rfl rfl rfl (Nat.le_refl _)
  have hn' : Target.block? { t with scopes := (Scopes.place t.scopes t.blocks b.id).2 } b.id =
      none := hn
  cases hp : (Scopes.place t.scopes t.blocks b.id).1 with
  | topLevel =>
    exfalso
    revert hp
    cases hs : t.scopes with
    | nil => exact absurd hs hscopes
    | cons scope outer =>
      rcases scope with ⟨_ | previous, head⟩ | ⟨anchor, start⟩
      · simp [Scopes.place]
      · simp [Scopes.place]
      · simp only [Scopes.place]
        split <;> simp
  | head =>
    refine hplaced none hrescoped hn ?_
    simp only [Target.addBlock, hp, hb.topLevel]
  | next previous =>
    refine hplaced (some previous) (hrescoped.trans (setNext previous (some b.id))) ?_ ?_
    · rw [Target.setNext, Target.block?_modifyBlock, hn', Option.map_none, ite_self]
    · simp only [Target.addBlock, hp]
  | input parent slot =>
    refine hplaced (some parent) (hrescoped.trans (fillSlot_block parent slot b.id)) ?_ ?_
    · rw [Target.fillSlot, Target.block?_modifyBlock, hn', Option.map_none, ite_self]
    · simp only [Target.addBlock, hp]
  | detached =>
    refine hplaced b.parent hrescoped hn ?_
    simp only [Target.addBlock, hp]

/-- A plain value is written into a slot that takes values. -/
theorem assign {v : Operand} (hv : v.slotValue.Bound t)
    (htakes : ∀ id slot scopes b, Scopes.placeValue t.scopes t.blocks = (some (id, slot), scopes) →
      t.block? id = some b → b.Takes slot) : t.Enlarged L (t.assign v) := by
  have hrescoped : t.Enlarged L { t with scopes := (Scopes.placeValue t.scopes t.blocks).2 } :=
    of_blocks rfl rfl rfl (Nat.le_refl _)
  simp only [Target.assign]
  split
  next => exact refl t
  next =>
    split
    next => exact hrescoped
    next id slot hplace =>
      split
      next => exact hrescoped
      next =>
        refine hrescoped.trans (fillSlot id slot fun b hb e he hslot => .of_kind hv ?_)
        exact (htakes id slot _ b (Prod.ext hplace rfl) hb).kind he hslot

theorem redirect (parent : Option String) (statement id : String) :
    t.Enlarged L (t.redirect parent statement id) := by
  simp only [Target.redirect]
  split
  next p b _ =>
    split
    next => exact setNext p (some id)
    next =>
      split
      next slot _ => exact fillSlot_block p slot id
      next => exact refl t
  next => exact of_blocks rfl rfl rfl (Nat.le_refl _)

/-- A loose block is put before a statement below the start of its script. -/
theorem insertBefore {s c : String} {bs bc : Block} (hs : t.block? s = some bs)
    (hsp : bs.position = none) (hst : bs.topLevel = false) (hc : t.block? c = some bc)
    (hcp : bc.position = none) (hct : bc.topLevel = false) (hloose : bc.parent = none) :
    t.Enlarged L (t.insertBefore s c) := by
  simp only [Target.insertBefore, hs]
  refine modify_old (modify_old (redirect bs.parent s c) hc fun b hb => ?_) hs fun b hb => ?_
  · exact ⟨hb.fields, hb.mutation, hb.opcode, hsp.trans hcp.symm, hst.trans hct.symm,
      fun _ => hloose, hb.slots⟩
  · exact ⟨hb.fields, hb.mutation, hb.opcode, hsp.symm, hst.symm, fun hp => absurd hp (by simp),
      hb.slots⟩

end Target.Enlarged

/-! ### Copies -/

namespace Target

variable {t : Target} {Q : String → Prop}

/-- The blocks in `Q` are blocks of scripts, and those in their slots are in `Q` too. -/
def ScriptedBelow (t : Target) (Q : String → Prop) : Prop :=
  ∀ x, Q x → ∃ b, t.block? x = some b ∧ b.Scripted t ∧ ∀ y ∈ b.children, Q y

theorem duplicate_enlarged (hs : Sound t) (hQ : t.ScriptedBelow Q) {root : String} (hroot : Q root)
    (parent : String) : t.Enlarged (fun _ => False) (t.duplicate root parent).2 := by
  have hbelow : ∀ x b, Q x → t.block? x = some b → b.Scripted t ∧ ∀ y ∈ b.children, Q y := by
    intro x b hx hb
    obtain ⟨b₀, hb₀, hbelow⟩ := hQ x hx
    cases hb.symm.trans hb₀
    exact hbelow
  obtain ⟨b, hb, -⟩ := hQ root hroot
  obtain ⟨n, ids, t', -, hdup, hcopies, -⟩ := duplicate_copies hs
    (fun x b hx hb => (hbelow x b hx hb).2) hb hroot parent
  rw [hdup]
  refine .of_tables hcopies.grown.tables (by rw [hcopies.grown.shell]) hcopies.grown.drawn_le
    (fun hx => ⟨_, hcopies.grown.old hx, .refl _ _⟩) fun {x b'} hb' hx => ?_
  obtain ⟨y, b, hy, hb, hclone⟩ := hcopies.origin hb' hx
  obtain ⟨copyOf, p, heq⟩ := hclone.copied
  obtain ⟨m, hm, -⟩ := hcopies.grown.new hb' hx
  rw [heq]
  exact ⟨(hbelow y b hy hb).1.copied copyOf _ p, fun hp => (by cases hp), m, hm⟩

end Target

/-! ### Types -/

namespace Inference

variable {i i' : Inference}

/-- Settling types enlarges a target by nothing. -/
theorem Quiet.enlarged {L : String → Prop} (h : i.Quiet i') (hg : i'.Good) :
    i.target.Enlarged L i'.target := by
  refine .of_tables ?_ ?_ ?_ (fun {x b} hx => ?_) fun {x b} hx hn => ?_
  · rw [h.shell]
    rfl
  · rw [h.shell]
    rfl
  · rw [h.shell]
    exact Nat.le_refl _
  · obtain ⟨b', hb', hk⟩ := h.old hx
    have hplace := congrFun h.places x
    simp only [Target.places, hx, hb', Option.map_some, Option.some.injEq, Prod.mk.injEq] at hplace
    refine ⟨b', hb', .of_eq (congrArg Block.fields hk.face :) (congrArg Block.mutation hk.face :) ?_
      hplace.2 hplace.1 (hk.parent id ▸ ·) (hk.inputs id)⟩
    by_cases ht : i.Tracked x
    · obtain ⟨a, ha⟩ := ht
      obtain ⟨s, p, hs, hpar, hm⟩ := h.tracks.2 ha
      obtain ⟨b'', hb'', -, -, ho⟩ := hg.tracked hs hpar hm
      rw [hb'] at hb''
      cases hb''
      exact .inr ⟨_, ho⟩
    · exact .inl (hk.opcode ht)
  · rw [h.none hn] at hx
    cases hx

end Inference

/-! ### Variables -/

namespace Target

variable {L : String → Prop} {t : Target}

/-- A change of the variables and the comments alone. -/
theorem Enlarged.of_vars {t' : Target} (hb : t'.blocks = t.blocks)
    (hf : t'.functions = t.functions) (hscripts : t'.scripts = t.scripts)
    (hd : ∀ {ref}, t.Declares ref → t'.Declares ref) (hn : t.Numbered → t'.Numbered) :
    t.Enlarged L t' where
  old {x b} hx := ⟨b, by rw [block?, hb]; exact hx, .refl t' b⟩
  new {x b} hx hn := by
    rw [block?, hb] at hx
    rw [block?, hx] at hn
    cases hn
  declares := hd
  functions {f p} hp := by
    rw [functionNamed?, hf]
    exact hp
  scripts := hscripts
  numbered := hn

/-- A variable that is created has an id of its own. -/
theorem createVariable_enlarged (hnames : t.Proper) (name : String) (type : ValueType) :
    t.Enlarged L (t.createVariable name type).2 ∧
      (t.createVariable name type).2.Declares (t.createVariable name type).1 := by
  simp only [createVariable]
  split
  next v hv => exact ⟨.refl t, v, by rw [show v.ref.name = name from hnames.names hv]; exact hv, rfl⟩
  next hnone =>
    have hlookup (x : String) (v : Variable) :
        Target.variableNamed? { t.draw with vars := t.vars.insert name v } x =
          if name = x then some v else t.variableNamed? x := Table.get?_insert t.vars name x v
    refine ⟨.of_vars rfl rfl rfl (fun {ref} hr => ?_) fun hn => ?_, _, (hlookup name _).trans
      (if_pos rfl), rfl⟩
    · obtain ⟨v, hv, href⟩ := hr
      refine ⟨v, ?_, href⟩
      rw [hlookup, if_neg (ne_of_found hnone hv), hv]
    · obtain ⟨ns, hnodup, hle, heq⟩ := hn.vars
      refine ⟨hn.blocks, hn.comments, ⟨ns ++ [t.drawn + 1], ?_, ?_, ?_⟩, ?_⟩
      · refine List.nodup_append.2 ⟨hnodup, by simp, ?_⟩
        intro n hn₁ m hm hnm
        obtain rfl := List.mem_singleton.1 hm
        have := hle n hn₁
        omega
      · intro n hm
        rcases List.mem_append.1 hm with hm | hm
        · exact Nat.le_succ_of_le (hle n hm)
        · obtain rfl := List.mem_singleton.1 hm
          exact Nat.le_refl _
      · have hmem : name ∉ t.vars.keys := (Table.get?_eq_none_iff _ _).1 hnone
        simp only [Table.values, Table.entries_insert_of_not_mem hmem, List.map_append, List.map_cons,
          List.map_nil]
        exact congrArg (· ++ [variableId t.name (t.drawn + 1)]) heq
      · obtain ⟨ms, hms, hle', heq'⟩ := hn.arguments
        exact ⟨ms, hms, fun n hm => Nat.le_succ_of_le (hle' n hm), heq'⟩

/-- A variable keeps its name and its id. -/
theorem modifyVariable_enlarged (name : String) {f : Variable → Variable}
    (hf : ∀ v, (f v).ref = v.ref) : t.Enlarged L (t.modifyVariable name f) := by
  have hlookup (x : String) : (t.modifyVariable name f).variableNamed? x =
      if name = x then (t.variableNamed? x).map f else t.variableNamed? x :=
    Table.get?_modify t.vars name x f
  refine .of_vars rfl rfl rfl (fun {ref} hr => ?_) fun hn => ?_
  · obtain ⟨v, hv, href⟩ := hr
    by_cases hx : name = ref.name
    · exact ⟨f v, by rw [hlookup, if_pos hx, hv]; rfl, (hf v).trans href⟩
    · exact ⟨v, by rw [hlookup, if_neg hx, hv], href⟩
  · refine ⟨hn.blocks, hn.comments, ?_, hn.arguments⟩
    have hids : (t.modifyVariable name f).vars.values.map Variable.id =
        t.vars.values.map Variable.id := by
      simp only [modifyVariable, Table.values, Table.entries_modify, List.map_map]
      refine List.map_congr_left fun e _ => ?_
      simp only [Function.comp_apply]
      split
      next => exact congrArg VariableRef.id (hf e.2)
      next => rfl
    rw [hids]
    exact hn.vars

theorem addComment_enlarged (text : String) : t.Enlarged L (t.addComment text).2 := by
  refine .of_vars rfl rfl rfl id fun hn => ⟨hn.blocks, fun x hx => ?_, ?_, ?_⟩
  · have hkeys : x ∈ t.comments.keys ∨ x = t.freshId "comment" := by
      by_cases hm : t.freshId "comment" ∈ t.comments.keys
      · exact .inl (Table.keys_insert_of_mem hm ▸ hx)
      · simpa [addComment, Table.keys_insert_of_not_mem hm] using hx
    obtain hx | rfl := hkeys
    · exact hn.comments x hx
    · exact ⟨_, rfl⟩
  · obtain ⟨ns, hnodup, hle, heq⟩ := hn.vars
    exact ⟨ns, hnodup, fun n hm => Nat.le_succ_of_le (hle n hm), heq⟩
  · obtain ⟨ns, hnodup, hle, heq⟩ := hn.arguments
    exact ⟨ns, hnodup, fun n hm => Nat.le_succ_of_le (hle n hm), heq⟩

end Target
end ScriptBlocks
