import ScriptBlocks.Inference
import ScriptBlocks.Proofs.Graph

/-!
# What inference changes

Inference settles types that were unresolved and nothing else. A settled type stays, blocks keep
their wiring, and the reporters of an argument are the only blocks whose shape follows a decision.
-/
namespace ScriptBlocks

variable {s s' : Signature} {t t' : Target} {name : String} {f f' : Option Signature} {op : Operand}

/-! ### What checks can change -/

/-- A resolved type leaves the note as it is. -/
theorem Target.note_eq (t : Target) {type : ValueType} (h : type ≠ .unresolved) :
    t.note type = t := by
  simp [note, h]

/-- Settling the type of an argument notes the type and changes nothing else, or it gives an argument
its type and reshapes the reporters. -/
theorem Signature.settle_cases {type : ValueType} (h : s.settle name type t = .ok (s', t')) :
    (s' = s ∧ t' = t.note type ∧ ∀ p, s.arguments.get? name = some p → p.type = type) ∨
    ∃ p, s.arguments.get? name = some p ∧ p.type = .unresolved ∧
      s' = { s with
        arguments := s.arguments.modify name fun p => { p with type }
        settled := s.settled ++ [(name, type)] } ∧
      t' = p.reporters.foldl (fun t id => t.modifyBlock id (reshape type)) (t.note type) := by
  simp only [settle] at h
  split at h
  next hnone =>
    cases h
    exact .inl ⟨rfl, rfl, fun p hp => by simp [hnone] at hp⟩
  next p hp =>
    split at h
    next ht =>
      cases h
      exact .inl ⟨rfl, rfl, fun q hq => Option.mem_unique hp hq ▸ ht⟩
    next =>
      split at h
      next => cases h
      next hu =>
        cases h
        exact .inr ⟨p, hp, Decidable.not_not.1 hu, rfl, rfl⟩

namespace Inference

variable {i i' : Inference} {type : ValueType}

theorem note_eq (i : Inference) (h : type ≠ .unresolved) : i.note type = i := by
  rw [note, Target.note_eq _ h]

theorem eq_of_ite_ok {p : Prop} [Decidable p] {mismatch : TypeMismatch}
    (h : (if p then .ok i else .error mismatch) = Except.ok i') : i' = i := by
  split at h <;> cases h
  rfl

theorem argumentOf?_function {id argument : String} {signature : Signature}
    (h : i.argumentOf? id = some (argument, signature)) : i.function = some signature := by
  simp only [argumentOf?] at h
  split at h
  next hs =>
    split at h <;> cases h
    exact hs
  next => cases h

/-- What asserting a type can change: the type of a block, the result of a function, or an argument
of the function being compiled. -/
theorem assertOperand_cases {operand : Operand} (h : i.assertOperand type operand = .ok i') :
    i' = i ∨
    (∃ id, i' = { i with target := i.target.modifyBlock id ({ · with inferred := type }) }) ∨
    (∃ f, i' = { i with target := i.target.modifyFunction f ({ · with returnType := type }) }) ∨
    ∃ argument s s' t', i.function = some s ∧ s.settle argument type i.target = .ok (s', t') ∧
      i' = ⟨t', some s'⟩ := by
  rcases operand with value | ref | id | ⟨f, ref⟩
  · exact .inl (eq_of_ite_ok h)
  · exact .inl (eq_of_ite_ok h)
  · simp only [assertOperand] at h
    split at h
    next argument s hargument =>
      split at h
      next s' t' hs =>
        cases h
        exact .inr (.inr (.inr ⟨argument, s, s', t', argumentOf?_function hargument, hs, rfl⟩))
      next => cases h
    next =>
      simp only [assertBlock] at h
      split at h
      next =>
        cases h
        exact .inl rfl
      next =>
        split at h
        next =>
          cases h
          exact .inr (.inl ⟨id, rfl⟩)
        next => exact .inl (eq_of_ite_ok h)
  · simp only [assertOperand] at h
    split at h
    next =>
      cases h
      exact .inl rfl
    next =>
      split at h
      next =>
        cases h
        exact .inr (.inr (.inl ⟨f, rfl⟩))
      next => exact .inl (eq_of_ite_ok h)

section Preserves

variable {P : Inference → Prop}
variable (hstep : ∀ {i i' operand}, P i → i.assertOperand type operand = .ok i' → P i')

include hstep

/-- What every single check and the note preserve a check of several operands preserves. -/
theorem assert_preserves (hnote : ∀ {i}, P i → P (i.note type)) (h : P i)
    (operands : List Operand) : P (i.assert type operands).2 := by
  induction operands generalizing i with
  | nil => exact hnote h
  | cons operand operands ih =>
    simp only [assert]
    split
    next i' hi => exact ih (hstep h hi)
    next => exact hnote h

theorem hint_preserves (h : P i) (operands : List Operand) : P (i.hint type operands) := by
  simp only [hint]
  split
  next => exact h
  next hu =>
    have hnote {i : Inference} (h : P i) : P (i.note type) := by rwa [i.note_eq hu]
    induction operands generalizing i with
    | nil => exact h
    | cons operand operands ih =>
      rw [List.foldl_cons]
      refine ih ?_
      split
      next => exact assert_preserves hstep hnote h [operand]
      next => exact h

end Preserves
end Inference

/-! ### What stays -/

/-- What a block does, up to the shape of argument reporters and its type. -/
def Block.face (b : Block) : Block :=
  { b.core with
    opcode := if b.argument.isSome then .reporter false else b.opcode
    inferred := .unresolved }

theorem Block.face_congr {b b' : Block} (h : b'.core = b.core) : b'.face = b.face := by
  have ho : b'.opcode = b.opcode := congrArg (·.opcode) h
  have ha : b'.argument = b.argument := congrArg (·.argument) h
  rw [face, face, h, ho, ha]

/-- Only reporters change their opcode. -/
theorem Block.opcode_of_face {b b' : Block} (h : b'.face = b.face) (ha : b.argument = none) :
    b'.opcode = b.opcode := by
  have ha' : b'.argument = none := (congrArg Block.argument h :).trans ha
  have ho := congrArg Block.opcode h
  simpa [face, ha, ha', core] using ho

/-- The blocks that stand above a script of their own. -/
def Opcode.startsScript : Opcode → Bool
  | .definition => true
  | .flagClicked => true
  | _ => false

def Block.Starts (b : Block) : Prop :=
  b.argument = none ∧ b.opcode.startsScript = true

theorem Block.Starts.of_face {b b' : Block} (h : b.Starts) (hface : b'.face = b.face) :
    b'.Starts := by
  rw [Starts, opcode_of_face hface h.1]
  exact ⟨(congrArg Block.argument hface :).trans h.1, h.2⟩

/-- What a step keeps of a block. The slots may change where `O` holds, the neighbours where `C`
does, and the opcode where the block is a `tracked` reporter. -/
structure Block.Kept (O C tracked : Prop) (b b' : Block) : Prop where
  face : b'.face = b.face
  inputs : ¬ O → b'.inputs = b.inputs
  next : ¬ C → b'.next = b.next
  parent : ¬ C → b'.parent = b.parent
  inferred : b.inferred ≠ .unresolved → b'.inferred = b.inferred
  opcode : ¬ tracked → b'.opcode = b.opcode

namespace Block.Kept

variable {O C T O' C' T' O'' C'' : Prop} {b b' b'' : Block}

theorem refl : Kept O C T b b :=
  ⟨rfl, fun _ => rfl, fun _ => rfl, fun _ => rfl, fun _ => rfl, fun _ => rfl⟩

theorem trans (h : Kept O C T b b') (h' : Kept O' C' T' b' b'') (hO : O ∨ O' → O'')
    (hC : C ∨ C' → C'') (hT : ¬ T → ¬ T') : Kept O'' C'' T b b'' where
  face := h'.face.trans h.face
  inputs ho := (h'.inputs fun o => ho (hO (.inr o))).trans (h.inputs fun o => ho (hO (.inl o)))
  next hc := (h'.next fun c => hc (hC (.inr c))).trans (h.next fun c => hc (hC (.inl c)))
  parent hc := (h'.parent fun c => hc (hC (.inr c))).trans (h.parent fun c => hc (hC (.inl c)))
  inferred hi := by
    have hb := h.inferred hi
    exact (h'.inferred (hb ▸ hi)).trans hb
  opcode ht := (h'.opcode (hT ht)).trans (h.opcode ht)

theorem argument (h : Kept O C T b b') : b'.argument = b.argument :=
  (congrArg Block.argument h.face :)

theorem id_eq (h : Kept O C T b b') : b'.id = b.id :=
  (congrArg Block.id h.face :)

theorem valued (h : Kept O C T b b') (hi : b.inferred ≠ .unresolved ∧ b.inferred ≠ .void) :
    b'.inferred ≠ .unresolved ∧ b'.inferred ≠ .void := by
  rw [h.inferred hi.1]
  exact hi

end Block.Kept

namespace Inference

/-- A block is remembered as a reporter of an argument. -/
def Tracks (i : Inference) (argument x : String) : Prop :=
  ∃ s p, i.function = some s ∧ s.arguments.get? argument = some p ∧ x ∈ p.reporters

def Tracked (i : Inference) (x : String) : Prop :=
  ∃ argument, i.Tracks argument x

end Inference

/-- A function under compilation goes on: arguments keep their ids and settled types. -/
structure Signature.Follows (s s' : Signature) : Prop where
  name : s'.name = s.name
  definition : s'.definition = s.definition
  prototype : s'.prototype = s.prototype
  keys : s'.arguments.keys = s.arguments.keys
  ids : s'.arguments.values.map Parameter.id = s.arguments.values.map Parameter.id
  param : ∀ {a p}, s.arguments.get? a = some p → ∃ p', s'.arguments.get? a = some p' ∧
    (p.type ≠ .unresolved → p'.type = p.type) ∧ ∀ x ∈ p.reporters, x ∈ p'.reporters

theorem Signature.Follows.refl (s : Signature) : s.Follows s :=
  ⟨rfl, rfl, rfl, rfl, rfl, fun h => ⟨_, h, fun _ => rfl, fun _ => id⟩⟩

theorem Signature.Follows.trans {s'' : Signature} (h : s.Follows s') (h' : s'.Follows s'') :
    s.Follows s'' where
  name := h'.name.trans h.name
  definition := h'.definition.trans h.definition
  prototype := h'.prototype.trans h.prototype
  keys := h'.keys.trans h.keys
  ids := h'.ids.trans h.ids
  param := by
    intro a p hp
    obtain ⟨p₁, hp₁, ht₁, hr₁⟩ := h.param hp
    obtain ⟨p₂, hp₂, ht₂, hr₂⟩ := h'.param hp₁
    exact ⟨p₂, hp₂, fun hne => (ht₂ (ht₁ hne ▸ hne)).trans (ht₁ hne), fun x hx => hr₂ x (hr₁ x hx)⟩

/-- The same for the function being compiled, if there is one. Its result is as it was. -/
def Signature.Continues (function function' : Option Signature) : Prop :=
  Option.Rel (fun s s' => s.Follows s' ∧ s'.returnType = s.returnType ∧
    s'.returnVariable = s.returnVariable) function function'

theorem Signature.Continues.refl (function : Option Signature) : Continues function function := by
  cases function with
  | none => exact .none
  | some s => exact .some ⟨.refl s, rfl, rfl⟩

theorem Signature.Continues.trans {f'' : Option Signature} (h : Continues f f')
    (h' : Continues f' f'') : Continues f f'' := by
  cases h with
  | none => exact h'
  | some h =>
    cases h' with
    | some h' => exact .some ⟨h.1.trans h'.1, h'.2.1.trans h.2.1, h'.2.2.trans h.2.2⟩

theorem Signature.Continues.exists_later (h : Continues f f') (hs : f = some s) :
    ∃ s', f' = some s' ∧ s.Follows s' ∧
      s'.returnType = s.returnType ∧ s'.returnVariable = s.returnVariable := by
  subst hs
  cases h with
  | some h => exact ⟨_, rfl, h⟩

theorem Signature.Continues.exists_of_some (h : Continues f f') (hs : f' = some s') :
    ∃ s, f = some s ∧ s.Follows s' ∧
      s'.returnType = s.returnType ∧ s'.returnVariable = s.returnVariable := by
  subst hs
  cases h with
  | some h => exact ⟨_, rfl, h⟩

/-- Changing the parameter of one argument, but not its id. -/
theorem Signature.values_modify_id (s : Signature) (name : String) {f : Parameter → Parameter}
    (hf : ∀ p, (f p).id = p.id) :
    (s.arguments.modify name f).values.map Parameter.id = s.arguments.values.map Parameter.id := by
  rw [Table.values, Table.entries_modify, Table.values, List.map_map, List.map_map, List.map_map]
  refine List.map_congr_left fun e _ => ?_
  simp only [Function.comp_apply]
  split
  next => exact hf e.2
  next => rfl

/-- The type of a value: it is resolved, and not that of a block without value. -/
def ValueType.IsValue (type : ValueType) : Prop :=
  type ≠ .unresolved ∧ type ≠ .void

instance (type : ValueType) : Decidable type.IsValue :=
  inferInstanceAs (Decidable (_ ∧ _))

/-- Variables are filed under their names, no value has the type of a block without value, and
functions are complete. All types that were checked against were resolved. -/
structure Target.Proper (t : Target) : Prop where
  intact : t.intact = true
  names : ∀ {x v}, t.variableNamed? x = some v → v.name = x
  values : ∀ {x v}, t.variableNamed? x = some v → v.type ≠ .void
  built : ∀ {x v}, t.variableNamed? x = some v → v.built = true → v.type ≠ .unresolved
  procs : ∀ {f p}, t.functionNamed? f = some p →
    (p.arguments.values.map Argument.id).Nodup ∧ p.returnType ≠ .unresolved
  arguments : ∀ {f p a}, t.functionNamed? f = some p → a ∈ p.arguments.values → a.type.IsValue
  results : ∀ {f p}, t.functionNamed? f = some p → p.returnType ≠ .void → p.returnVariable ≠ none

theorem Target.Proper.of_tables (h : t.Proper) (htables : t'.tables = t.tables) : t'.Proper := by
  have hvars : t'.vars = t.vars := (congrArg Target.vars htables :)
  have hfuns : t'.functions = t.functions := (congrArg Target.functions htables :)
  refine ⟨(congrArg Target.intact htables :).trans h.intact, fun {x v} hx => ?_, fun {x v} hx => ?_,
    fun {x v} hx => ?_, fun {f p} hf => ?_, fun {f p a} hf => ?_, fun {f p} hf => ?_⟩
  · rw [Target.variableNamed?, hvars] at hx
    exact h.names hx
  · rw [Target.variableNamed?, hvars] at hx
    exact h.values hx
  · rw [Target.variableNamed?, hvars] at hx
    exact h.built hx
  · rw [Target.functionNamed?, hfuns] at hf
    exact h.procs hf
  · rw [Target.functionNamed?, hfuns] at hf
    exact h.arguments hf
  · rw [Target.functionNamed?, hfuns] at hf
    exact h.results hf

/-- The arguments of a function have ids of their own, and no value has the type of a block without
value. -/
structure Signature.Proper (s : Signature) : Prop where
  ids : (s.arguments.values.map Parameter.id).Nodup
  params : ∀ {a p}, s.arguments.get? a = some p → p.type ≠ .void
  result : s.returnType ≠ .void

/-- Where the blocks stand on the canvas. -/
def Target.places (t : Target) : String → Option (Bool × Option Point) :=
  fun x => (t.block? x).map fun b => (b.topLevel, b.position)

theorem Target.places_modifyBlock (t : Target) (id : String) {f : Block → Block}
    (hf : ∀ b, (f b).topLevel = b.topLevel ∧ (f b).position = b.position) :
    (t.modifyBlock id f).places = t.places := by
  funext x
  simp only [places, block?_modifyBlock]
  split
  · cases t.block? x <;> simp [hf]
  · rfl

namespace Inference

/-- Settling types moves no block. -/
theorem places_of_settle {type : ValueType} (h : s.settle name type t = .ok (s', t')) :
    t'.places = t.places := by
  obtain ⟨-, rfl, -⟩ | ⟨p, -, -, -, rfl⟩ := Signature.settle_cases h
  · rfl
  · clear h
    have hnote : (t.note type).places = t.places := rfl
    rw [← hnote]
    generalize p.reporters = ids, t.note type = t
    induction ids generalizing t with
    | nil => rfl
    | cons id ids ih => exact (ih _).trans (t.places_modifyBlock id fun b => ⟨rfl, rfl⟩)

/-- What is remembered stays so. -/
theorem Tracks.continues {a x : String} (h : Tracks ⟨t, f⟩ a x) (hf : Signature.Continues f f') :
    Tracks ⟨t', f'⟩ a x := by
  obtain ⟨s, p, hs, hp, hx⟩ := h
  cases hs
  cases hf with
  | some hf =>
    obtain ⟨p', hp', -, hr⟩ := hf.1.param hp
    exact ⟨_, p', rfl, hp', hr x hx⟩

/-- The state that compilation keeps: tables and signature are in order, and the remembered reporters
of an argument have its type and its shape. -/
structure Good (i : Inference) : Prop where
  tables : i.target.Proper
  signature : ∀ {s}, i.function = some s → s.Proper
  tracked : ∀ {s a p x}, i.function = some s → s.arguments.get? a = some p → x ∈ p.reporters →
    ∃ b, i.target.block? x = some b ∧ b.argument = some a ∧ b.inferred = p.type ∧
      b.opcode = Block.reporterOpcode p.type

/-- Blocks have been added or rewired and types settled: the slots of old blocks outside `O` and
the neighbours of those outside `C` are as they were. -/
structure Advance (O C : String → Prop) (i i' : Inference) : Prop where
  old : ∀ {x b}, i.target.block? x = some b → ∃ b', i'.target.block? x = some b' ∧
    Block.Kept (O x) (C x) (i.Tracked x) b b'
  new : ∀ {x b}, i'.target.block? x = some b → i.target.block? x = none →
    ∃ n, x = Target.idText "block" n ∧ i.target.drawn < n ∧ n ≤ i'.target.drawn
  drawn_le : i.target.drawn ≤ i'.target.drawn
  /-- Only new blocks come to be remembered. -/
  tracked : ∀ {x b}, i.target.block? x = some b → i'.Tracked x → i.Tracked x

namespace Advance

variable {O C O' C' O'' C'' : String → Prop} {i i' i'' : Inference}

theorem refl : Advance O C i i where
  old h := ⟨_, h, .refl⟩
  new h h' := by simp [h] at h'
  drawn_le := Nat.le_refl _
  tracked _ := id

theorem trans (h : Advance O C i i') (h' : Advance O' C' i' i'')
    (hO : ∀ x b, i.target.block? x = some b → O x ∨ O' x → O'' x)
    (hC : ∀ x b, i.target.block? x = some b → C x ∨ C' x → C'' x) : Advance O'' C'' i i'' where
  old := by
    intro x b hx
    obtain ⟨b₁, hb₁, hk₁⟩ := h.old hx
    obtain ⟨b₂, hb₂, hk₂⟩ := h'.old hb₁
    exact ⟨b₂, hb₂, hk₁.trans hk₂ (hO x b hx) (hC x b hx) fun ht ht' => ht (h.tracked hx ht')⟩
  new := by
    intro x b hb hx
    cases hx₁ : i'.target.block? x with
    | none =>
      obtain ⟨n, hn, hlt, hle⟩ := h'.new hb hx₁
      exact ⟨n, hn, Nat.lt_of_le_of_lt h.drawn_le hlt, hle⟩
    | some b₁ =>
      obtain ⟨n, hn, hlt, hle⟩ := h.new hx₁ hx
      exact ⟨n, hn, hlt, Nat.le_trans hle h'.drawn_le⟩
  drawn_le := Nat.le_trans h.drawn_le h'.drawn_le
  tracked := by
    intro x b hx ht
    obtain ⟨b₁, hb₁, -⟩ := h.old hx
    exact h.tracked hx (h'.tracked hb₁ ht)

theorem mono (h : Advance O C i i') (hO : ∀ x b, i.target.block? x = some b → O x → O' x)
    (hC : ∀ x b, i.target.block? x = some b → C x → C' x) : Advance O' C' i i' :=
  refl (O := fun _ => False) (C := fun _ => False) |>.trans h
    (fun x b hx ho => hO x b hx (ho.resolve_left id)) fun x b hx hc => hC x b hx (hc.resolve_left id)

end Advance

/-- Wiring is such a step. -/
theorem Advance.ofRewired {O C : String → Prop} (h : Rewired O C t t') (function : Option Signature) :
    Advance O C ⟨t, function⟩ ⟨t', function⟩ where
  old := by
    intro x b hx
    obtain ⟨b', hb', hcore, hin, hl⟩ := h.old hx
    exact ⟨b', hb', Block.face_congr hcore, hin, fun hc => (hl hc).1, fun hc => (hl hc).2,
      fun _ => congrArg (·.inferred) hcore, fun _ => congrArg (·.opcode) hcore⟩
  new := h.new
  drawn_le := h.drawn_le
  tracked _ := id

theorem Good.rewired {O C : String → Prop} {function : Option Signature} (hg : Good ⟨t, function⟩)
    (h : Rewired O C t t') : Good ⟨t', function⟩ where
  tables := hg.tables.of_tables h.tables
  signature := hg.signature
  tracked {s a p x} hs hp hx := by
    obtain ⟨b, hb, ha, hi, ho⟩ := hg.tracked hs hp hx
    obtain ⟨b', hb', hcore, -⟩ := h.old hb
    exact ⟨b', hb', (congrArg Block.argument hcore :).trans ha,
      (congrArg Block.inferred hcore :).trans hi, (congrArg Block.opcode hcore :).trans ho⟩

/-- Types may have been settled, and nothing else has changed. No block has moved. -/
structure Quiet (i i' : Inference) : Prop where
  old : ∀ {x b}, i.target.block? x = some b → ∃ b', i'.target.block? x = some b' ∧
    Block.Kept False False (i.Tracked x) b b'
  none : ∀ {x}, i.target.block? x = none → i'.target.block? x = none
  shell : i'.target = i.target.withBlocks i'.target.blocks
  function : Signature.Continues i.function i'.function
  tracks : ∀ {a x}, i'.Tracks a x ↔ i.Tracks a x
  places : i'.target.places = i.target.places

namespace Quiet

variable {i i' i'' : Inference}

theorem refl (i : Inference) : Quiet i i where
  old h := ⟨_, h, .refl⟩
  none := id
  shell := rfl
  function := .refl i.function
  tracks := .rfl
  places := rfl

theorem trans (h : Quiet i i') (h' : Quiet i' i'') : Quiet i i'' where
  old := by
    intro x b hx
    obtain ⟨b₁, hb₁, hk₁⟩ := h.old hx
    obtain ⟨b₂, hb₂, hk₂⟩ := h'.old hb₁
    refine ⟨b₂, hb₂, hk₁.trans hk₂ (by simp) (by simp) ?_⟩
    rintro ht ⟨a, ha⟩
    exact ht ⟨a, h.tracks.1 ha⟩
  none hx := h'.none (h.none hx)
  shell := by
    rw [h'.shell, h.shell]
    rfl
  function := h.function.trans h'.function
  tracks := h'.tracks.trans h.tracks
  places := h'.places.trans h.places

theorem advance (h : Quiet i i') {O C : String → Prop} : Advance O C i i' where
  old hx := by
    obtain ⟨b', hb', hk⟩ := h.old hx
    exact ⟨b', hb', hk.face, fun _ => hk.inputs id, fun _ => hk.next id, fun _ => hk.parent id,
      hk.inferred, hk.opcode⟩
  new hb hx := by simp [h.none hx] at hb
  drawn_le := by
    rw [h.shell]
    exact Nat.le_refl _
  tracked := by
    rintro x b - ⟨a, ha⟩
    exact ⟨a, h.tracks.1 ha⟩

theorem links_eq (h : Quiet i i') : i'.target.links = i.target.links := by
  funext x
  cases hx : i.target.block? x with
  | none => simp [Target.links, hx, h.none hx]
  | some b =>
    obtain ⟨b', hb', hk⟩ := h.old hx
    simp only [Target.links, hx, hb', Option.map_some, Block.links, hk.id_eq, hk.next id,
      hk.parent id, hk.inputs id]

end Quiet

theorem Follows.settle (s : Signature) {p : Parameter} (type : ValueType)
    (hp : s.arguments.get? name = some p) (hu : p.type = .unresolved) : s.Follows { s with
      arguments := s.arguments.modify name fun p => { p with type }
      settled := s.settled ++ [(name, type)] } where
  name := rfl
  definition := rfl
  prototype := rfl
  keys := Table.keys_modify ..
  ids := s.values_modify_id name fun _ => rfl
  param := by
    intro a q hq
    rw [Table.get?_modify]
    by_cases ha : name = a
    · subst ha
      rw [hp] at hq
      cases hq
      exact ⟨{ p with type }, by simp [hp], fun hne => absurd hu hne, fun _ => id⟩
    · exact ⟨q, by simp [ha, hq], fun _ => rfl, fun _ => id⟩

/-- Settling the type of an argument reshapes its reporters. -/
theorem settle_quiet {i : Inference} {type : ValueType} (hg : i.Good) (hv : type.IsValue)
    (hs : i.function = some s) (h : s.settle name type i.target = .ok (s', t')) :
    Quiet i ⟨t', some s'⟩ ∧ Good ⟨t', some s'⟩ ∧
      ∀ p, s.arguments.get? name = some p → ∃ p', s'.arguments.get? name = some p' ∧
        p'.type = type := by
  obtain ⟨t, function⟩ := i
  cases hs
  have hplaces := places_of_settle h
  have hcases := Signature.settle_cases h
  rw [t.note_eq hv.1] at hcases
  obtain ⟨rfl, rfl, htype⟩ | ⟨p, hp, hu, rfl, rfl⟩ := hcases
  · exact ⟨.refl _, hg, fun p hp => ⟨p, hp, htype p hp⟩⟩
  · have hlookup (x : String) := Target.block?_foldl_modifyBlock (f := Signature.reshape type)
      (fun _ => rfl) t p.reporters x
    have hget : ∀ a q, (s.arguments.modify name fun p => { p with type }).get? a = some q →
        ∃ q₀, s.arguments.get? a = some q₀ ∧ q.reporters = q₀.reporters ∧
          (a = name → q₀ = p ∧ q.type = type) ∧ (a ≠ name → q = q₀) := by
      intro a q hq
      rw [Table.get?_modify] at hq
      by_cases ha : name = a
      · subst ha
        simp only [if_true, hp, Option.map_some, Option.some.injEq] at hq
        subst hq
        exact ⟨p, hp, rfl, fun _ => ⟨rfl, rfl⟩, fun hne => absurd rfl hne⟩
      · rw [if_neg ha] at hq
        exact ⟨q, hq, rfl, fun he => absurd he.symm ha, fun _ => rfl⟩
    have htracks : ∀ {a x}, Tracks ⟨p.reporters.foldl (fun t id => t.modifyBlock id
        (Signature.reshape type)) t, some { s with
          arguments := s.arguments.modify name fun p => { p with type }
          settled := s.settled ++ [(name, type)] }⟩ a x ↔ Tracks ⟨t, some s⟩ a x := by
      intro a x
      constructor
      · rintro ⟨s', q, hs', hq, hx⟩
        cases hs'
        obtain ⟨q₀, hq₀, hr, -⟩ := hget a q hq
        exact ⟨s, q₀, rfl, hq₀, hr ▸ hx⟩
      · rintro ⟨s', q, hs', hq, hx⟩
        cases hs'
        obtain ⟨q', hq', -, hr⟩ := (Follows.settle s type hp hu).param hq
        exact ⟨_, q', rfl, hq', hr x hx⟩
    refine ⟨⟨fun {x b} hx => ?_, fun {x} hx => ?_, ?_, ?_, htracks, hplaces⟩, ⟨?_, ?_, ?_⟩, ?_⟩
    · rw [hlookup]
      by_cases hm : x ∈ p.reporters
      · obtain ⟨b', hb', ha, hi, -⟩ := hg.tracked rfl hp hm
        rw [show t.block? x = some b from hx] at hb'
        cases hb'
        refine ⟨Signature.reshape type b, by simp [hm]; exact ⟨b, hx, rfl⟩, ?_, fun _ => rfl,
          fun _ => rfl, fun _ => rfl, fun hne => absurd (hi.trans hu) hne,
          fun ht => absurd ⟨name, s, p, rfl, hp, hm⟩ ht⟩
        simp [Block.face, Signature.reshape, Block.core, ha]
      · exact ⟨b, by simp [hm]; exact hx, .refl⟩
    · rw [hlookup]
      have : t.block? x = none := hx
      simp [this]
    · exact Target.foldl_modifyBlock_eq t (Signature.reshape type) p.reporters
    · exact .some ⟨Follows.settle s type hp hu, rfl, rfl⟩
    · refine hg.tables.of_tables ?_
      rw [Target.foldl_modifyBlock_eq]
      rfl
    · rintro s' ⟨⟩
      have hproper : s.Proper := hg.signature rfl
      refine ⟨?_, fun {a q} hq => ?_, hproper.result⟩
      · rw [(Follows.settle s type hp hu).ids]
        exact hproper.ids
      · obtain ⟨q₀, hq₀, -, hname, hother⟩ := hget a q hq
        by_cases han : a = name
        · rw [(hname han).2]
          exact hv.2
        · rw [hother han]
          exact hproper.params hq₀
    · rintro s' a q x ⟨⟩ hq hx
      obtain ⟨q₀, hq₀, hr, hname, hother⟩ := hget a q hq
      obtain ⟨b, hb, ha, hi, ho⟩ := hg.tracked rfl hq₀ (hr ▸ hx)
      by_cases han : a = name
      · obtain ⟨rfl, htype⟩ := hname han
        refine ⟨Signature.reshape type b, ?_, ha, htype.symm, by rw [htype]; rfl⟩
        rw [hlookup, if_pos (hr ▸ hx), show t.block? x = some b from hb]
        rfl
      · have hx' : x ∉ p.reporters := by
          intro hm
          obtain ⟨b', hb', ha', -⟩ := hg.tracked rfl hp hm
          rw [hb] at hb'
          cases hb'
          rw [ha] at ha'
          exact han (Option.some.inj ha')
        rw [hother han]
        exact ⟨b, by rw [hlookup, if_neg hx']; exact hb, ha, hi, ho⟩
    · intro q hq
      rw [hp] at hq
      cases hq
      exact ⟨{ p with type }, by simp [Table.get?_modify, hp], rfl⟩

/-- An operand names something that exists. The reporter of an argument is remembered, and any other
block gives a value of a settled type. -/
def Known (i : Inference) : Operand → Prop
  | .literal _ => True
  | .variable ref => ∃ v, i.target.builtVariable? ref.name = some v ∧ v.ref = ref
  | .call f result => ∃ p, i.target.functionNamed? f = some p ∧ p.returnVariable = result ∧
      p.returnType ≠ .void
  | .block id => ∃ b, i.target.block? id = some b ∧ (∀ a, b.argument = some a → i.Tracks a id) ∧
      (b.argument = none → b.inferred ≠ .unresolved ∧ b.inferred ≠ .void)

/-- An operand has a type. -/
def Has (i : Inference) : Operand → ValueType → Prop
  | .literal value, type => value.type = type
  | .variable ref, type => i.variableType ref.name = type
  | .call f _, type => ∃ p, i.target.functionNamed? f = some p ∧ p.returnType = type
  | .block id, type => ∃ b, i.target.block? id = some b ∧ b.inferred = type

theorem Quiet.known {i i' : Inference} (h : Quiet i i') (hk : i.Known op) : i'.Known op := by
  rcases op with value | ref | id | ⟨f, result⟩
  · trivial
  · obtain ⟨v, hv, hr⟩ := hk
    refine ⟨v, ?_, hr⟩
    rw [h.shell]
    exact hv
  · obtain ⟨b, hb, ha, hi⟩ := hk
    obtain ⟨b', hb', hkept⟩ := h.old hb
    exact ⟨b', hb', fun a hba => h.tracks.2 (ha a (hkept.argument ▸ hba)), fun hba =>
      hkept.valued (hi (hkept.argument ▸ hba))⟩
  · obtain ⟨p, hp, hr⟩ := hk
    refine ⟨p, ?_, hr⟩
    rw [h.shell]
    exact hp

/-- Settled types stay. -/
theorem Quiet.has {i i' : Inference} (h : Quiet i i') {type : ValueType} (ht : type ≠ .unresolved)
    (hh : i.Has op type) : i'.Has op type := by
  rcases op with value | ref | id | ⟨f, result⟩
  · exact hh
  · simp only [Has, variableType] at hh ⊢
    rw [h.shell]
    exact hh
  · obtain ⟨b, hb, hi⟩ := hh
    obtain ⟨b', hb', hkept⟩ := h.old hb
    exact ⟨b', hb', (hkept.inferred (hi ▸ ht)).trans hi⟩
  · obtain ⟨p, hp, hr⟩ := hh
    refine ⟨p, ?_, hr⟩
    rw [h.shell]
    exact hp

/-- What is known to have a value is not taken for a block without one. -/
theorem Good.expected_ne_void {i : Inference} (hg : i.Good) (hk : i.Known op) :
    i.expected op ≠ .void := by
  rcases op with value | ref | id | ⟨f, result⟩
  · cases value with
    | text text =>
      simp only [expected, Literal.type]
      split <;> simp
    | _ => simp [expected, Literal.type]
  · obtain ⟨v, hv, -⟩ := hk
    have hv' : i.target.variableNamed? ref.name = some v := (Option.filter_eq_some_iff.1 hv).1
    simpa [expected, variableType, hv'] using hg.tables.values hv'
  · obtain ⟨b, hb, ht, hi⟩ := hk
    simp only [expected, hb]
    cases ha : b.argument with
    | none => exact (hi ha).2
    | some a =>
      obtain ⟨s, p, hs, hp, -⟩ := ht a ha
      simpa [hs, Signature.argumentType?, hp] using (hg.signature hs).params hp
  · obtain ⟨p, hp, -, hv⟩ := hk
    simpa [expected, hp] using hv

/-- A remembered block reports an argument of the current function. -/
theorem Good.argumentOf? {i : Inference} (hg : i.Good) {a x : String} (h : i.Tracks a x) :
    ∃ s, i.function = some s ∧ i.argumentOf? x = some (a, s) := by
  obtain ⟨s, p, hs, hp, hx⟩ := h
  obtain ⟨b, hb, ha, -⟩ := hg.tracked hs hp hx
  refine ⟨s, hs, ?_⟩
  simp [Inference.argumentOf?, hb, ha, hs, Signature.hasArgument, Table.contains, hp]

theorem assertBlock_quiet {i i' : Inference} {type : ValueType} {id : String} (hg : i.Good)
    (hnot : i.argumentOf? id = none) (h : i.assertBlock type id = .ok i') :
    Quiet i i' ∧ i'.Good ∧ (i.Known (.block id) → i'.Has (.block id) type) := by
  have huntracked : ¬ i.Tracked id := by
    rintro ⟨a, ha⟩
    obtain ⟨s, -, hs⟩ := hg.argumentOf? ha
    simp [hnot] at hs
  simp only [assertBlock] at h
  split at h
  next hb =>
    cases h
    refine ⟨.refl i, hg, ?_⟩
    rintro ⟨b, hb', -⟩
    simp [hb] at hb'
  next b hb =>
    split at h
    next hu =>
      cases h
      have hlookup (x : String) := Target.block?_modifyBlock i.target id x ({ · with inferred := type })
      refine ⟨⟨fun {x b'} hx => ?_, fun {x} hx => ?_, rfl, (Quiet.refl i).function, .rfl,
          i.target.places_modifyBlock id fun b => ⟨rfl, rfl⟩⟩,
        ⟨hg.tables.of_tables rfl, hg.signature, ?_⟩, ?_⟩
      · rw [hlookup]
        by_cases hxid : id = x
        · subst hxid
          rw [hb] at hx
          cases hx
          exact ⟨{ b with inferred := type }, by simp [hb], rfl, fun _ => rfl, fun _ => rfl,
            fun _ => rfl, fun hne => absurd hu hne, fun _ => rfl⟩
        · exact ⟨b', by simp [hxid, hx], .refl⟩
      · rw [hlookup, hx]
        simp
      · intro s a p x hs hp hx
        obtain ⟨b', hb', hr⟩ := hg.tracked hs hp hx
        have hxid : id ≠ x := by
          rintro rfl
          exact huntracked ⟨a, s, p, hs, hp, hx⟩
        exact ⟨b', by rw [hlookup, if_neg hxid, hb'], hr⟩
      · intro _
        exact ⟨{ b with inferred := type }, by simp [hlookup, hb], rfl⟩
    next =>
      split at h
      next ht =>
        cases h
        exact ⟨.refl i, hg, fun _ => ⟨b, hb, ht⟩⟩
      next => cases h

theorem assertOperand_quiet {i i' : Inference} {type : ValueType} (hg : i.Good) (hv : type.IsValue)
    (h : i.assertOperand type op = .ok i') :
    Quiet i i' ∧ i'.Good ∧ (i.Known op → i'.Has op type) := by
  rcases op with value | ref | id | ⟨f, result⟩ <;> simp only [assertOperand] at h
  · split at h
    next ht =>
      cases h
      exact ⟨.refl i, hg, fun _ => ht⟩
    next => cases h
  · split at h
    next ht =>
      cases h
      exact ⟨.refl i, hg, fun _ => ht⟩
    next => cases h
  · split at h
    next a s hs =>
      have hfun : i.function = some s := argumentOf?_function hs
      split at h
      next s' t' hset =>
        cases h
        obtain ⟨hq, hg', htype⟩ := settle_quiet hg hv hfun hset
        refine ⟨hq, hg', ?_⟩
        rintro ⟨b, hb, hknown, -⟩
        have hba : b.argument = some a := by
          simp only [argumentOf?, hb, Option.bind_some, hfun] at hs
          split at hs
          next hba _ =>
            split at hs
            next => cases hs; assumption
            next => cases hs
          next => cases hs
        obtain ⟨s₀, p, hs₀, hp, hx⟩ := hknown a hba
        rw [hfun] at hs₀
        cases hs₀
        obtain ⟨p', hp', hpt⟩ := htype p hp
        obtain ⟨s₁, p₁, hs₁, hp₁, hx₁⟩ := hq.tracks.2 (hknown a hba)
        cases hs₁
        rw [hp'] at hp₁
        cases hp₁
        obtain ⟨b', hb', -, hi', -⟩ := hg'.tracked rfl hp' hx₁
        exact ⟨b', hb', hi'.trans hpt⟩
      next => cases h
    next hs => exact assertBlock_quiet hg hs h
  · split at h
    next hf =>
      cases h
      refine ⟨.refl i, hg, ?_⟩
      rintro ⟨p, hp, -⟩
      simp [hf] at hp
    next p hp =>
      split at h
      next hu => exact absurd hu (hg.tables.procs hp).2
      next =>
        split at h
        next ht =>
          cases h
          exact ⟨.refl i, hg, fun _ => ⟨p, hp, ht⟩⟩
        next => cases h

/-- What is checked has the type afterwards, unless one of the operands disagrees. -/
theorem assert_quiet {i : Inference} {type : ValueType} (hv : type.IsValue) (ops : List Operand)
    (hg : i.Good) :
    Quiet i (i.assert type ops).2 ∧ (i.assert type ops).2.Good ∧
      ((i.assert type ops).1 = none →
        ∀ op ∈ ops, i.Known op → (i.assert type ops).2.Has op type) := by
  induction ops generalizing i with
  | nil =>
    rw [assert, i.note_eq hv.1]
    exact ⟨.refl i, hg, by simp⟩
  | cons op ops ih =>
    simp only [assert]
    cases ha : i.assertOperand type op with
    | error mismatch =>
      dsimp only
      rw [i.note_eq hv.1]
      exact ⟨.refl i, hg, by simp⟩
    | ok i' =>
      obtain ⟨hq, hg', hhas⟩ := assertOperand_quiet hg hv ha
      obtain ⟨hq', hg'', hall⟩ := ih hg'
      refine ⟨hq.trans hq', hg'', fun hn op' hm hk => ?_⟩
      obtain rfl | hm := List.mem_cons.1 hm
      · exact hq'.has hv.1 (hhas hk)
      · exact hall hn op' hm (hq.known hk)

theorem hint_quiet {i : Inference} {type : ValueType} (hv : type ≠ .void) (ops : List Operand)
    (hg : i.Good) : Quiet i (i.hint type ops) ∧ (i.hint type ops).Good := by
  by_cases hu : type = .unresolved
  · rw [hint, if_pos hu]
    exact ⟨.refl i, hg⟩
  refine hint_preserves (P := fun i' => Quiet i i' ∧ i'.Good) (fun {i₁ i₂ op} h ha => ?_)
    ⟨.refl i, hg⟩ ops
  obtain ⟨hq, hg', -⟩ := assertOperand_quiet h.2 ⟨hu, hv⟩ ha
  exact ⟨h.1.trans hq, hg'⟩

end Inference

end ScriptBlocks
