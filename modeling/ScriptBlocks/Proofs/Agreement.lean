import ScriptBlocks.Proofs.Inferred

/-!
# Checks agree with known types

Asking for the type of an operand and checking it against a type look it up separately. Here they
are shown to agree: a check succeeds if and only if every operand has the type or can adopt it, and
it fails with the type that the first other operand is known to have. `Adopts` says what a check can
do to the state on the way, for one operand and then for many. A type that is resolved stays,
because only what is unresolved adopts another type.
-/
namespace ScriptBlocks

variable {id a : String} {s : Signature} {b : Block}

/-- Whether the type of an operand can be decided by its use. Literals and variables have theirs. -/
def Operand.isOpen : Operand → Bool
  | .literal _ => false
  | .variable _ => false
  | .block _ => true
  | .call _ _ => true

namespace Inference

variable {i i' i'' : Inference} {type : ValueType} {operand : Operand}

/-- The blocks that are remembered for an argument report that argument, as far as they exist. -/
def Faithful (i : Inference) : Prop :=
  ∀ ⦃a x : String⦄ ⦃b : Block⦄, i.Tracks a x → i.target.block? x = some b → b.argument = some a

/-- What an operand refers to exists. -/
def Present (i : Inference) : Operand → Prop
  | .literal _ => True
  | .variable _ => True
  | .block id => (i.target.block? id).isSome
  | .call f _ => (i.target.functionNamed? f).isSome

/-- An operand has the type, or has none yet and adopts it. -/
def Admits (i : Inference) (type : ValueType) (operand : Operand) : Prop :=
  i.expected operand = type ∨ i.expected operand = .unresolved ∧ operand.isOpen = true

/-- Types that are resolved stay: those of arguments, of blocks other than remembered reporters, of
results and of variables. -/
structure Refines (i i' : Inference) : Prop where
  function : ∀ {s}, i.function = some s → ∃ s', i'.function = some s' ∧
    s'.returnType = s.returnType ∧ ∀ {a type}, s.argumentType? a = some type →
      type ≠ .unresolved → s'.argumentType? a = some type
  blocks : ∀ {x b}, i.target.block? x = some b → b.argument = none ∨ ¬ i.Tracked x →
    b.inferred ≠ .unresolved → ∃ b', i'.target.block? x = some b' ∧ b'.inferred = b.inferred
  results : ∀ {f p}, i.target.functionNamed? f = some p → p.returnType ≠ .unresolved →
    ∃ p', i'.target.functionNamed? f = some p' ∧ p'.returnType = p.returnType
  vars : i'.target.vars = i.target.vars

/-- What checks against a type do. Whatever changes its type had none, and has this one now. -/
structure Adopts (type : ValueType) (i i' : Inference) : Prop where
  expected : ∀ operand, i'.expected operand = i.expected operand ∨
    i.expected operand = .unresolved ∧ operand.isOpen = true ∧ i'.expected operand = type
  tracks : ∀ {a x}, i'.Tracks a x ↔ i.Tracks a x
  function : ∀ {s}, i.function = some s → ∃ s', i'.function = some s' ∧
    s'.returnType = s.returnType ∧ ∀ {a type}, s.argumentType? a = some type →
      type ≠ .unresolved → s'.argumentType? a = some type
  blocks : ∀ {x b}, i.target.block? x = some b → ∃ b', i'.target.block? x = some b' ∧
    b'.argument = b.argument ∧ (¬ i.Tracked x → b.inferred ≠ .unresolved → b'.inferred = b.inferred)
  absent : ∀ {x}, i.target.block? x = none → i'.target.block? x = none
  results : ∀ {f p}, i.target.functionNamed? f = some p →
    ∃ p', i'.target.functionNamed? f = some p' ∧
      (p.returnType ≠ .unresolved → p'.returnType = p.returnType)
  vars : i'.target.vars = i.target.vars

namespace Adopts

theorem flagged (type : ValueType) (i : Inference) (intact : Bool) :
    Adopts type i { i with target := { i.target with intact } } where
  expected operand := .inl (by cases operand <;> rfl)
  tracks := .rfl
  function hs := ⟨_, hs, rfl, fun ha _ => ha⟩
  blocks hx := ⟨_, hx, rfl, fun _ _ => rfl⟩
  absent := id
  results hf := ⟨_, hf, fun _ => rfl⟩
  vars := rfl

theorem refl (type : ValueType) (i : Inference) : Adopts type i i :=
  .flagged type i i.target.intact

theorem note (type : ValueType) (i : Inference) : Adopts type i (i.note type) :=
  .flagged type i _

theorem trans (h : Adopts type i i') (h' : Adopts type i' i'') : Adopts type i i'' where
  expected operand := by
    obtain he | ⟨hu, hopen, he⟩ := h.expected operand
    · obtain he' | ⟨hu', hopen, he'⟩ := h'.expected operand
      · exact .inl (he'.trans he)
      · exact .inr ⟨he ▸ hu', hopen, he'⟩
    · refine .inr ⟨hu, hopen, ?_⟩
      obtain he' | ⟨-, -, he'⟩ := h'.expected operand
      · exact he'.trans he
      · exact he'
  tracks := h'.tracks.trans h.tracks
  function hs := by
    obtain ⟨s₁, hs₁, hr₁, ha₁⟩ := h.function hs
    obtain ⟨s₂, hs₂, hr₂, ha₂⟩ := h'.function hs₁
    exact ⟨s₂, hs₂, hr₂.trans hr₁, fun ha hne => ha₂ (ha₁ ha hne) hne⟩
  blocks hx := by
    obtain ⟨b₁, hb₁, ha₁, hi₁⟩ := h.blocks hx
    obtain ⟨b₂, hb₂, ha₂, hi₂⟩ := h'.blocks hb₁
    refine ⟨b₂, hb₂, ha₂.trans ha₁, fun ht hne => ?_⟩
    have ht₁ : ¬ i'.Tracked _ := fun ⟨a, ha⟩ => ht ⟨a, h.tracks.1 ha⟩
    have hkept := hi₁ ht hne
    exact (hi₂ ht₁ (hkept ▸ hne)).trans hkept
  absent hx := h'.absent (h.absent hx)
  results hf := by
    obtain ⟨p₁, hp₁, hr₁⟩ := h.results hf
    obtain ⟨p₂, hp₂, hr₂⟩ := h'.results hp₁
    exact ⟨p₂, hp₂, fun hne => (hr₂ (hr₁ hne ▸ hne)).trans (hr₁ hne)⟩
  vars := h'.vars.trans h.vars

theorem present (h : Adopts type i i') : i.Present operand → i'.Present operand := by
  rcases operand with value | ref | x | ⟨f, result⟩
  · exact id
  · exact id
  · simp only [Present, Option.isSome_iff_exists]
    rintro ⟨b, hb⟩
    obtain ⟨b', hb', -⟩ := h.blocks hb
    exact ⟨b', hb'⟩
  · simp only [Present, Option.isSome_iff_exists]
    rintro ⟨p, hp⟩
    obtain ⟨p', hp', -⟩ := h.results hp
    exact ⟨p', hp'⟩

theorem faithful (h : Adopts type i i') (hf : i.Faithful) : i'.Faithful := by
  intro a x b' ht hb'
  cases hx : i.target.block? x with
  | none => simp [h.absent hx] at hb'
  | some b =>
    obtain ⟨b₁, hb₁, ha, -⟩ := h.blocks hx
    obtain rfl := Option.mem_unique hb₁ hb'
    exact ha.trans (hf (h.tracks.1 ht) hx)

theorem admits_iff (h : Adopts type i i') : i'.Admits type operand ↔ i.Admits type operand := by
  obtain he | ⟨hu, hopen, he⟩ := h.expected operand
  · rw [Admits, Admits, he]
  · exact ⟨fun _ => .inr ⟨hu, hopen⟩, fun _ => .inl he⟩

/-- An operand that has the type keeps it. -/
theorem expected_eq (h : Adopts type i i') (ht : i.expected operand = type) :
    i'.expected operand = type := by
  obtain he | ⟨-, -, he⟩ := h.expected operand
  · exact he.trans ht
  · exact he

/-- An operand that does not admit the type is as it was. -/
theorem expected_of_not_admits (h : Adopts type i i') (hn : ¬ i.Admits type operand) :
    i'.expected operand = i.expected operand := by
  obtain he | ⟨hu, hopen, -⟩ := h.expected operand
  · exact he
  · exact absurd (.inr ⟨hu, hopen⟩) hn

theorem refines (h : Adopts type i i') (hf : i.Faithful) : i.Refines i' where
  function := h.function
  blocks {x b} hx hfree hne := by
    have ht : ¬ i.Tracked x := by
      rintro ⟨a, ha⟩
      obtain hnone | hnot := hfree
      · cases hnone.symm.trans (hf ha hx)
      · exact hnot ⟨a, ha⟩
    obtain ⟨b', hb', -, hi⟩ := h.blocks hx
    exact ⟨b', hb', hi ht hne⟩
  results hp hne := by
    obtain ⟨p', hp', hr⟩ := h.results hp
    exact ⟨p', hp', hr hne⟩
  vars := h.vars

end Adopts

/-! ### Where the type of a block is found -/

theorem argumentOf?_eq_some (h : i.argumentOf? id = some (a, s)) :
    ∃ b p, i.target.block? id = some b ∧ b.argument = some a ∧ i.function = some s ∧
      s.arguments.get? a = some p := by
  simp only [argumentOf?] at h
  split at h
  next a' s' ha hs =>
    split at h
    next hhas =>
      cases h
      obtain ⟨b, hb, hba⟩ := Option.bind_eq_some_iff.1 ha
      obtain ⟨p, hp⟩ := Option.isSome_iff_exists.1 hhas
      exact ⟨b, p, hb, hba, hs, hp⟩
    next => cases h
  next => cases h

/-- A block for an argument of the current function has the type of the argument. -/
theorem expected_argument {p : Parameter} (hb : i.target.block? id = some b)
    (ha : b.argument = some a) (hs : i.function = some s) (hp : s.arguments.get? a = some p) :
    i.expected (.block id) = p.type := by
  simp only [expected, hb, ha, hs, Signature.argumentType?, hp, Option.map_some, Option.getD_some]

/-- Every other block has a type of its own. -/
theorem expected_block (hb : i.target.block? id = some b) (hnone : i.argumentOf? id = none) :
    i.expected (.block id) = b.inferred := by
  simp only [expected, hb]
  split
  next a s ha hs =>
    have hget : s.arguments.get? a = none := by
      simpa [argumentOf?, hb, ha, hs, Signature.hasArgument, Table.contains,
        Option.isSome_iff_ne_none] using hnone
    simp only [Signature.argumentType?, hget, Option.map_none, Option.getD_none]
  next => rfl

/-! ### One operand -/

theorem functionNamed?_modifyFunction (t : Target) (f g : String) (u : Procedure → Procedure) :
    (t.modifyFunction f u).functionNamed? g =
      if f = g then (t.functionNamed? g).map u else t.functionNamed? g :=
  Table.get?_modify t.functions f g u

/-- A function whose result has no type adopts one. -/
theorem Adopts.modifyFunction {f : String} {p : Procedure}
    (hp : i.target.functionNamed? f = some p) (hu : p.returnType = .unresolved) :
    Adopts type i
      { i with target := i.target.modifyFunction f ({ · with returnType := type }) } := by
  have hlookup (g : String) :=
    functionNamed?_modifyFunction i.target f g ({ · with returnType := type })
  refine ⟨fun operand => ?_, .rfl,
    fun hs => ⟨_, hs, rfl, fun ha _ => ha⟩, fun hx => ⟨_, hx, rfl, fun _ _ => rfl⟩, id,
    fun {g q} hq => ?_, rfl⟩
  · rcases operand with value | ref | id | ⟨g, result⟩
    · exact .inl rfl
    · exact .inl rfl
    · exact .inl rfl
    · by_cases hg : f = g
      · subst hg
        exact .inr ⟨by simp [Inference.expected, hp, hu], rfl,
          by simp [Inference.expected, hlookup, hp]⟩
      · exact .inl (by simp only [Inference.expected, hlookup, if_neg hg])
  · rw [hlookup]
    by_cases hg : f = g
    · subst hg
      rw [hp] at hq
      cases hq
      exact ⟨{ p with returnType := type }, by simp [hp], fun hne => absurd hu hne⟩
    · exact ⟨q, by simp [hg, hq], fun _ => rfl⟩

theorem expected_modifyBlock (hb : i.target.block? id = some b) (hnone : i.argumentOf? id = none) :
    expected { i with target := i.target.modifyBlock id ({ · with inferred := type }) }
      (.block id) = type := by
  have hb' : (i.target.modifyBlock id ({ · with inferred := type })).block? id =
      some { b with inferred := type } := by simp [Target.block?_modifyBlock, hb]
  -- the block still reports no argument
  refine expected_block
    (i := { i with target := i.target.modifyBlock id ({ · with inferred := type }) }) hb' ?_
  simpa [argumentOf?, hb', hb] using hnone

/-- A block with a type of its own adopts one. -/
theorem Adopts.modifyBlock (hb : i.target.block? id = some b) (hnone : i.argumentOf? id = none)
    (hu : b.inferred = .unresolved) :
    Adopts type i { i with target := i.target.modifyBlock id ({ · with inferred := type }) } := by
  have hlookup (x : String) := Target.block?_modifyBlock i.target id x ({ · with inferred := type })
  refine ⟨fun operand => ?_, .rfl,
    fun hs => ⟨_, hs, rfl, fun ha _ => ha⟩, fun {x b'} hx => ?_,
    fun {x} hx => by simp [hlookup, hx], fun hq => ⟨_, hq, fun _ => rfl⟩, rfl⟩
  · rcases operand with value | ref | x | ⟨g, result⟩
    · exact .inl rfl
    · exact .inl rfl
    · by_cases hx : id = x
      · subst hx
        exact .inr ⟨(expected_block hb hnone).trans hu, rfl, expected_modifyBlock hb hnone⟩
      · exact .inl (by simp only [Inference.expected, hlookup, if_neg hx])
    · exact .inl rfl
  · rw [hlookup]
    by_cases hxid : id = x
    · subst hxid
      rw [hb] at hx
      cases hx
      exact ⟨{ b with inferred := type }, by simp [hb], rfl, fun _ hne => absurd hu hne⟩
    · exact ⟨b', by simp [hxid, hx], rfl, fun _ _ => rfl⟩

/-- An argument adopts a type, and its reporters follow. -/
theorem Adopts.settleArgument {p : Parameter} (hf : i.Faithful) (hs : i.function = some s)
    (hp : s.arguments.get? a = some p) (hu : p.type = .unresolved) : Adopts type i
      ⟨p.reporters.foldl (fun t id => t.modifyBlock id (Signature.reshape type)) i.target,
        some { s with
          arguments := s.arguments.modify a fun p => { p with type }
          settled := s.settled ++ [(a, type)] }⟩ := by
  have hlookup (x : String) := Target.block?_foldl_modifyBlock (f := Signature.reshape type)
    (fun _ => rfl) i.target p.reporters x
  have hshell := Target.foldl_modifyBlock_eq i.target (Signature.reshape type) p.reporters
  have hget (a' : String) := Table.get?_modify s.arguments a a' fun p : Parameter => { p with type }
  have hmark {x : String} {b : Block} (hx : x ∈ p.reporters) (hb : i.target.block? x = some b) :
      b.argument = some a := hf ⟨s, p, hs, hp, hx⟩ hb
  refine ⟨fun operand => ?_, fun {a' x} => ?_, fun {s'} hs' => ?_,
    fun {x b} hx => ?_, fun {x} hx => by simp [hlookup, hx],
    fun {f q} hq => ⟨q, ?_, fun _ => rfl⟩, ?_⟩
  · rcases operand with value | ref | x | ⟨g, result⟩
    · exact .inl rfl
    · exact .inl (by rw [Inference.expected, variableType, hshell]; rfl)
    · cases hx : i.target.block? x with
      | none => exact .inl (by simp [Inference.expected, hlookup, hx])
      | some b =>
        by_cases hba : b.argument = some a
        · refine .inr ⟨(expected_argument hx hba hs hp).trans hu, rfl, ?_⟩
          have hb' : ∃ b', (p.reporters.foldl
              (fun t id => t.modifyBlock id (Signature.reshape type)) i.target).block? x = some b' ∧
              b'.argument = some a := by
            rw [hlookup, hx]
            split
            next => exact ⟨_, rfl, hba⟩
            next => exact ⟨b, rfl, hba⟩
          obtain ⟨b', hb', hba'⟩ := hb'
          exact expected_argument (p := { p with type }) hb' hba' rfl (by simp [hget, hp])
        · have hx' : x ∉ p.reporters := fun hm => hba (hmark hm hx)
          refine .inl ?_
          simp only [Inference.expected, hlookup, if_neg hx', hx, hs]
          cases hb : b.argument with
          | none => rfl
          | some a' =>
            have hne : a ≠ a' := fun he => hba (he ▸ hb)
            simp only [Signature.argumentType?, hget, if_neg hne]
    · exact .inl (by rw [Inference.expected, hshell]; rfl)
  · constructor
    · rintro ⟨s', q, ⟨⟩, hq, hx⟩
      rw [hget] at hq
      split at hq
      next ha =>
        rw [← ha, hp] at hq
        cases hq
        exact ⟨s, p, hs, ha ▸ hp, hx⟩
      next => exact ⟨s, q, hs, hq, hx⟩
    · rintro ⟨s', q, hs', hq, hx⟩
      cases hs.symm.trans hs'
      by_cases ha : a = a'
      · subst ha
        cases hp.symm.trans hq
        exact ⟨_, { p with type }, rfl, by simp [hget, hp], hx⟩
      · exact ⟨_, q, rfl, by simp [hget, ha, hq], hx⟩
  · cases hs.symm.trans hs'
    refine ⟨_, rfl, rfl, fun {a' type'} ha' hne => ?_⟩
    have ha : a ≠ a' := by
      rintro rfl
      simp only [Signature.argumentType?, hp, Option.map_some, Option.some.injEq] at ha'
      exact hne (ha' ▸ hu)
    simpa only [Signature.argumentType?, hget, if_neg ha] using ha'
  · rw [hlookup]
    by_cases hm : x ∈ p.reporters
    · refine ⟨Signature.reshape type b, by simp [hm, hx], rfl, fun ht => ?_⟩
      exact absurd ⟨a, s, p, hs, hp, hm⟩ ht
    · exact ⟨b, by simp [hm, hx], rfl, fun _ _ => rfl⟩
  · rw [hshell]
    exact hq
  · rw [hshell]
    rfl

/-- What a check of one operand comes to. -/
inductive Checks (type : ValueType) (operand : Operand) (i : Inference) :
    Except TypeMismatch Inference → Prop where
  | ok {i' : Inference} (adopts : Adopts type i i')
    (agrees : i.Present operand → i.Admits type operand ∧ i'.expected operand = type) :
    Checks type operand i (.ok i')
  | error (refused : ¬ i.Admits type operand) :
    Checks type operand i (.error ⟨type, i.expected operand⟩)

namespace Checks

theorem admitted (ht : i.expected operand = type) : Checks type operand i (.ok i) :=
  .ok (.refl type i) fun _ => ⟨.inl ht, ht⟩

theorem noted (ht : i.expected operand = type) : Checks type operand i (.ok (i.note type)) :=
  .ok (.note type i) fun _ => ⟨.inl ht, (Adopts.note type i).expected_eq ht⟩

/-- The type of the operand is known by `found`, and it is another one. -/
theorem refused {found : ValueType} (hfound : i.expected operand = found) (ht : found ≠ type)
    (hu : found ≠ .unresolved ∨ operand.isOpen = false) :
    Checks type operand i (.error ⟨type, found⟩) := by
  subst hfound
  refine .error fun ha => ha.elim ht fun ⟨hnone, hopen⟩ => ?_
  simp [hnone, hopen] at hu

end Checks

/-- An operand that passes a check has the type or adopts it, and one that fails does not admit
the type. -/
theorem assertOperand_checks (hf : i.Faithful) (type : ValueType) (operand : Operand) :
    Checks type operand i (i.assertOperand type operand) := by
  rcases operand with value | ref | id | ⟨f, result⟩
  · simp only [assertOperand]
    split
    next ht => exact .admitted ht
    next ht => exact .refused rfl ht (.inr rfl)
  · simp only [assertOperand]
    split
    next ht => exact .admitted ht
    next ht => exact .refused rfl ht (.inr rfl)
  · simp only [assertOperand]
    split
    next a s hargument =>
      obtain ⟨b, p, hb, hba, hs, hp⟩ := argumentOf?_eq_some hargument
      have hexpected : i.expected (.block id) = p.type := expected_argument hb hba hs hp
      simp only [Signature.settle, hp]
      by_cases ht : p.type = type
      · have hsame : (⟨i.target.note type, some s⟩ : Inference) = i.note type := by
          rw [← hs, note]
        simp only [if_pos ht, hsame]
        exact .noted (hexpected.trans ht)
      rw [if_neg ht]
      by_cases hu : p.type = .unresolved
      · rw [if_neg (not_not_intro hu)]
        have hnote := Adopts.note type i
        have hadopts : Adopts type i _ :=
          hnote.trans (Adopts.settleArgument (hnote.faithful hf) hs hp hu)
        refine .ok hadopts fun _ => ⟨.inr ⟨hexpected.trans hu, rfl⟩, ?_⟩
        obtain ⟨b', hb', hba', -⟩ := hadopts.blocks hb
        exact expected_argument (p := { p with type }) hb' (hba'.trans hba) rfl
          (by simp [Table.get?_modify, hp])
      · rw [if_pos hu]
        exact .refused hexpected ht (.inl hu)
    next hnone =>
      simp only [assertBlock]
      split
      next hb => exact .ok (.refl type i) fun hpresent => by simp [Present, hb] at hpresent
      next b hb =>
        have hexpected : i.expected (.block id) = b.inferred := expected_block hb hnone
        split
        next hu =>
          exact .ok (.modifyBlock hb hnone hu) fun _ =>
            ⟨.inr ⟨hexpected.trans hu, rfl⟩, expected_modifyBlock hb hnone⟩
        next hu =>
          split
          next ht => exact .admitted (hexpected.trans ht)
          next ht => exact .refused hexpected ht (.inl hu)
  · simp only [assertOperand]
    split
    next hp => exact .ok (.refl type i) fun hpresent => by simp [Present, hp] at hpresent
    next p hp =>
      have hexpected : i.expected (.call f result) = p.returnType := by simp [expected, hp]
      split
      next hu =>
        exact .ok (.modifyFunction hp hu) fun _ => ⟨.inr ⟨hexpected.trans hu, rfl⟩,
          by simp [expected, functionNamed?_modifyFunction, hp]⟩
      next hu =>
        split
        next ht => exact .admitted (hexpected.trans ht)
        next ht => exact .refused hexpected ht (.inl hu)

/-! ### Many operands -/

theorem Adopts.then (hf : i.Faithful) (h : Adopts type i i')
    (hstep : i'.assertOperand type operand = .ok i'') : Adopts type i i'' := by
  have hchecks := assertOperand_checks (h.faithful hf) type operand
  rw [hstep] at hchecks
  cases hchecks with
  | ok hadopts _ => exact h.trans hadopts

/-- Whatever its outcome, a check only lets operands adopt the type. -/
theorem assert_adopts (type : ValueType) (operands : List Operand) (hf : i.Faithful) :
    Adopts type i (i.assert type operands).2 :=
  assert_preserves (Adopts.then hf) (·.trans (.note type _)) (.refl type i) operands

/-- A hint only lets operands adopt the type. -/
theorem hint_adopts (type : ValueType) (operands : List Operand) (hf : i.Faithful) :
    Adopts type i (i.hint type operands) :=
  hint_preserves (Adopts.then hf) (.refl type i) operands

/-- A check finds that every operand admits the type and leaves each with it, or it fails at the first
that does not. -/
theorem assert_cases (type : ValueType) {operands : List Operand} (hf : i.Faithful)
    (hp : ∀ operand ∈ operands, i.Present operand) :
    ((i.assert type operands).1 = none ∧ ∀ operand ∈ operands,
      i.Admits type operand ∧ (i.assert type operands).2.expected operand = type) ∨
    ∃ before operand after, operands = before ++ operand :: after ∧
      (∀ earlier ∈ before, i.Admits type earlier) ∧ ¬ i.Admits type operand ∧
      (i.assert type operands).1 = some ⟨type, i.expected operand⟩ := by
  induction operands generalizing i with
  | nil => exact .inl ⟨rfl, by simp⟩
  | cons operand operands ih =>
    have hchecks := assertOperand_checks hf type operand
    simp only [assert]
    cases hone : i.assertOperand type operand with
    | error m =>
      rw [hone] at hchecks
      obtain _ | hnot := hchecks
      exact .inr ⟨[], operand, operands, rfl, by simp, hnot, rfl⟩
    | ok i' =>
      rw [hone] at hchecks
      obtain ⟨hstep, hadmits⟩ := hchecks
      obtain ⟨hnow, hthen⟩ := hadmits (hp operand (.head _))
      have hp' : ∀ operand ∈ operands, i'.Present operand := fun o ho =>
        hstep.present (hp o (.tail _ ho))
      obtain ⟨hnone, hall⟩ | ⟨before, first, after, rfl, hbefore, hnot, hm⟩ :=
        ih (hstep.faithful hf) hp'
      · have hrest := assert_adopts type operands (hstep.faithful hf)
        refine .inl ⟨hnone, List.forall_mem_cons.2 ⟨⟨hnow, hrest.expected_eq hthen⟩, ?_⟩⟩
        exact fun operand' hmem => (hall operand' hmem).imp_left hstep.admits_iff.1
      · rw [hstep.admits_iff] at hnot
        rw [hstep.expected_of_not_admits hnot] at hm
        exact .inr ⟨operand :: before, first, after, rfl, List.forall_mem_cons.2
          ⟨hnow, fun o ho => hstep.admits_iff.1 (hbefore o ho)⟩, hnot, hm⟩

/-- A check agrees with what is known of its operands and only refines it: it succeeds if and only
if every operand admits the type, and leaves each of them with it; otherwise it reports the first
that does not, with the type known of it. Neither a check nor a hint changes a resolved type. -/
theorem assert_agrees_with_expected (i : Inference) (type : ValueType) (operands : List Operand)
    (hf : i.Faithful) (hp : ∀ operand ∈ operands, i.Present operand) :
    ((i.assert type operands).1 = none ↔ ∀ operand ∈ operands, i.Admits type operand) ∧
    ((i.assert type operands).1 = none →
      ∀ operand ∈ operands, (i.assert type operands).2.expected operand = type) ∧
    (∀ m, (i.assert type operands).1 = some m →
      ∃ before operand after, operands = before ++ operand :: after ∧
        (∀ earlier ∈ before, i.Admits type earlier) ∧ ¬ i.Admits type operand ∧
        m.expected = type ∧ m.found = i.expected operand ∧ m.found ≠ type) ∧
    i.Refines (i.assert type operands).2 ∧
    ∀ hinted others, i.Refines (i.hint hinted others) := by
  have hrefines := (assert_adopts type operands hf).refines hf
  have hhints (hinted : ValueType) (others : List Operand) : i.Refines (i.hint hinted others) :=
    (hint_adopts hinted others hf).refines hf
  obtain ⟨hnone, hall⟩ | ⟨before, operand, after, hsplit, hbefore, hnot, hsome⟩ :=
    assert_cases type hf hp
  · exact ⟨⟨fun _ operand hmem => (hall operand hmem).1, fun _ => hnone⟩,
      fun _ operand hmem => (hall operand hmem).2, by simp [hnone], hrefines, hhints⟩
  · refine ⟨⟨by simp [hsome], fun h => ?_⟩, by simp [hsome], fun m hm => ?_, hrefines, hhints⟩
    · exact absurd (h operand (by simp [hsplit])) hnot
    · cases hsome.symm.trans hm
      exact ⟨before, operand, after, hsplit, hbefore, hnot, rfl, rfl, fun he => hnot (.inl he)⟩

/-- A function whose argument is read by two blocks, neither of them typed yet. -/
def readTwice : Inference where
  target :=
    { name := "Sprite1", isStage := false, layer := 1
      blocks := .ofEntries
        [("block_4", .reporter "block_4" "a" .unresolved false),
         ("block_5", .reporter "block_5" "a" .unresolved false)] }
  function := some
    { name := "f", definition := "block_1", prototype := "block_2"
      arguments := .ofEntries [("a", ⟨"argument_3", .unresolved, ["block_4", "block_5"]⟩)] }

theorem readTwice_faithful : readTwice.Faithful := by
  rintro a x b ⟨s, p, ⟨⟩, hp, hx⟩ hb
  simp only [Table.ofEntries, List.foldl_cons, List.foldl_nil, Table.get?_insert, Table.get?_empty,
    Option.ite_none_right_eq_some, Option.some.injEq] at hp
  obtain ⟨rfl, rfl⟩ := hp
  simp only [List.mem_cons, List.not_mem_nil, or_false] at hx
  obtain rfl | rfl := hx <;> cases hb <;> rfl

/-- Both readers take the type that the first of them adopts. A text between them does not. -/
theorem readTwice_agrees :
    readTwice.Faithful ∧
    (∀ operand ∈ [Operand.block "block_4", .block "block_5"],
      (readTwice.assert .number [.block "block_4", .block "block_5"]).2.expected operand =
        .number) ∧
    ∃ m, (readTwice.assert .number
        [.block "block_4", .literal (.text "a"), .block "block_5"]).1 = some m ∧
      m.found ≠ .number := by
  have hfirst : readTwice.Present (.block "block_4") := rfl
  have hsecond : readTwice.Present (.block "block_5") := rfl
  have hboth := assert_agrees_with_expected readTwice .number [.block "block_4", .block "block_5"]
    readTwice_faithful (by simp [hfirst, hsecond])
  have hthree := assert_agrees_with_expected readTwice .number
    [.block "block_4", .literal (.text "a"), .block "block_5"]
    readTwice_faithful (by simp [hfirst, hsecond, show readTwice.Present (.literal _) from trivial])
  refine ⟨readTwice_faithful, hboth.2.1 (hboth.1.2 ?_), ?_⟩
  · have hfirst : readTwice.Admits .number (.block "block_4") := .inr ⟨rfl, rfl⟩
    have hsecond : readTwice.Admits .number (.block "block_5") := .inr ⟨rfl, rfl⟩
    simp [hfirst, hsecond]
  · cases hm : (readTwice.assert .number
        [.block "block_4", .literal (.text "a"), .block "block_5"]).1 with
    | none =>
      have htext : readTwice.Admits .number (.literal (.text "a")) := hthree.1.1 hm _ (by simp)
      exact absurd htext (by rw [Admits]; decide)
    | some m =>
      obtain ⟨_, _, _, -, -, -, -, -, hne⟩ := hthree.2.2.1 m hm
      exact ⟨m, rfl, hne⟩

end Inference
end ScriptBlocks
