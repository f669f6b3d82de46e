import ScriptBlocks.Proofs.Growth

/-!
# Comparisons made of several blocks

An inequality is the negation of an equality. A comparison that allows equality is the disjunction
of a strict one and an equality whose operands are copies of the first one's.
-/
namespace ScriptBlocks

variable {x y name w : String} {b : Block} {slots : List (String × Content)} {v v' : Operand}

namespace Sited

variable {t t' : Target} {σ : Script} {inputs : List (String × Nat)} {ids created : List String}
variable {Q : String → Prop} {q n slot : String} {bq b' : Block} {input : Input}

/-- A plain value goes into an empty slot. -/
theorem fill_value (h : Sited t σ inputs ids) (hq : t.block? q = some bq)
    (hslot : (slot, input) ∈ bq.inputs.entries) (hempty : input.value = .empty) {value : SlotValue}
    (hv : ∀ id, value ≠ .block id) :
    Sited (t.fillSlot q slot value) σ inputs ids ∧
      Rewired (· = q) (fun _ => False) t (t.fillSlot q slot value) := by
  have hlookup (x : String) := Target.block?_modifyBlock t q x (·.fill slot value)
  have hlinks : (t.fillSlot q slot value).links = t.links := by
    funext x
    simp only [Target.links, Target.fillSlot, hlookup]
    split
    next hx =>
      subst hx
      rw [hq, Option.map_some, Option.map_some, Option.map_some,
        Block.links_fill_of_ne_block (fun input' hi => ?_) hv]
      have h1 := Table.get?_eq_some_iff.2 hi
      rw [Table.get?_eq_some_iff.2 hslot] at h1
      obtain rfl := Option.some.inj h1
      simp [Input.block?, hempty]
    next => rfl
  have hr := Rewired.fillSlot (C := fun _ => False) t q slot value
  exact ⟨h.transfer hr (fun _ _ => id) (hlinks ▸ h.sound.linked) fun _ hs => hs, hr⟩

/-- The copy of a tree goes into an empty slot. -/
theorem fill_copy (h : Sited t σ inputs ids) (hcopies : Copies Q t t' n created)
    (hn : t'.block? n = some b') (hparent : b'.parent = some q) (hnext : b'.next = none)
    (hnew : t.block? n = none) (hq : t.block? q = some bq)
    (hslot : (slot, input) ∈ bq.inputs.entries) (hempty : input.value = .empty) :
    Sited (t'.fillSlot q slot (.block n)) σ inputs ids ∧
      Rewired (· = q) (fun _ => False) t (t'.fillSlot q slot (.block n)) := by
  have hq' := hcopies.grown.old hq
  have hlookup (x : String) := Target.block?_modifyBlock t' q x (·.fill slot (.block n))
  have hqn : q ≠ n := (ne_of_found hnew hq).symm
  obtain ⟨hperm, hslots⟩ := Block.links_fill_block (n := n) hslot hempty
  -- before the slot is filled the root of the copy has no parent that counts
  have horphan : t'.links.orphan n n = some { b'.links with parent := none } := by
    simp [LinkMap.orphan, Target.links_eq_some hn]
  have hkeep : ∀ x, x ≠ n → t'.links.orphan n x = t'.links x := by
    intro x hx
    simp only [LinkMap.orphan, if_neg hx]
    cases t'.links x <;> rfl
  have hold : ∀ x, (∃ bx, t.block? x = some bx) → Above (t'.links.orphan n) n x → False := by
    intro x hx ha
    have hout := Linked.above_mem (P := fun x => ∃ bx, t.block? x = some bx) ?_ hx ha
    · obtain ⟨bx, hbx⟩ := hout
      simp [hnew] at hbx
    · rintro x l p ⟨bx, hbx⟩ hl hp
      have hxn : x ≠ n := (ne_of_found hnew hbx).symm
      rw [hkeep x hxn, Target.links_eq_some (hcopies.grown.old hbx)] at hl
      cases hl
      obtain ⟨m, hm, -⟩ := h.sound.linked.up (Target.links_eq_some hbx) hp
      obtain ⟨bp, hbp, -⟩ := Target.exists_of_links hm
      exact ⟨bp, hbp⟩
  have hlinked : Linked (t'.fillSlot q slot (.block n)).links := by
    refine hcopies.linked.link (p := q) (r := n) ((hkeep q hqn).trans (Target.links_eq_some hq'))
      horphan rfl (fun ha => hold q ⟨bq, hq⟩ ha)
      (Target.links_eq_some (t := t'.fillSlot q slot (.block n)) (b := bq.fill slot (.block n)) ?_)
      rfl rfl hperm ?_ ?_ (.inl rfl) ?_
    · rw [Target.fillSlot, hlookup, if_pos rfl, hq']
      rfl
    · simp only [Target.links, Target.fillSlot, hlookup, if_neg hqn, hn, Option.map_some]
      simp [Block.links, hparent]
    · intro name y hy _
      exact (hslots name y hy).imp id fun hy => ⟨hy.2, hnext⟩
    · intro x hxq hxn
      rw [hkeep x hxn]
      simp [Target.links, Target.fillSlot, hlookup, Ne.symm hxq]
  have hr : Rewired (· = q) (fun _ => False) t (t'.fillSlot q slot (.block n)) :=
    hcopies.grown.rewired.trans (.fillSlot t' q slot (.block n))
  refine ⟨h.transfer hr (fun _ _ => id) hlinked fun scopes hs => ?_, hr⟩
  rw [← hs, Target.fillSlot, Target.scopes_modifyBlock, hcopies.grown.shell]

end Sited

namespace Compilation

variable {c c' c₀ : Compilation} {σ : Script} {ids ids' : List String}
variable {inputs : List (String × Nat)} {O : String → Prop}

/-- The slots of a block that held nothing before hold new blocks: an old one has the parent that
it had, or stands in the script. -/
theorem Runs.new_children (h : Runs σ ids ids' inputs O c₀ c) (hs : Sound c₀.target)
    (hids : ∀ x ∈ ids, x ∈ ids') (hx : c.target.block? x = some b)
    (hempty : ∀ b₀, c₀.target.block? x = some b₀ → b₀.links.refs = []) (hy : y ∈ b.children) :
    c₀.target.block? y = none := by
  cases hy₀ : c₀.target.block? y with
  | none => rfl
  | some b₀ =>
    obtain ⟨b', hb', hparent⟩ := Target.exists_child h.sited.sound.linked hx hy
    obtain ⟨b'', hb'', hk⟩ := h.advance.old hy₀
    obtain rfl := Option.mem_unique hb' hb''
    by_cases hm : y ∈ σ.base.toList ++ ids
    · have hm' : y ∈ σ.base.toList ++ ids' := by
        rcases List.mem_append.1 hm with hm | hm
        · exact List.mem_append_left _ hm
        · exact List.mem_append_right _ (hids y hm)
      rw [← Block.links_children] at hy
      obtain ⟨slot, hslot⟩ := Links.mem_children.1 hy
      exact absurd hslot (h.sited.chain.not_slotted h.sited.sound.linked hm'
        (Target.links_eq_some hx))
    · rw [hk.parent hm] at hparent
      obtain ⟨m, hm, hmem⟩ := hs.linked.up (Target.links_eq_some hy₀) hparent
      obtain ⟨bx, hbx, rfl⟩ := Target.exists_of_links hm
      simp [hempty bx hbx] at hmem

end Compilation

namespace Emit

open Compilation

variable {c c' c₀ : Compilation} {σ : Script} {ids ids' : List String}
variable {inputs : List (String × Nat)} {O L : String → Prop} {q slot : String} {bq : Block}
variable {input empty : Input}

/-- Since `c₀` the script has grown, and slots of the block `q` may have been filled. -/
structure Copying (σ : Script) (ids ids' : List String) (inputs : List (String × Nat))
    (O : String → Prop) (q : String) (c₀ c : Compilation) : Prop where
  sound : Sound c₀.target
  stays : ∀ x ∈ ids, x ∈ ids'
  runs : Runs σ ids ids' inputs O c₀ c
  calm : Calm c₀ c
  typed : Typed (fun _ => False) c₀ c
  old : (c₀.target.block? q).isSome
  fills : O q

/-- The blocks that came since `c₀` belong to scripts, down to the last ones. -/
theorem Copying.scripted (h : Copying σ ids ids' inputs O q c₀ c)
    (he : c₀.target.Enlarged L c.target) :
    c.target.ScriptedBelow fun x => c₀.target.block? x = none ∧ ∃ b, c.target.block? x = some b := by
  rintro x ⟨hnew, b, hb⟩
  refine ⟨b, hb, (he.new hb hnew).1, fun y hy => ⟨?_, ?_⟩⟩
  · exact h.runs.new_children h.sound h.stays hb (fun b₀ hb₀ => by simp [hnew] at hb₀) hy
  · obtain ⟨by', hby, -⟩ := Target.exists_child h.runs.sited.sound.linked hb hy
    exact ⟨by', hby⟩

/-- A slot of `q`, empty before, has received what reads like `input` and has its type. Blocks other
than `q` are as they were in `c`, and what is new belongs to scripts like what it is copied from. -/
structure SlotCopied (σ : Script) (ids ids' : List String) (inputs : List (String × Nat))
    (O : String → Prop) (q slot : String) (bq : Block) (input empty : Input)
    (c₀ c c' : Compilation) : Prop extends Copying σ ids ids' inputs O q c₀ c' where
  advance : Inference.Advance (· = q) (fun _ => False) c.inference c'.inference
  calm_last : Calm c c'
  kept : ∀ {x b}, c.target.block? x = some b → x ≠ q → c'.target.block? x = some b
  filled : ∃ value, c'.target.block? q = some (bq.fill slot value) ∧
    Twin c.target c'.target (slot, input) (slot, empty.set value)
  enlarged : ∀ {L}, c₀.target.Enlarged L c.target → input.value.Bound c.target → bq.Takes slot →
    c.target.Enlarged (fun _ => False) c'.target

/-- A step that fills a slot of `q` and adds well-typed blocks. -/
theorem Copying.step (h : Copying σ ids ids' inputs O q c₀ c) (hs : Sited c'.target σ inputs ids')
    (hg : c'.inference.Good)
    (ha : Inference.Advance (· = q) (fun _ => False) c.inference c'.inference) (hcalm' : Calm c c')
    (htyped : c₀.target.Sane → ∀ x b, c'.target.block? x = some b → c.target.block? x = none →
      b.WellTyped c'.target) : Copying σ ids ids' inputs O q c₀ c' where
  sound := h.sound
  stays := h.stays
  runs := h.runs.extend hg ha hs (fun x b _ hx => hx.elim id fun hx => hx ▸ h.fills)
    (fun _ _ _ => False.elim) h.runs.new_ids
  calm := h.calm.trans hcalm' ha
  typed := by
    intro hsane
    refine h.typed.trans (Q := fun _ => False) (fun _ x b hb hx _ => htyped hsane x b hb hx) h.calm
      hcalm' hg ha (fun _ => id) (fun _ => id) (fun x hx hn => ?_) hsane
    have hold := h.old
    rw [hx] at hn
    simp [hn] at hold
  old := h.old
  fills := h.fills

/-- A plain value is copied. -/
theorem copySlot_value (h : Copying σ ids ids' inputs O q c₀ c) (hq : c.target.block? q = some bq)
    (hmem : (slot, empty) ∈ bq.inputs.entries) (hempty : empty.value = .empty)
    (hb : input.block? = none) :
    ∃ c', copySlot q slot input c = (some (), c') ∧
      SlotCopied σ ids ids' inputs O q slot bq input empty c₀ c c' := by
  have hv : ∀ id, input.value ≠ .block id := by
    intro id hv
    simp [Input.block?, hv] at hb
  obtain ⟨hs, hr⟩ := h.runs.sited.fill_value hq hmem hempty hv
  have hnone : ∀ x b, (c.target.fillSlot q slot input.value).block? x = some b →
      c.target.block? x ≠ none := by
    intro x b hx hn
    rw [Target.fillSlot, Target.block?_modifyBlock, hn] at hx
    simp at hx
  have hcalm : Calm c (c.setTarget (c.target.fillSlot q slot input.value)) :=
    .setTarget hr.tables fun x b hx hn => absurd hn (hnone x b hx)
  have ha : Inference.Advance (· = q) (fun _ => False) c.inference
      (c.setTarget (c.target.fillSlot q slot input.value)).inference := by
    rw [inference_setTarget]
    exact .ofRewired hr c.function
  refine ⟨c.setTarget (c.target.fillSlot q slot input.value), by simp only [copySlot, hb]; rfl,
    h.step ?_ ?_ ha hcalm fun _ x b hx hn => ?_, ha, hcalm, fun {x b} hx hxq => ?_, ?_,
    fun {L} _ hbound htakes => ?_⟩
  · rw [target_setTarget]
    exact hs
  · rw [inference_setTarget]
    exact h.runs.good.rewired hr
  · rw [target_setTarget] at hx
    exact absurd hn (hnone x b hx)
  · rw [target_setTarget]
    exact (Target.block?_modifyBlock_of_ne _ _ (Ne.symm hxq)).trans hx
  · rw [target_setTarget]
    exact ⟨input.value, Target.block?_modifyBlock_self _ _ hq, .plain rfl rfl hb⟩
  · rw [target_setTarget]
    refine .fillSlot q slot fun b hb e he hslot => .of_kind hbound ?_
    obtain rfl := Option.mem_unique hq hb
    exact htakes.kind he hslot

/-- A tree is copied. -/
theorem copySlot_block {child : String} (h : Copying σ ids ids' inputs O q c₀ c)
    (hq : c.target.block? q = some bq) (hmem : (slot, empty) ∈ bq.inputs.entries)
    (hempty : empty.value = .empty) (hb : input.block? = some child)
    (hchild : c.target.block? child = some b) (hnew : c₀.target.block? child = none) :
    ∃ c', copySlot q slot input c = (some (), c') ∧
      SlotCopied σ ids ids' inputs O q slot bq input empty c₀ c c' := by
  obtain ⟨n, created, t', b', hdup, hcopies, hn, hparent, hnext, hclone⟩ :=
    duplicate_copies (Q := fun x => c₀.target.block? x = none) h.runs.sited.sound
      (fun x b hx hb y hy => h.runs.new_children h.sound h.stays hb (by simp [hx]) hy) hchild hnew q
  have hcreated : ∀ x, x ∈ n :: created → c.target.block? x = none :=
    fun x hx => ((hcopies.created x).1 hx).1
  obtain ⟨hs, hr⟩ := h.runs.sited.fill_copy hcopies hn hparent hnext (hcreated n (by simp)) hq hmem
    hempty
  -- the copies of reporters are remembered
  let f' := (n :: created).foldl (Signature.trackBlock t') c.function
  obtain ⟨c', he, hi, hrest⟩ : ∃ c', copySlot q slot input c = (some (), c') ∧
      c'.inference = ⟨t'.fillSlot q slot (.block n), f'⟩ ∧ SameRest c c' := by
    refine ⟨{ c.setTarget t' with function := f' }.setTarget (t'.fillSlot q slot (.block n)), ?_,
      by rw [inference_setTarget],
      (SameRest.setTarget c t').trans ((SameRest.setFunction _ f').trans (.setTarget _ _))⟩
    simp only [copySlot, hb, bind_apply, onTarget, hdup, trackCopies, modifyTarget, modify]
    rw [target_setTarget]
    exact congrArg (fun t => (some (), Compilation.setTarget _ (Target.fillSlot t q slot _)))
      (target_setTarget c t')
  have htarget : c'.target = t'.fillSlot q slot (.block n) := congrArg Inference.target hi
  have hfunction : c'.function = f' := congrArg Inference.function hi
  have hlookup : ∀ x, x ≠ q → c'.target.block? x = t'.block? x := by
    intro x hx
    rw [htarget, Target.fillSlot, Target.block?_modifyBlock_of_ne _ _ (Ne.symm hx)]
  have hne : ∀ x, c.target.block? x = none → x ≠ q := fun x hx => ne_of_found hx hq
  -- a copy of a reporter fits like the reporter itself
  have horigin : ∀ {x bx a}, t'.block? x = some bx → c.target.block? x = none →
      bx.argument = some a → ∃ y by₀, c.target.block? y = some by₀ ∧ c.inference.Tracks a y ∧
        by₀.argument = some a ∧ bx.inferred = by₀.inferred ∧ bx.opcode = by₀.opcode := by
    intro x bx a hx hxn ha
    obtain ⟨y, by₀, hnew, hy, hc⟩ := hcopies.origin hx hxn
    have harg : by₀.argument = some a := (congrArg Block.argument hc.core :) ▸ ha
    exact ⟨y, by₀, hy, h.calm.marked hy hnew harg, harg, (congrArg Block.inferred hc.core :),
      (congrArg Block.opcode hc.core :)⟩
  have hfits : ∀ x ∈ n :: created, Inference.Fitting t' c.function x := by
    intro x hx bx a s p hbx ha hsig hp
    obtain ⟨y, by₀, hy, ⟨s', p', hs', hp', hmem⟩, harg, hi, ho⟩ :=
      horigin hbx (hcreated x hx) ha
    obtain rfl := Option.mem_unique hs' hsig
    obtain rfl := Option.mem_unique hp' hp
    obtain ⟨b₁, hb₁, -, hi₁, ho₁⟩ := h.runs.good.tracked hs' hp' hmem
    obtain rfl := Option.mem_unique hb₁ hy
    exact ⟨hi.trans hi₁, ho.trans ho₁⟩
  have hgood : c'.inference.Good := by
    rw [hi]
    have hg := h.runs.good.rewired (hcopies.grown.rewired (O := fun _ => True) (C := fun _ => True))
    exact (hg.trackAll hfits).rewired (.fillSlot (C := fun _ => True) t' q slot (.block n))
  have ha : Inference.Advance (· = q) (fun _ => False) c.inference c'.inference := by
    rw [hi]
    exact .remember hr fun hy => hy.of_trackAll.imp id (hcreated _)
  have hcalm : Calm c c' := by
    refine ⟨hrest, by rw [htarget, hr.tables], ?_, fun {x bx a} hx hxn hb => ?_,
      fun {x bx} hx hxn hst => ?_⟩
    · rw [hfunction]
      exact Inference.continues_trackAll t' c.function _
    · rw [hlookup x (hne x hxn)] at hx
      obtain ⟨y, by₀, hy, ⟨s, p, hs, hp, -⟩, -⟩ := horigin hx hxn hb
      rw [hi]
      exact .trackAll ((hcopies.created x).2 ⟨hxn, by simp [hx]⟩) hx hb hs hp
    · rw [hlookup x (hne x hxn)] at hx
      obtain ⟨y, by₀, hnew, hy, hc⟩ := hcopies.origin hx hxn
      exact h.calm.inner hy hnew ⟨(congrArg Block.argument hc.core :) ▸ hst.1,
        (congrArg Block.opcode hc.core :) ▸ hst.2⟩
  refine ⟨c', he, h.step (by rw [htarget]; exact hs) hgood ha hcalm fun hsane x bx hx hxn => ?_, ha,
    hcalm, fun {x bx} hx hxq => ?_, ⟨.block n, ?_, ?_⟩, fun {L} he _ _ => ?_⟩
  · rw [hlookup x (hne x hxn)] at hx
    obtain ⟨y, by₀, hnew, hy, hc⟩ := hcopies.origin hx hxn
    have hr' := Rewired.fillSlot (C := fun _ => True) t' q slot (.block n)
    refine (hc.wellTyped hcopies.grown.grows (h.typed hsane y by₀ hy hnew id)).mono rfl rfl (.inl rfl)
      (.of_tables (htarget ▸ hr'.tables)) fun z bz _ hz _ => ?_
    obtain ⟨bz', hbz', hcore, -⟩ := hr'.old hz
    exact ⟨bz', htarget ▸ hbz', (congrArg Block.inferred hcore :)⟩
  · rw [hlookup x hxq]
    exact hcopies.grown.old hx
  · rw [htarget]
    exact Target.block?_modifyBlock_self _ _ (hcopies.grown.old hq)
  · have htwin : Twin c.target t' (slot, input) (slot, ⟨empty.kind, .block n⟩) :=
      .block hclone hchild hn hnext (hcreated n (by simp)) hb
    refine htwin.transfer fun {x bx} hx hxn => ?_
    rw [hlookup x (hne x hxn)]
    exact hx
  · have henlarged := Target.duplicate_enlarged h.runs.sited.sound (h.scripted he)
      ⟨hnew, b, hchild⟩ q
    rw [hdup] at henlarged
    rw [htarget]
    exact henlarged.trans (.fillSlot_block q slot n)

/-- A slot is copied, whatever stands in it. -/
theorem copySlot_run (h : Copying σ ids ids' inputs O q c₀ c) (hq : c.target.block? q = some bq)
    (hmem : (slot, empty) ∈ bq.inputs.entries) (hempty : empty.value = .empty)
    (hchild : ∀ child, input.block? = some child →
      (∃ b, c.target.block? child = some b) ∧ c₀.target.block? child = none) :
    ∃ c', copySlot q slot input c = (some (), c') ∧
      SlotCopied σ ids ids' inputs O q slot bq input empty c₀ c c' := by
  cases hb : input.block? with
  | none => exact copySlot_value h hq hmem hempty hb
  | some child =>
    obtain ⟨⟨b, hchild⟩, hnew⟩ := hchild child hb
    exact copySlot_block h hq hmem hempty hb hchild hnew

/-- A slot of `q` and the slot that it has been filled from. -/
structure Mirrored (q : String) (c c' : Compilation) (e e' : String × Input) : Prop where
  name : e'.1 = e.1
  reads : ∀ {env : Env} {content : Content}, content.Single →
    content.At (env.look c.target) (· ≠ q) e.2.value →
      content.At (env.look c'.target) (fun x => c.target.block? x = none) e'.2.value

/-- The slots of another block have been copied into the empty slots of `q`. -/
structure SlotsCopied (σ : Script) (ids ids' : List String) (inputs : List (String × Nat))
    (O : String → Prop) (q : String) (bq : Block) (before slots : List (String × Input))
    (c₀ c c' : Compilation) : Prop extends Copying σ ids ids' inputs O q c₀ c' where
  advance : Inference.Advance (· = q) (fun _ => False) c.inference c'.inference
  calm_last : Calm c c'
  kept : ∀ {x b}, c.target.block? x = some b → x ≠ q → c'.target.block? x = some b
  filled : ∃ b slots', c'.target.block? q = some b ∧ b.core = bq.core ∧ b.next = bq.next ∧
    b.inputs.entries = before ++ slots' ∧ List.Forall₂ (Mirrored q c c') slots slots'
  enlarged : ∀ {L}, c₀.target.Enlarged L c.target → (∀ e ∈ slots, e.2.value.Bound c.target) →
    (∀ slot, bq.Takes slot) → c.target.Enlarged (fun _ => False) c'.target

/-- Slots are copied one after the other. -/
theorem copySlots_run {before slots empties : List (String × Input)}
    (h : Copying σ ids ids' inputs O q c₀ c)
    (hq : c.target.block? q = some bq) (hentries : bq.inputs.entries = before ++ empties)
    (hslots : List.Forall₂ (fun e e' : String × Input => e'.1 = e.1 ∧ e'.2.value = .empty)
      slots empties)
    (hchild : ∀ e ∈ slots, ∀ child, e.2.block? = some child →
      (∃ b, c.target.block? child = some b) ∧ c₀.target.block? child = none) :
    ∃ c', copySlots q slots c = (some (), c') ∧
      SlotsCopied σ ids ids' inputs O q bq before slots c₀ c c' := by
  induction hslots generalizing c bq before with
  | nil =>
    exact ⟨c, rfl, h, .refl, .refl c, fun hx _ => hx, ⟨bq, [], hq, rfl, rfl, hentries, .nil⟩,
      fun _ _ _ => .refl _⟩
  | @cons e empty slots empties he _ ih =>
    obtain ⟨slot, input⟩ := e
    obtain ⟨name, empty⟩ := empty
    obtain ⟨rfl, hempty⟩ : name = slot ∧ empty.value = .empty := he
    have hmem : (name, empty) ∈ bq.inputs.entries := by simp [hentries]
    obtain ⟨c₁, hstep, h₁⟩ := copySlot_run h hq hmem hempty (hchild (name, input) List.mem_cons_self)
    obtain ⟨value, hq₁, htwin⟩ := h₁.filled
    have hentries₁ : (bq.fill name value).inputs.entries =
        (before ++ [(name, empty.set value)]) ++ empties := by
      rw [Block.entries_fill hentries, List.append_assoc]
      rfl
    obtain ⟨c', hrest, h'⟩ := ih h₁.toCopying hq₁ hentries₁ fun e he child hb => by
      obtain ⟨⟨b, hchild⟩, hnew⟩ := hchild e (List.mem_cons_of_mem _ he) child hb
      obtain ⟨b', hb', -⟩ := h₁.advance.old hchild
      exact ⟨⟨b', hb'⟩, hnew⟩
    have hne : ∀ {x}, c.target.block? x = none → x ≠ q := fun hx => ne_of_found hx hq
    have hnone : ∀ {x}, c₁.target.block? x = none → c.target.block? x = none :=
      block?_none_of_later h₁.advance
    -- what has been copied reads on, and so does what is still to be copied
    have hkept₁ : ∀ {env : Env} {y v}, y ≠ q → env.look c.target y = some v →
        env.look c₁.target y = some v := by
      intro env y v hy hv
      obtain ⟨b, hb, rfl⟩ := Option.map_eq_some_iff.1 hv
      exact Option.map_eq_some_iff.2 ⟨b, h₁.kept hb hy, rfl⟩
    have hkept' : ∀ {env : Env} {y v}, y ≠ q → env.look c₁.target y = some v →
        env.look c'.target y = some v := by
      intro env y v hy hv
      obtain ⟨b, hb, rfl⟩ := Option.map_eq_some_iff.1 hv
      exact Option.map_eq_some_iff.2 ⟨b, h'.kept hb hy, rfl⟩
    obtain ⟨b, slots', hb, hcore, hnext, hin, hmirror⟩ := h'.filled
    refine ⟨c', by rw [copySlots, bind_of_eq hstep]; exact hrest, h'.toCopying,
      h₁.advance.trans h'.advance (fun _ _ _ hx => hx.elim id id) (fun _ _ _ hx => hx.elim id id),
      h₁.calm_last.trans h'.calm_last h'.advance, fun hx hxq => h'.kept (h₁.kept hx hxq) hxq,
      ⟨b, (name, empty.set value) :: slots', hb, hcore, hnext, by simp [hin], .cons ⟨rfl, ?_⟩ ?_⟩,
      fun {L} he hbound htakes => ?_⟩
    · intro env content hsingle hat
      exact (htwin.reads hsingle hat).mono (fun y v hy hv => ⟨hy, hkept' (hne hy) hv⟩) _ _
    · refine hmirror.imp fun e e' hm => ⟨hm.name, fun {env content} hsingle hat => ?_⟩
      have hat₁ : content.At (env.look c₁.target) (· ≠ q) e.2.value :=
        hat.mono (fun y v hy hv => ⟨hy, hkept₁ hy hv⟩) _ _
      exact (hm.reads hsingle hat₁).mono (fun y v hy hv => ⟨hnone hy, hv⟩) _ _
    · have hfirst := h₁.enlarged he (hbound (name, input) List.mem_cons_self) (htakes name)
      refine hfirst.trans (h'.enlarged ((he.mono fun _ _ _ _ _ _ => trivial).trans
        (hfirst.mono fun _ _ _ _ _ _ => trivial) : c₀.target.Enlarged (fun _ => True) _)
        (fun e hm => (hbound e (List.mem_cons_of_mem _ hm)).mono hfirst.declares) fun slot => ?_)
      obtain ⟨b, hb, hk⟩ := hfirst.old hq
      obtain rfl := Option.mem_unique hq₁ hb
      exact (htakes slot).of_kinds hk.slotKinds

section

variable {env : Env} {contents : List Content} {calls : List Tree} {A : String} {k : Nat}
variable {F : List (String × Nat)} {pre cs : List String} {s : String} {a : Block}
variable {rest xs : List String} {n id : String} {make : String → Block}

/-- A block that takes others, which nothing holds yet, into its slots. -/
structure Holder (make : String → Block) (xs : List String) : Prop where
  id_eq : ∀ n, (make n).id = n
  next : ∀ n, (make n).next = none
  argument : ∀ n, (make n).argument = none
  inner : ∀ n, ¬ (make n).Starts
  children : ∀ n, (make n).children = xs
  nodup : xs.Nodup

/-- Placing a block over blocks that have been written for it. -/
theorem place_holder (hm : Holder make xs) (hs : Sited c.target σ ((A, k) :: F) ids)
    (hA : c.target.block? A = some a) (hfree : a.free k = slot :: rest)
    (hruns : Runs σ ids ids ((A, k) :: F) (fun _ => False) c c') (hcalm : Calm c c')
    (hloose : ∀ x ∈ xs, c.target.block? x = none ∧ ∃ b, c'.target.block? x = some b ∧
      b.parent = none ∧ b.links.refs = []) :
    ∃ n k' c₂, Emit.place make c' = (some n, c₂) ∧ c'.target.block? n = none ∧
      (∀ x b, c₂.target.block? x = some b → c'.target.block? x = none → x = n) ∧
      c₂.target.block? n = some (Target.under A (make n)) ∧
      c₂.target.Anchored A (a.fill slot (.block n)).inputs k' rest ∧
      Runs σ ids ids ((A, k') :: F) (· = A) c c₂ ∧ Calm c c₂ ∧
      Inference.Advance (· = A) (· ∈ xs) c'.inference c₂.inference := by
  obtain ⟨a₁, ha₁, hk⟩ := hruns.advance.old hA
  have hin : a₁.inputs = a.inputs := hk.inputs id
  have hfits : Sited.Fits c'.target σ ids A (make (c'.target.freshId "block")) := by
    refine ⟨hm.id_eq _, hm.next _, by rw [hm.children]; exact hm.nodup, fun y hy => ?_⟩
    rw [hm.children] at hy
    obtain ⟨hnew, b, hb, hparent, hrefs⟩ := hloose y hy
    refine ⟨b, hb, hparent, hrefs, ne_of_found hnew hA, fun hmem => ?_⟩
    obtain ⟨b', hb'⟩ := hs.exists_block hmem
    simp [hnew] at hb'
  obtain ⟨n, k', c₂, hplace, hnew, honly, hn, ⟨a', ha', hin', hrest⟩, hs₂, hg₂, hadv, hcalm₂⟩ :=
    place_input hruns.good hruns.sited ha₁ ((Block.free_eq_of_inputs hin k).trans hfree) hfits
      fun n => ⟨hm.argument n, hm.inner n⟩
  rw [hm.children] at hadv
  refine ⟨n, k', c₂, hplace, hnew, honly, hn, ⟨a', ha', ?_, hrest⟩, ?_, hcalm.trans hcalm₂ hadv, hadv⟩
  · rw [hin', Block.fill, Block.fill, hin]
  · refine hruns.extend hg₂ hadv hs₂ (fun _ _ _ hx => hx.elim False.elim id) (fun x b hx hxs => ?_)
      fun _ => .inl
    simp [(hloose x hxs).1] at hx

/-- Nothing follows a block in a slot for a value. -/
theorem next_eq_none {t : Target} {b' : Block} (hs : Sound t) (hx : t.block? x = some b)
    (hslot : (name, .block y) ∈ b.slots) (hbody : isBodySlot name = false)
    (hy : t.block? y = some b') : b'.next = none := by
  obtain ⟨e, he, heq⟩ := List.mem_map.1 hslot
  obtain ⟨hname, hvalue⟩ := Prod.mk.inj heq
  have hmem : (name, some y) ∈ b.links.slots :=
    List.mem_map.2 ⟨e, he, by rw [hname, Input.block?, hvalue]⟩
  exact hs.linked.value_last (Target.links_eq_some hx) hmem hbody (Target.links_eq_some hy)

/-- Operands have gone into the slots of a block `q` below a holder `n`, which was placed in `c₁`.
Since then the slots of old blocks have changed only where `O` holds. -/
structure Nested (env : Env) (b₀ h₀ : Block) (names : List String) (contents : List Content)
    (calls : List Tree) (σ : Script) (pre cs : List String) (s A slot : String) (a : Block)
    (rest : List String) (F : List (String × Nat)) (k : Nat) (n q : String) (O : String → Prop)
    (ops : List Operand) (c c₁ c' : Compilation) : Prop where
  placed : Runs σ (pre ++ [s]) (pre ++ [s]) ((A, k) :: F) (· = A) c c₁
  placed_calm : Calm c c₁
  runs : Runs σ (pre ++ [s]) (pre ++ cs ++ [s]) ((A, k) :: F) O c₁ c'
  calm : Calm c₁ c'
  fresh : ∀ x, O x → c.target.block? x = none
  old : c.target.block? A = some a
  inner : Inner c (pre ++ cs ++ [s]) n ∧ Inner c (pre ++ cs ++ [s]) q
  anchor : c'.target.Anchored A (a.fill slot (.block n)).inputs k rest
  holder : ∃ b, c'.target.block? n = some b ∧ b.face = h₀.face ∧ b.inputs = h₀.inputs ∧
    b.next = none ∧ b.Valued
  block : ∃ b, c'.target.block? q = some b ∧ b.face = b₀.face ∧
    b.inputs = (b₀.fillAll names ops).inputs ∧ b.next = none
  yields : Yields env contents calls (pre ++ cs ++ [s]) cs ops c₁ c'
  typed : Typed (fun _ => False) c₁ c'

variable {α : Type} {start : Nat} {names : List String} {opcode : Opcode} {q : String}
variable {fields : List (String × Field)} {mutation : Option Mutation} {m : Emit α} {c₁ : Compilation}
variable {ops : α → List Operand} {vs : List Operand} {b₀ h₀ : Block} {g : String → Block}

theorem Nested.all_runs (h : Nested env b₀ h₀ names contents calls σ pre cs s A slot a rest F k n q
    O vs c c₁ c') : Runs σ (pre ++ [s]) (pre ++ cs ++ [s]) ((A, k) :: F) (· = A) c c' :=
  h.placed.trans h.runs fun x b hx hor => hor.elim id fun ho => by simp [h.fresh x ho] at hx

theorem Nested.all_calm (h : Nested env b₀ h₀ names contents calls σ pre cs s A slot a rest F k n q
    O vs c c₁ c') : Calm c c' :=
  h.placed_calm.trans h.calm h.runs.advance

/-- Compiling the operands of a block below a holder. -/
theorem nested_core {K : α → Emit Operand} (hshape : Shape make start names opcode fields mutation)
    (hF : Fills env m ops contents calls) (hlen : names.length = contents.length)
    (hs : Sited c.target σ ((A, k) :: F) (pre ++ [s])) (hA : c.target.block? A = some a) {k' : Nat}
    (hruns : Runs σ (pre ++ [s]) (pre ++ [s]) ((A, k') :: F) (· = A) c c₁) (hcalm : Calm c c₁)
    (hnew : c.target.block? n = none) (hn : c₁.target.block? n = some (Target.under A (g n)))
    (hnext : (g n).next = none) (hvalue : (g n).Valued)
    (hanchor : c₁.target.Anchored A (a.fill slot (.block n)).inputs k' rest)
    (hqnew : c.target.block? q = none) (hqn : q ≠ n)
    (hq : ∃ b, c₁.target.block? q = some b ∧ b.face = (make q).face ∧ b.inputs = (make q).inputs)
    (hheld : (name, .block q) ∈ (g n).slots) (hbody : isBodySlot name = false) :
    ∃ cs c', Runs σ (pre ++ [s]) (pre ++ cs ++ [s]) ((A, k') :: F) (· = A) c c' ∧ Calm c c' ∧
      ((c'.project.success = false ∧ (within (.inputs q start) m >>= K) c₁ = (none, c')) ∨
        ∃ r, (within (.inputs q start) m >>= K) c₁ = K r c' ∧
          Nested env (make q) (g n) names contents calls σ pre cs s A slot a rest F k' n q (· = q)
            (ops r) c c₁ c') := by
  obtain ⟨bq, hbq, hqface, hqin⟩ := hq
  have hqnext : bq.next = none := next_eq_none hruns.sited.sound hn hheld hbody hbq
  have hfree : bq.free start = names ++ [] := by
    rw [List.append_nil]
    exact (Block.free_eq_of_inputs hqin start).trans (hshape.free q)
  obtain ⟨cs, c', r, hwithin, hruns', hcalm', hloud, hok⟩ := hF.within hruns.good hruns.sited hbq
    hfree hlen
  have hall : Runs σ (pre ++ [s]) (pre ++ cs ++ [s]) ((A, k') :: F) (· = A) c c' :=
    hruns.trans hruns' fun x b hx hor => hor.elim id fun he => by simp [he, hqnew] at hx
  refine ⟨cs, c', hall, hcalm.trans hcalm' hruns'.advance, ?_⟩
  cases r with
  | none => exact .inl ⟨hloud rfl, by simp only [bind_apply, hwithin]⟩
  | some r =>
    obtain ⟨-, ⟨b₂, hb₂, hin₂⟩, hy, ht⟩ := hok r rfl
    -- neither block stands in the script
    have hout : ∀ {x}, c.target.block? x = none → x ∉ σ.base.toList ++ (pre ++ [s]) := by
      intro x hx hm
      obtain ⟨b, hb⟩ := hs.exists_block hm
      simp [hx] at hb
    have hout' : ∀ {x b}, c.target.block? x = none → c₁.target.block? x = some b →
        Inner c (pre ++ cs ++ [s]) x := by
      refine fun {x b} hx hb => ⟨hx, fun hm => ?_⟩
      obtain hm | hnone := hruns'.new_ids x hm
      · exact hout hx (List.mem_append_right _ hm)
      · simp [hb] at hnone
    have hqA : q ≠ A := ne_of_found hqnew hA
    refine .inr ⟨r, by simp only [bind_apply, hwithin], hruns, hcalm, hruns', hcalm', ?_, hA,
      ⟨hout' hnew hn, hout' hqnew hbq⟩, hruns'.advance.anchored hanchor (Ne.symm hqA), ?_, ?_, hy, ht⟩
    · rintro x rfl
      exact hqnew
    · obtain ⟨b, hb, hk⟩ := hruns'.advance.old hn
      exact ⟨b, hb, hk.face, hk.inputs (Ne.symm hqn), (hk.next (hout hnew)).trans hnext,
        hk.valued hvalue⟩
    · obtain ⟨b₂', hb₂', hk⟩ := hruns'.advance.old hbq
      obtain rfl := Option.mem_unique hb₂ hb₂'
      exact ⟨b₂, hb₂, hk.face.trans hqface, hin₂.trans (Block.fillAll_inputs_congr hqin _ _),
        (hk.next (hout hqnew)).trans hqnext⟩

/-- Settling types leaves a holder and what it holds as they are. -/
theorem Nested.quiet {β : Type} {r : Option β × Compilation}
    (h : Nested env b₀ h₀ names contents calls σ pre cs s A slot a rest F k n q O vs c c₁ c')
    (hq : Quietly c' r) :
    Nested env b₀ h₀ names contents calls σ pre cs s A slot a rest F k n q O vs c c₁ r.2 := by
  have hruns : Runs σ (pre ++ cs ++ [s]) (pre ++ cs ++ [s]) ((A, k) :: F) (fun _ => False) c' r.2 :=
    hq.runs h.runs.sited
  refine ⟨h.placed, h.placed_calm, h.runs.trans hruns fun _ _ _ hor => hor.elim id False.elim,
    h.calm.trans hq.calm hruns.advance, h.fresh, h.old, h.inner,
    hruns.advance.anchored h.anchor id, ?_, ?_, h.yields.quiet hq, h.typed.quiet h.calm hq⟩
  · obtain ⟨b, hb, hface, hin, hnext, hvalue⟩ := h.holder
    obtain ⟨b', hb', hk⟩ := hq.quiet.old hb
    exact ⟨b', hb', hk.face.trans hface, (hk.inputs id).trans hin, (hk.next id).trans hnext,
      hk.valued hvalue⟩
  · obtain ⟨b, hb, hface, hin, hnext⟩ := h.block
    obtain ⟨b', hb', hk⟩ := hq.quiet.old hb
    exact ⟨b', hb', hk.face.trans hface, (hk.inputs id).trans hin, (hk.next id).trans hnext⟩

/-- The block below the holder reads as its tree. -/
theorem Nested.script_at
    (h : Nested env (make q) h₀ names contents calls σ pre cs s A slot a rest F k n q O vs c c₁ c')
    (hshape : Shape make start names opcode fields mutation) (hslots : ∀ {look S n vs}, List.Forall₂
      (fun (op : Operand) (content : Content) => content.At look S op.slotValue) vs contents →
        SlotsAt look S ((make n).fillAll names vs).slots slots) (hcov : env.Covers c.inference) :
    ScriptAt (env.look c'.target) (Inner c (pre ++ cs ++ [s])) (some q)
      [.node opcode fields mutation slots] := by
  obtain ⟨b, hb, hface, hin, hnext⟩ := h.block
  have hy := h.yields.since h.placed_calm h.placed.advance
  refine ⟨h.inner.2, hshape.tree_at hb hface ?_, env.view b, by simp [Env.look, hb], ?_⟩
  · rw [show b.slots = ((make q).fillAll names vs).slots by rw [Block.slots, hin]; rfl]
    exact hslots (hy.values hcov)
  · rw [show (env.view b).next = none from hnext]
    trivial

/-- A holder in its slot gives what an expression gives. -/
theorem Nested.emitted {opcode : Opcode} {k₀ : Nat}
    (h : Nested env b₀ h₀ names contents calls σ pre cs s A slot a rest F k n q O vs c c₁ c')
    (harg : h₀.argument = none) (hop : h₀.opcode = opcode) (hfields : h₀.fields.entries = [])
    (hmut : h₀.mutation = none) (hslots : env.Covers c.inference →
      SlotsAt (env.look c'.target) (Inner c (pre ++ cs ++ [s])) h₀.slots slots)
    (ht : Typed (fun _ => False) c c') :
    Emitted env (.script [.node opcode [] none slots]) calls σ A k₀ F pre s a slot rest c
      (some (.block n), c') := by
  refine ⟨cs, k, h.all_runs, h.all_calm, by simp, ?_⟩
  rintro v ⟨⟩
  obtain ⟨b, hb, hface, hin, hnext, hvalue⟩ := h.holder
  have harg' : b.argument = none := (congrArg Block.argument hface :).trans harg
  have hview : env.view b = ⟨opcode, [], none, h₀.slots, none⟩ := by
    have ho : (env.view b).opcode = (env.view h₀).opcode := Env.view_opcode hface
    simp only [Env.view, harg, harg'] at ho
    have hf : b.fields = h₀.fields := (congrArg Block.fields hface :)
    have hm : b.mutation = h₀.mutation := (congrArg Block.mutation hface :)
    simp only [Env.view, harg', ho, hop, hf, hfields, hm, hmut, hin, hnext, Block.slots]
  refine ⟨h.anchor, ⟨?_, fun hcov => ?_, fun hcov => ?_⟩, ht⟩
  · intro op hop
    obtain rfl := List.mem_singleton.1 hop
    exact ⟨b, hb, by simp [harg'], fun _ => hvalue⟩
  · have hlook : env.look c'.target n = some ⟨opcode, [], none, h₀.slots, none⟩ := by
      simp [Env.look, hb, hview]
    exact .cons ⟨h.inner.1, ⟨_, hlook, rfl, rfl, rfl, hslots hcov⟩, _, hlook, trivial⟩ .nil
  · exact (h.yields.since h.placed_calm h.placed.advance).calls hcov

variable {left right : Part} {l r : Content} {calls' : List Tree}

theorem relation_ne : "OPERAND1" ≠ "OPERAND2" := by decide

/-- The disjunction of two comparisons, before their operands are there. -/
theorem Holder.either (h : x ≠ y) : Holder (Block.logic · .or (.block x) (.block y)) [x, y] where
  id_eq _ := rfl
  next _ := rfl
  argument _ := rfl
  inner _ hst := Bool.false_ne_true hst.2
  children n := by
    simp [Block.children, Table.values, Block.logic, Block.pair_entries _ _ _ _ relation_ne,
      Input.block?]
  nodup := by simp [h]

theorem Holder.negation (x : String) : Holder (Block.negation · (.block x)) [x] :=
  ⟨fun _ => rfl, fun _ => rfl, fun _ => rfl, fun _ hst => Bool.false_ne_true hst.2, fun _ => rfl,
    by simp⟩

/-- A comparison refers to nothing before its operands are there. -/
theorem Shape.refs_eq_nil {make : String → Block} (h : Shape make start names opcode fields mutation)
    (n : String) : (make n).links.refs = [] := by
  rw [Links.refs, Block.links_children, h.children]
  simp [Block.links, h.next]

theorem wellTyped_of_equals {t : Target} (h : b.face = (Block.equals x .empty .empty).face) :
    b.WellTyped t :=
  Opcode.Compares.equals.wellTyped (Block.opcode_of_face h rfl)

theorem Nested.typed_all
    (h : Nested env b₀ h₀ names contents calls σ pre cs s A slot a rest F k n q O vs c c₁ c')
    (ht : Typed (fun _ => False) c c₁)
    (hO : ∀ x b, O x → c'.target.block? x = some b → b.WellTyped c'.target) :
    Typed (fun _ => False) c c' := by
  intro hsane x b hx hxn _
  by_cases ho : O x
  · exact hO x b ho hx
  · exact ht.trans h.typed h.placed_calm h.calm h.runs.good h.runs.advance (fun _ => False.elim)
      (fun _ => False.elim) (fun _ ho _ => ho) hsane x b hx hxn ho

/-- An inequality is the negation of an equality. -/
theorem inequality_emits (hl : Emits env left.emit l calls) (hr : Emits env right.emit r calls') :
    Emits env (inequality left right) (.script [.negation (.script [.relation .equals l r])])
      (calls ++ calls') := by
  intro c σ A k F pre s a slot rest hg hs hA hfree
  have hshape := Shape.comparison .equals
  obtain ⟨q, c₁, hregister, hqnew, -, hq, hqonly, hruns₁, hcalm₁⟩ := register_new hshape hg hs
  obtain ⟨n, k', c₂, hplace, hnnew, hnonly, hn, hanchor, hruns₂, hcalm₂, hadv₂⟩ :=
    place_holder (.negation q) hs hA hfree hruns₁ hcalm₁ fun x hx => by
      obtain rfl := List.mem_singleton.1 hx
      exact ⟨hqnew, _, hq, rfl, Shape.refs_eq_nil hshape _⟩
  have hqn : q ≠ n := (ne_of_found hnnew hq).symm
  obtain ⟨bq, hbq, hkq⟩ := hadv₂.old hq
  have hqA : q ≠ A := ne_of_found hqnew hA
  let K : Operand × Operand → Emit Operand := fun p => do
    hintEqual p.1 p.2
    pure (.block n)
  have hheld : ("OPERAND", .block q) ∈ (Block.negation n (.block q)).slots :=
    List.mem_singleton.2 rfl
  have he : inequality left right c = (operands q left right >>= K) c₂ :=
    (bind_of_eq hregister).trans (bind_of_eq hplace)
  obtain ⟨cs, c₃, hruns₃, hcalm₃, ⟨hloud, hfail⟩ | ⟨p, hval, hnested⟩⟩ :=
    nested_core (K := K) (g := (Block.negation · (.block q))) hshape (pair_fills hl hr) rfl hs hA
      hruns₂ hcalm₂ (block?_none_of_later hruns₁.advance hnnew) hn rfl
      (Block.valued_of .boolean rfl (by decide)) hanchor hqnew hqn
      ⟨bq, hbq, hkq.face, hkq.inputs hqA⟩ hheld (by decide)
  · rw [he, operands, hfail]
    exact ⟨cs, k', hruns₃, hcalm₃, fun _ => hloud, by simp⟩
  · rw [he, operands, hval]
    obtain ⟨c₄, hhint, hquiet⟩ := hintEqual_quietly hruns₃.good hnested.yields.known
    have hK : K p c₃ = (some (.block n), c₄) := bind_of_eq hhint
    rw [hK]
    have hnested := hnested.quiet hquiet
    refine hnested.emitted rfl rfl rfl rfl (fun hcov => ⟨rfl, hnested.script_at hshape
      (Shape.pair_slotsAt _ _ _ _ relation_ne) hcov, trivial⟩) (hnested.typed_all ?_ ?_)
    · intro _ x b hx hxn _
      cases hx₁ : c₁.target.block? x with
      | none =>
        obtain rfl := hnonly x b hx hx₁
        obtain rfl := Option.mem_unique hx hn
        exact Block.slotHas_of_mem (List.mem_singleton.2 rfl) (by decide)
          ⟨bq, hbq, hkq.inferred (by simp [Block.pair, Block.withSlots])⟩
      | some b₁ =>
        obtain rfl := hqonly x b₁ hx₁ hxn
        obtain rfl := Option.mem_unique hx hbq
        exact wellTyped_of_equals hkq.face
    · rintro x b rfl hx
      obtain ⟨b', hb', hface, -⟩ := hnested.block
      obtain rfl := Option.mem_unique hx hb'
      exact wellTyped_of_equals hface

theorem either_slots (n q w : String) :
    (Block.logic n .or (.block q) (.block w)).slots =
      [("OPERAND1", .block q), ("OPERAND2", .block w)] := by
  simp [Block.slots, Block.logic, Block.pair_entries _ _ _ _ relation_ne]

theorem either_first (n q w : String) :
    ("OPERAND1", .block q) ∈ (Block.logic n .or (.block q) (.block w)).slots := by
  simp [either_slots]

theorem either_second (n q w : String) :
    ("OPERAND2", .block w) ∈ (Block.logic n .or (.block q) (.block w)).slots := by
  simp [either_slots]

/-- A disjunction of two comparisons has been placed, and their slots are empty. -/
structure Either (opcode : Opcode) (σ : Script) (ids : List String) (A slot : String) (a : Block)
    (rest : List String) (F : List (String × Nat)) (k : Nat) (n q w : String)
    (c c' : Compilation) : Prop where
  runs : Runs σ ids ids ((A, k) :: F) (· = A) c c'
  calm : Calm c c'
  fresh : c.target.block? n = none ∧ c.target.block? q = none ∧ c.target.block? w = none
  distinct : q ≠ n ∧ w ≠ n ∧ q ≠ w
  anchor : c'.target.Anchored A (a.fill slot (.block n)).inputs k rest
  holder : c'.target.block? n = some (Target.under A (.logic n .or (.block q) (.block w)))
  first : ∃ b, c'.target.block? q = some b ∧
    b.face = (Block.comparison opcode q .empty .empty).face ∧
    b.inputs = (Block.comparison opcode q .empty .empty).inputs
  second : ∃ b, c'.target.block? w = some b ∧ b.face = (Block.equals w .empty .empty).face ∧
    b.inputs = (Block.equals w .empty .empty).inputs
  typed : Typed (fun _ => False) c c'

theorem either_placed {opcode : Opcode} (ho : opcode.Compares) (hg : c.inference.Good)
    (hs : Sited c.target σ ((A, k) :: F) ids) (hA : c.target.block? A = some a)
    (hfree : a.free k = slot :: rest) :
    ∃ n q w k' c₁ c₂ c', Either opcode σ ids A slot a rest F k' n q w c c' ∧
      register (Block.comparison opcode · .empty .empty) c = (some q, c₁) ∧
      register (.equals · .empty .empty) c₁ = (some w, c₂) ∧
      place (.logic · .or (.block q) (.block w)) c₂ = (some n, c') := by
  have hshape := Shape.comparison ho
  obtain ⟨q, c₁, hregister, hqnew, hqout, hq, hqonly, hruns₁, hcalm₁⟩ := register_new hshape hg hs
  have hshape' := Shape.comparison .equals
  obtain ⟨w, c₂, hregister', hwnew, -, hw, hwonly, hruns₂, hcalm₂⟩ :=
    register_new hshape' hruns₁.good hruns₁.sited
  have hqw : q ≠ w := (ne_of_found hwnew hq).symm
  obtain ⟨bq, hbq, hkq⟩ := hruns₂.advance.old hq
  have hwnew' : c.target.block? w = none := block?_none_of_later hruns₁.advance hwnew
  have hruns₁₂ : Runs σ ids ids ((A, k) :: F) (fun _ => False) c c₂ :=
    hruns₁.trans hruns₂ fun _ _ _ hx => hx.elim id id
  obtain ⟨n, k', c₃, hplace, hnnew, hnonly, hn, hanchor, hruns₃, hcalm₃, hadv₃⟩ :=
    place_holder (.either hqw) hs hA hfree hruns₁₂ (hcalm₁.trans hcalm₂ hruns₂.advance) fun x hx => by
      rcases List.mem_cons.1 hx with rfl | hx
      · refine ⟨hqnew, bq, hbq, hkq.parent hqout, ?_⟩
        rw [← Shape.refs_eq_nil hshape x, Links.refs, Links.refs, Block.links_children,
          Block.links_children, Block.children, Block.children, hkq.inputs id]
        exact congrArg (Option.toList · ++ _) (hkq.next hqout)
      · obtain rfl := List.mem_singleton.1 hx
        exact ⟨hwnew', _, hw, rfl, Shape.refs_eq_nil hshape' _⟩
  have hne : ∀ {x b}, c₂.target.block? x = some b → x ≠ n := fun hx => (ne_of_found hnnew hx).symm
  have hneA : ∀ {x}, c.target.block? x = none → x ≠ A := fun hx => ne_of_found hx hA
  obtain ⟨bq', hbq', hkq'⟩ := hadv₃.old hbq
  obtain ⟨bw, hbw, hkw⟩ := hadv₃.old hw
  refine ⟨n, q, w, k', c₁, c₂, c₃, ⟨hruns₃, hcalm₃, ⟨block?_none_of_later hruns₁₂.advance hnnew, hqnew,
    hwnew'⟩, ⟨hne hbq, hne hw, hqw⟩, hanchor, hn, ⟨bq', hbq', hkq'.face.trans hkq.face,
    (hkq'.inputs (hneA hqnew)).trans (hkq.inputs id)⟩, ⟨bw, hbw, hkw.face, hkw.inputs (hneA hwnew')⟩,
    ?_⟩, hregister, hregister', hplace⟩
  intro _ x b hx hxn _
  cases hx₂ : c₂.target.block? x with
  | none =>
    obtain rfl := hnonly x b hx hx₂
    obtain rfl := Option.mem_unique hx hn
    constructor
    · refine Block.slotHas_of_mem (either_first x q w) (by decide) ⟨bq', hbq', ?_⟩
      have hi : bq.inferred = .boolean := hkq.inferred (by simp [Block.pair, Block.withSlots])
      exact (hkq'.inferred (by simp [hi])).trans hi
    · exact Block.slotHas_of_mem (either_second x q w) (by decide)
        ⟨bw, hbw, hkw.inferred (by simp [Block.pair, Block.withSlots])⟩
  | some b₂ =>
    cases hx₁ : c₁.target.block? x with
    | none =>
      obtain rfl := hwonly x b₂ hx₂ hx₁
      obtain rfl := Option.mem_unique hx hbw
      exact wellTyped_of_equals hkw.face
    | some b₁ =>
      obtain rfl := hqonly x b₁ hx₁ hxn
      obtain rfl := Option.mem_unique hx hbq'
      exact ho.wellTyped (Block.opcode_of_face (hkq'.face.trans hkq.face) rfl)

/-- The slots of a block with two slots, and their kinds. -/
theorem entries_of_slots {first second : String} {v v' : SlotValue}
    (h : b.slots = [(first, v), (second, v')]) :
    ∃ kind kind', b.inputs.entries = [(first, ⟨kind, v⟩), (second, ⟨kind', v'⟩)] := by
  rw [Block.slots] at h
  generalize b.inputs.entries = entries at h ⊢
  obtain _ | ⟨⟨name, ⟨kind, value⟩⟩, _ | ⟨⟨name', ⟨kind', value'⟩⟩, _ | ⟨e, es⟩⟩⟩ := entries
  · simp at h
  · simp at h
  · obtain ⟨⟨rfl, rfl⟩, rfl, rfl⟩ : (name = first ∧ value = v) ∧ name' = second ∧ value' = v' := by
      simpa using h
    exact ⟨kind, kind', rfl⟩
  · simp at h

/-- The blocks in the slots of the first comparison have come since it was placed. -/
theorem Either.new_operands {opcode : Opcode} {bq : Block} (ho : opcode.Compares)
    (he : Either opcode σ ids A slot a rest F k n q w c c₁)
    (h : Copying σ ids ids' inputs O w c₀ c') (hsame : ∀ x, c₀.target.block? x = c₁.target.block? x)
    (hbq : c'.target.block? q = some bq) :
    ∀ e ∈ bq.inputs.entries, ∀ child, e.2.block? = some child →
      (∃ b, c'.target.block? child = some b) ∧ c₀.target.block? child = none := by
  intro e hmem child hb
  have hchild : child ∈ bq.children :=
    List.mem_filterMap.2 ⟨e.2, List.mem_map.2 ⟨e, hmem, rfl⟩, hb⟩
  obtain ⟨b, hb', -⟩ := Target.exists_child h.runs.sited.sound.linked hbq hchild
  refine ⟨⟨b, hb'⟩, h.runs.new_children h.sound h.stays hbq (fun b₀ hb₀ => ?_) hchild⟩
  rw [hsame] at hb₀
  obtain ⟨bq₁, hbq₁, -, hin₁⟩ := he.first
  obtain rfl := Option.mem_unique hb₀ hbq₁
  have hnext : b₀.next = none :=
    next_eq_none he.runs.sited.sound he.holder (either_first n q w) (by decide) hb₀
  rw [Links.refs, Block.links_children, Block.children, hin₁, Block.links, hnext]
  exact (Shape.comparison ho).children q

/-- The operands of the first comparison, once they are there, can be copied into the second. -/
theorem Either.copy {opcode : Opcode} {bq bw : Block} (ho : opcode.Compares)
    (he : Either opcode σ ids A slot a rest F k n q w c c₁)
    (h : Copying σ ids ids' inputs O w c₀ c') (hsame : ∀ x, c₀.target.block? x = c₁.target.block? x)
    (hbq : c'.target.block? q = some bq)
    (hqin : bq.inputs = ((Block.comparison opcode q .empty .empty).fillAll ["OPERAND1", "OPERAND2"]
      [v, v']).inputs) (hbw : c'.target.block? w = some bw)
    (hwin : bw.inputs = (Block.equals w .empty .empty).inputs) :
    ∃ kind kind' c₂, bq.inputs.entries =
        [("OPERAND1", ⟨kind, v.slotValue⟩), ("OPERAND2", ⟨kind', v'.slotValue⟩)] ∧
      copySlots w (((c'.target.block? q).map (·.inputs.entries)).getD []) c' = (some (), c₂) ∧
      SlotsCopied σ ids ids' inputs O w bw [] bq.inputs.entries c₀ c' c₂ := by
  obtain ⟨kind, kind', hentries⟩ := entries_of_slots (b := bq)
    ((congrArg (fun i => i.entries.map fun e => (e.1, e.2.value)) hqin).trans
      (Block.pair_fillAll_slots q opcode .boolean .text relation_ne v v'))
  have hwentries : bw.inputs.entries =
      [] ++ [("OPERAND1", ⟨.text, .empty⟩), ("OPERAND2", ⟨.text, .empty⟩)] := by
    rw [hwin]
    exact Block.pair_entries w .equals .boolean .text relation_ne .empty .empty
  have hslots : List.Forall₂ (fun e e' : String × Input => e'.1 = e.1 ∧ e'.2.value = .empty)
      bq.inputs.entries [("OPERAND1", ⟨.text, .empty⟩), ("OPERAND2", ⟨.text, .empty⟩)] := by
    rw [hentries]
    exact .cons ⟨rfl, rfl⟩ (.cons ⟨rfl, rfl⟩ .nil)
  obtain ⟨c₂, hcopy, hcopied⟩ := copySlots_run h hbw hwentries hslots
    (he.new_operands ho h hsame hbq)
  exact ⟨kind, kind', c₂, hentries, by simpa [hbq] using hcopy, hcopied⟩

/-- The operands of the first comparison are copied into the second. -/
theorem Nested.mirror {opcode : Opcode} (ho : opcode.Compares) (hl : l.Single) (hr : r.Single)
    (h : Nested env (.comparison opcode q .empty .empty)
      (.logic n .or (.block q) (.block w)) ["OPERAND1", "OPERAND2"] [l, r] calls σ pre cs s A slot a
      rest F k n q (· = q) [v, v'] c c₁ c')
    (he : Either opcode σ (pre ++ [s]) A slot a rest F k n q w c c₁) :
    ∃ c₂, copySlots w (((c'.target.block? q).map (·.inputs.entries)).getD []) c' = (some (), c₂) ∧
      Nested env (.comparison opcode q .empty .empty)
        (.logic n .or (.block q) (.block w)) ["OPERAND1", "OPERAND2"] [l, r] calls σ pre cs s A slot a
        rest F k n q (fun x => x = q ∨ x = w) [v, v'] c c₁ c₂ ∧
      ∃ b, c₂.target.block? w = some b ∧ b.face = (Block.equals w .empty .empty).face ∧
        b.next = none ∧ (env.Covers c.inference →
          SlotsAt (env.look c₂.target) (Inner c (pre ++ cs ++ [s])) b.slots
            [("OPERAND1", l), ("OPERAND2", r)]) := by
  obtain ⟨-, hqnew, hwnew⟩ := he.fresh
  obtain ⟨-, hwn, hqw⟩ := he.distinct
  obtain ⟨bq, hbq, hqface, hqin, hqnext⟩ := h.block
  obtain ⟨bw₁, hbw₁, hwface, hwin⟩ := he.second
  obtain ⟨bw, hbw, hkw⟩ := h.runs.advance.old hbw₁
  have hids : ∀ x ∈ pre ++ [s], x ∈ pre ++ cs ++ [s] := by
    intro x hx
    simp only [List.mem_append] at hx ⊢
    grind
  have hcopying : Copying σ (pre ++ [s]) (pre ++ cs ++ [s]) ((A, k) :: F) (fun x => x = q ∨ x = w) w
      c₁ c' := ⟨he.runs.sited.sound, hids, h.runs.mono fun _ _ _ => .inl, h.calm, h.typed,
        by simp [hbw₁], .inr rfl⟩
  obtain ⟨kind, kind', c₂, hentries, hcopy, hcopied⟩ := he.copy ho hcopying (fun _ => rfl) hbq hqin
    hbw ((hkw.inputs hqw.symm).trans hwin)
  have hne : ∀ {x}, c.target.block? x ≠ none → x ≠ w := by
    rintro x hx rfl
    exact hx hwnew
  obtain ⟨bw₂, slots', hbw₂, hcore, hnext₂, hin₂, hmirror⟩ := hcopied.filled
  have hout : ∀ {x}, c'.target.block? x = none → Inner c (pre ++ cs ++ [s]) x := by
    refine fun {x} hx => ⟨block?_none_of_later h.all_runs.advance hx, fun hm => ?_⟩
    obtain ⟨b, hb⟩ := h.runs.sited.exists_block (List.mem_append_right _ hm)
    simp [hx] at hb
  refine ⟨c₂, hcopy, ⟨h.placed, h.placed_calm, hcopied.runs, hcopied.calm, ?_, h.old, h.inner,
    hcopied.advance.anchored h.anchor (hne (by simp [h.old])), ?_, ?_, ?_, hcopied.typed⟩, bw₂, hbw₂,
    (Block.face_congr hcore).trans (hkw.face.trans hwface), ?_, fun hcov => ?_⟩
  · rintro x (rfl | rfl)
    · exact hqnew
    · exact hwnew
  · obtain ⟨b, hb, hrest⟩ := h.holder
    exact ⟨b, hcopied.kept hb hwn.symm, hrest⟩
  · exact ⟨bq, hcopied.kept hbq hqw, hqface, hqin, hqnext⟩
  · refine h.yields.advance hcopied.advance hcopied.calm_last ?_ (fun _ => False.elim)
      fun _ hx => .inr (.inl hx)
    rintro x rfl
    simp [hbw₁]
  · obtain ⟨b, hb, -, hin, -⟩ := h.holder
    have hmem : ("OPERAND2", .block w) ∈ b.slots := by
      rw [Block.slots, hin]
      exact either_second n q w
    exact next_eq_none hcopied.runs.sited.sound (hcopied.kept hb hwn.symm) hmem (by decide) hbw₂
  · rw [hentries] at hmirror
    obtain ⟨e, es, he₁, hmirror', rfl⟩ := List.forall₂_cons_left_iff.1 hmirror
    obtain ⟨e', es', he₂, hnil, rfl⟩ := List.forall₂_cons_left_iff.1 hmirror'
    obtain rfl := List.forall₂_nil_left_iff.1 hnil
    -- the copied operands do not lie below the second comparison
    have hread : ∀ {op : Operand} {content : Content} {e e' : String × Input}, content.Single →
        Mirrored w c' c₂ e e' → e.2.value = op.slotValue →
        content.At (env.look c'.target) (Inner c₁ (pre ++ cs ++ [s])) op.slotValue →
        content.At (env.look c₂.target) (Inner c (pre ++ cs ++ [s])) e'.2.value := by
      intro op content e e' hsingle hm hvalue hat
      have hat' : content.At (env.look c'.target) (· ≠ w) e.2.value := by
        rw [hvalue]
        exact hat.mono (fun y v hy hv => ⟨ne_of_found hy.1 hbw₁, hv⟩) _ _
      exact (hm.reads hsingle hat').mono (fun y v hy hv => ⟨hout hy, hv⟩) _ _
    have hvalues := h.yields.values (h.placed_calm.covers hcov)
    obtain ⟨hv, hvs⟩ := List.forall₂_cons.1 hvalues
    obtain ⟨hv', -⟩ := List.forall₂_cons.1 hvs
    rw [Block.slots, hin₂]
    exact ⟨he₁.name, hread hl he₁ rfl hv, he₂.name, hread hr he₂ rfl hv', trivial⟩

/-- A comparison that allows equality is the disjunction of a strict one and an equality. -/
theorem inclusive_emits {opcode : Opcode} (ho : opcode.Compares)
    (hl : Emits env left.emit l calls) (hr : Emits env right.emit r calls') (hlone : l.Single)
    (hrone : r.Single) :
    Emits env (inclusive (Block.comparison opcode) left right)
      (.script [.relation (.logic .or) (.script [.relation opcode l r])
        (.script [.relation .equals l r])]) (calls ++ calls') := by
  intro c σ A k F pre s a slot rest hg hs hA hfree
  let K : String → String → String → Operand × Operand → Emit Operand := fun q w n p => do
    hintType .number [p.1, p.2]
    let t ← target
    copySlots w (((t.block? q).map (·.inputs.entries)).getD [])
    pure (.block n)
  obtain ⟨n, q, w, k', _, _, c₁, he, hregister, hregister', hplace⟩ :=
    either_placed ho hg hs hA hfree
  have hc : inclusive _ left right c = (operands q left right >>= K q w n) c₁ :=
    (bind_of_eq hregister).trans ((bind_of_eq hregister').trans (bind_of_eq hplace))
  have hshape := Shape.comparison ho
  obtain ⟨cs, c₂, hruns₂, hcalm₂, ⟨hloud, hfail⟩ | ⟨p, hval, hnested⟩⟩ :=
    nested_core (K := K q w n) (g := (Block.logic · .or (.block q) (.block w))) hshape
      (pair_fills hl hr) rfl hs hA he.runs he.calm he.fresh.1 he.holder rfl
      (Block.valued_of .boolean rfl (by decide)) he.anchor he.fresh.2.1 he.distinct.1 he.first
      (either_first n q w) (by decide)
  · rw [hc, operands, hfail]
    exact ⟨cs, k', hruns₂, hcalm₂, fun _ => hloud, by simp⟩
  · rw [hc, operands, hval]
    have hquiet := Quietly.hintType hruns₂.good (by decide : ValueType.number ≠ .void) [p.1, p.2]
    obtain ⟨c₄, hcopy, hnested', b, hb, hface, hnext, hslots⟩ :=
      (hnested.quiet hquiet).mirror ho hlone hrone he
    have hK : K q w n p c₂ = (some (.block n), c₄) :=
      show (copySlots w _ >>= fun _ => pure (Operand.block n)) _ = _ from bind_of_eq hcopy
    rw [hK]
    have hshape' := Shape.comparison .equals
    refine hnested'.emitted rfl rfl rfl rfl (fun hcov => ?_) (hnested'.typed_all he.typed ?_)
    · rw [either_slots]
      refine ⟨rfl, hnested'.script_at hshape (Shape.pair_slotsAt _ _ _ _ relation_ne) hcov, rfl,
        ⟨⟨he.fresh.2.2, ?_⟩, hshape'.tree_at hb hface (hslots hcov), env.view b,
          by simp [Env.look, hb], ?_⟩, trivial⟩
      · intro hm
        obtain hm | hnone := hnested'.runs.new_ids w hm
        · obtain ⟨b₀, hb₀⟩ := hs.exists_block (List.mem_append_right _ hm)
          simp [he.fresh.2.2] at hb₀
        · obtain ⟨bw, hbw, -⟩ := he.second
          simp [hbw] at hnone
      · rw [show (env.view b).next = none from hnext]
        trivial
    · rintro x bx (rfl | rfl) hx
      · obtain ⟨b', hb', hface', -⟩ := hnested'.block
        obtain rfl := Option.mem_unique hx hb'
        exact ho.wellTyped (Block.opcode_of_face hface' rfl)
      · obtain rfl := Option.mem_unique hx hb
        exact wellTyped_of_equals hface

end

end Emit
end ScriptBlocks
