import ScriptBlocks.Proofs.Holding
import ScriptBlocks.Proofs.Results

/-!
# Conditionals

The bodies of a conditional are compiled one after the other into chains of their own, and each is
then attached to a slot of the conditional. What a body reads as becomes the content of its slot.
-/
namespace ScriptBlocks

variable {S : String → Prop} {look : String → Option View} {value : SlotValue}

/-- The slot of a body that starts with this block. -/
def SlotValue.ofHead (head : Option String) : SlotValue :=
  head.elim .empty .block

/-- A chain of blocks reads as a script when its blocks do. -/
theorem scriptAt_of_chain (view : Block → View) (hview : ∀ b, (view b).next = b.next) {t : Target}
    {before : Option String} {ids : List String} {trees : List Tree}
    (hchain : Chain t.links before ids none)
    (h : List.Forall₂ (fun x tree => S x ∧ tree.At (fun x => (t.block? x).map view) S x) ids trees) :
    ScriptAt (fun x => (t.block? x).map view) S ids.head? trees := by
  induction h generalizing before with
  | nil => trivial
  | @cons x tree ids trees hx _ ih =>
    obtain ⟨⟨l, hl, -, hnext⟩, hrest⟩ := hchain
    obtain ⟨b, hb, rfl⟩ := Target.exists_of_links hl
    refine ⟨hx.1, hx.2, view b, by simp [hb], ?_⟩
    rw [Option.or_none] at hnext
    rw [show (view b).next = ids.head? from (hview b).trans hnext]
    exact ih hrest

/-- One slot is given other contents. -/
theorem slotsAt_update {slot : String} {content : Content} (hc : content.At look S value) :
    (values : List (String × SlotValue)) → (slots : List (String × Content)) →
      SlotsAt look S values slots →
      SlotsAt look S (values.map fun e => if e.1 = slot then (e.1, value) else e)
        (slots.map fun e => if e.1 = slot then (e.1, content) else e)
  | [], [], _ => trivial
  | _ :: _, [], h => h.elim
  | [], _ :: _, h => h.elim
  | (name, _) :: values, (name', _) :: slots, ⟨hn, hat, hs⟩ => by
    subst hn
    by_cases h : name = slot
    · simp only [List.map_cons, h, ↓reduceIte]
      exact ⟨rfl, hc, slotsAt_update hc values slots hs⟩
    · simp only [List.map_cons, h, ↓reduceIte]
      exact ⟨rfl, hat, slotsAt_update hc values slots hs⟩

/-- What the slot of a body holds reads as the body. -/
theorem Content.body_at {head : Option String} {trees : List Tree} (h : ScriptAt look S head trees) :
    (Content.body trees).At look S (.ofHead head) := by
  cases head <;> cases trees
  · trivial
  · exact h
  · exact h
  · exact h

theorem forall₂_concat {α β : Type} {R : α → β → Prop} {xs : List α} {ys : List β} {x : α} {y : β} :
    List.Forall₂ R (xs ++ [x]) (ys ++ [y]) ↔ List.Forall₂ R xs ys ∧ R x y := by
  rw [← List.forall₂_reverse_iff]
  simp [and_comm]

theorem forall₂_mem {α β : Type} {R : α → β → Prop} {xs : List α} {ys : List β}
    (h : List.Forall₂ R xs ys) : List.Forall₂ (fun x y => x ∈ xs ∧ R x y) xs ys := by
  induction h with
  | nil => exact .nil
  | cons hxy _ ih =>
    exact .cons ⟨List.mem_cons_self, hxy⟩
      (ih.imp fun _ _ hr => ⟨List.mem_cons_of_mem _ hr.1, hr.2⟩)

namespace Emit

open Compilation

variable {env : Env} {c c' c'' : Compilation} {σ : Script} {ids new : List String}
variable {n slot : String} {b : Block} {input : Input} {outer : Scopes} {head : Option String}

/-- A body has been attached to a slot. -/
structure Attached (n slot : String) (b : Block) (head : Option String) (outer : Scopes)
    (c c' : Compilation) : Prop where
  same : ∃ t, c' = c.setTarget t
  rewired : Rewired (· = n) (fun x => head = some x) c.target c'.target
  fresh : ∀ {x}, c.target.block? x = none → c'.target.block? x = none
  next : ∀ {x b b'}, c.target.block? x = some b → c'.target.block? x = some b' → b'.next = b.next
  linked : Linked c'.target.links
  scopes : c'.target.scopes = outer
  inputs : ∀ {b'}, c'.target.block? n = some b' →
    b'.inputs = (b.fill slot (.ofHead head)).inputs

/-- The end of a body. The block that is to hold it stands in another chain. -/
theorem closeBranch_attached {chain : List String} (hs : Sited c.target ⟨none, outer⟩ [] ids)
    (hb : c.target.block? n = some b) (hin : b.inputs.get? slot = some input)
    (he : input.value = .empty) (hbody : isBodySlot slot = true)
    (hchain : Chain c.target.links none chain none) (hn : n ∈ chain) (hout : ∀ x ∈ ids, x ∉ chain) :
    Attached n slot b ids.head? outer c (closeBranch n slot c) := by
  cases ids with
  | nil =>
    rw [closeBranch_nil hs]
    refine ⟨⟨_, rfl⟩, ?_, ?_, ?_, ?_, ?_, ?_⟩
    all_goals rw [target_setTarget]
    · exact .of_blocks rfl rfl rfl
    · exact id
    · intro x bx bx' hx hx'
      obtain rfl := Option.mem_unique hx hx'
      rfl
    · exact hs.sound.linked
    · intro b' hb'
      obtain rfl := Option.mem_unique hb hb'
      exact (Block.fill_empty (Table.get?_eq_some_iff.1 hin) he).symm
  | cons h rest =>
    have hid : n ∉ h :: rest := fun hm => hout n hm hn
    have hne : n ≠ h := fun heq => hid (heq ▸ List.mem_cons_self)
    rw [closeBranch_cons hs hb hin hid]
    obtain ⟨⟨l, hl, hroot, -⟩, -⟩ := hs.chain
    obtain ⟨bh, hbh, rfl⟩ := Target.exists_of_links hl
    have hlookup := Target.block?_hold { c.target with scopes := outer } hne slot
    refine ⟨⟨_, rfl⟩, ?_, ?_, ?_, ?_, ?_, ?_⟩
    all_goals rw [target_setTarget]
    · have hr := Target.hold_rewired (t := { c.target with scopes := outer }) hne slot
      refine ⟨fun {x bx} hx => ?_, hr.new, hr.drawn_le, hr.tables⟩
      obtain ⟨b', hb', hcore, hin', hkept⟩ := hr.old hx
      exact ⟨b', hb', hcore, hin', fun hc => hkept fun heq => hc (by rw [heq]; rfl)⟩
    · exact Target.hold_none hne
    · intro x bx bx' hx hx'
      rw [hlookup, show Target.block? { c.target with scopes := outer } x = some bx from hx] at hx'
      split at hx'
      · cases hx'
        rfl
      · split at hx' <;> cases hx' <;> rfl
    · refine Target.hold_linked (t := { c.target with scopes := outer }) hs.sound.linked hb
        (Table.get?_eq_some_iff.1 hin) he hbody hbh hroot fun habove => ?_
      exact hout h List.mem_cons_self (hchain.mem_of_above hn habove)
    · rfl
    · intro b' hb'
      rw [hlookup, if_neg hne, if_pos rfl,
        show Target.block? { c.target with scopes := outer } n = some b from hb] at hb'
      cases hb'
      rfl

/-- The script around a body goes on where it was. -/
theorem Attached.extended (hs : Sited c.target σ [] ids)
    (he : Extended ⟨none, c.target.scopes⟩ [] new (fun _ => False) (enterBlock c) c')
    (h : Attached n slot b new.head? c.target.scopes c' c'') :
    Extended σ ids [] (· = n) c c'' := by
  have htarget : (enterBlock c).target = c.target.enter (.after none) := c.target_setTarget _
  have hinference : (enterBlock c).inference = ⟨c.target.enter (.after none), c.function⟩ :=
    c.inference_setTarget _
  have hfresh : ∀ x ∈ new, c.target.block? x = none := by
    intro x hx
    have hn := he.fresh hx
    rw [htarget] at hn
    exact hn
  have hhead : ∀ x bx, c.target.block? x = some bx → new.head? ≠ some x := by
    intro x bx hx hh
    simp [hfresh x (List.mem_of_mem_head? hh)] at hx
  obtain ⟨t, ht⟩ := h.same
  have hinference'' : c''.inference = ⟨c''.target, c'.function⟩ := by
    rw [ht]
    simp
  have hadvance : Inference.Advance (· = n) (fun _ => False) c.inference c''.inference := by
    have h₁ : Inference.Advance (fun _ => False) (fun _ => False) c.inference (enterBlock c).inference := by
      have hr : Rewired (fun _ => False) (fun _ => False) c.target (c.target.enter (.after none)) :=
        .of_blocks rfl rfl rfl
      rw [hinference]
      exact .ofRewired hr c.function
    have h₂ := Inference.Advance.ofRewired h.rewired c'.function
    rw [← hinference''] at h₂
    have h₁₂ : Inference.Advance (fun _ => False) (fun _ => False) c.inference c'.inference :=
      h₁.trans he.runs.advance (by simp) (by simp)
    refine h₁₂.trans h₂ (fun x bx _ hx => hx.elim False.elim id) fun x bx hx hc => ?_
    exact hhead x bx hx (hc.resolve_left id)
  have hsound : Sound c''.target :=
    ⟨h.linked, fun {m} hm => h.rewired.fresh he.runs.sited.sound hm⟩
  refine ⟨⟨?_, ?_, hadvance.mono (fun _ _ _ => id) fun _ _ _ => False.elim,
    fun x hx => .inl (by simpa using hx)⟩, ?_, ?_, ?_, fun {x bx a} hx hxn ha => ?_, fun {x bx} hx hxn => ?_, fun hapart => ?_⟩
  · rw [List.append_nil]
    refine hs.resite hsound (fun x bx hx => ?_) fun scopes hsc => ?_
    · obtain ⟨b', hb', hk⟩ := hadvance.old hx
      exact ⟨b', hb', fun _ => ⟨hk.next id, hk.parent id⟩⟩
    · rw [h.scopes]
      exact hsc
  · rw [hinference'']
    exact he.runs.good.rewired h.rewired
  · have hrest : SameRest c' c'' := by
      rw [ht]
      exact .setTarget c' t
    exact ((SameRest.setTarget c _).trans he.rest).trans hrest
  · have h₁ : c.target.Persists (enterBlock c).target := by
      rw [htarget]
      exact .of_tables rfl
    exact (h₁.trans he.persists).trans (.of_tables h.rewired.tables)
  · have hf : c''.function = c'.function := congrArg Inference.function hinference''
    rw [hf]
    exact he.function
  · cases hx' : c'.target.block? x with
    | none => simp [h.fresh hx'] at hx
    | some bx' =>
      obtain ⟨b₂, hb₂, hcore, -, -⟩ := h.rewired.old hx'
      obtain rfl := Option.mem_unique hx hb₂
      have harg : bx'.argument = some a := (congrArg Block.argument hcore :).symm.trans ha
      obtain ⟨s, p, hs', hp, hmem⟩ := he.marked hx' (by rw [htarget]; exact hxn) harg
      exact ⟨s, p, by rw [hinference'']; exact hs', hp, hmem⟩
  · cases hx' : c'.target.block? x with
    | none => simp [h.fresh hx'] at hx
    | some bx' =>
      obtain ⟨b₂, hb₂, hcore, -, -⟩ := h.rewired.old hx'
      obtain rfl := Option.mem_unique hx hb₂
      exact fun hst => he.inner hx' (by rw [htarget]; exact hxn)
        (hst.of_face (Block.face_congr hcore).symm)
  · have h₁ : (enterBlock c).Apart := fun x v s hx hf => by
      rw [htarget] at hx
      exact hapart x v s hx hf
    intro x v s hx hf
    have hvars : c''.target.vars = c'.target.vars := (congrArg Target.vars h.rewired.tables :)
    refine he.apart h₁ x v s ?_ ((congrArg Inference.function hinference'').symm.trans hf)
    simp only [Target.builtVariable?, Target.variableNamed?, hvars] at hx ⊢
    exact hx

theorem enterBlock_good (hg : c.inference.Good) : (enterBlock c).inference.Good := by
  rw [show (enterBlock c).inference = ⟨_, c.function⟩ from c.inference_setTarget _]
  exact hg.rewired (.of_blocks rfl rfl rfl :
    Rewired (fun _ => False) (fun _ => False) c.target (c.target.enter (.after none)))

/-- The end of a body of a conditional in the script. The body itself leaves the conditional and
the script around it untouched. -/
theorem body_attached (hs : Sited c.target σ [] ids)
    (hbc : Extended ⟨none, c.target.scopes⟩ [] new (fun _ => False) (enterBlock c) c')
    (hn : n ∈ ids) (hb : c.target.block? n = some b) (hin : b.inputs.get? slot = some input)
    (he : input.value = .empty) (hbody : isBodySlot slot = true) :
    ∃ b', c'.target.block? n = some b' ∧ b'.inputs = b.inputs ∧
      Attached n slot b' new.head? c.target.scopes c' (closeBranch n slot c') ∧
      Extended σ ids [] (· = n) c (closeBranch n slot c') := by
  have htarget : (enterBlock c).target = c.target.enter (.after none) := c.target_setTarget _
  have hadvance := hbc.runs.advance
  obtain ⟨b', hb', hk⟩ := hadvance.old (show (enterBlock c).target.block? n = some b by
    rw [htarget]; exact hb)
  have hin' : b'.inputs = b.inputs := hk.inputs id
  have hchain : Chain c'.target.links none (σ.base.toList ++ ids) none := by
    refine hs.chain.congr fun x _ l hl => ?_
    obtain ⟨bx, hbx, rfl⟩ := Target.exists_of_links hl
    obtain ⟨bx', hbx', hk⟩ := hadvance.old (show (enterBlock c).target.block? x = some bx by
      rw [htarget]; exact hbx)
    exact ⟨bx'.links, Target.links_eq_some hbx', hk.parent (by simp), hk.next (by simp)⟩
  have hout : ∀ x ∈ new, x ∉ σ.base.toList ++ ids := by
    intro x hx hm
    obtain ⟨bx, hbx⟩ := hs.exists_block hm
    have hnone := hbc.fresh hx
    rw [htarget] at hnone
    simp [show c.target.block? x = none from hnone] at hbx
  have ha : Attached n slot b' new.head? c.target.scopes c' (closeBranch n slot c') :=
    closeBranch_attached hbc.runs.sited hb' (hin' ▸ hin) he hbody hchain
      (List.mem_append_right _ hn) hout
  exact ⟨b', hb', hin', ha, ha.extended hs hbc⟩

/-- The block that holds a body stays well typed, since the slot was empty. -/
theorem Attached.wellTyped (h : Attached n slot b head outer c c') {b' : Block}
    (hb : c.target.block? n = some b) (hin : b.inputs.get? slot = some input)
    (he : input.value = .empty) (hb' : c'.target.block? n = some b') (hw : b.WellTyped c.target) :
    b'.WellTyped c'.target := by
  obtain ⟨b₂, hb₂, hcore, -, -⟩ := h.rewired.old hb
  obtain rfl := Option.mem_unique hb' hb₂
  have hinputs := h.inputs hb'
  refine hw.transfer (congrArg Block.fields hcore :) (congrArg Block.mutation hcore :) ?_
    (congrArg Block.opcode hcore :) (.of_tables h.rewired.tables) ?_
  · rw [hinputs, Block.fill, Table.keys_modify]
  · rintro name type ⟨ht, i, hi, hv⟩
    have hname : slot ≠ name := by
      rintro rfl
      obtain rfl := Option.mem_unique hi hin
      rw [he] at hv
      exact hv
    refine ⟨ht, i, ?_, hv.mono ht (.of_tables h.rewired.tables) fun x bx _ hx _ => ?_⟩
    · rw [hinputs, Block.fill, Table.get?_modify_of_ne _ _ hname, hi]
    · obtain ⟨bx', hx', hcore', -, -⟩ := h.rewired.old hx
      exact ⟨bx', hx', (congrArg Block.inferred hcore' :)⟩

/-- Blocks other than the holder look as before. -/
theorem Attached.look_eq (h : Attached n slot b head outer c c') {x : String} (hx : x ≠ n) {v : View}
    (hv : env.look c.target x = some v) : env.look c'.target x = some v := by
  obtain ⟨bx, hbx, rfl⟩ := Option.map_eq_some_iff.1 hv
  obtain ⟨bx', hbx', hcore, hin, -⟩ := h.rewired.old hbx
  exact Option.map_eq_some_iff.2 ⟨bx', hbx',
    Env.view_congr (Block.face_congr hcore) (hin hx) (h.next hbx hbx')⟩

/-- An attached body reads as its statements. -/
theorem Attached.content_at {c₀ : Compilation} {trees : List Tree}
    (h : Attached n slot b new.head? outer c c') (hs : Sited c.target ⟨none, outer⟩ [] new)
    (hreads : Reads env [] new trees c₀ c) (hn : c₀.target.block? n ≠ none)
    (hnew : ∀ x ∈ new, c₀.target.block? x = none) (hS : ∀ x, c₀.target.block? x = none → S x) :
    (Content.body trees).At (env.look c'.target) S (.ofHead new.head?) := by
  have hmem : List.Forall₂ (fun x tree => c₀.target.block? x = none ∧
      tree.At (env.look c.target) (fun y => c₀.target.block? y = none) x) new trees := by
    refine (forall₂_mem hreads).imp fun x tree hx => ⟨hnew x hx.1, ?_⟩
    exact hx.2.mono (fun y v hy hv => ⟨hy.1, hv⟩) (fun v hv => ⟨v, hv, .rfl⟩) tree
  refine Content.body_at (scriptAt_mono (fun y v hy hv => ⟨hS y hy, h.look_eq ?_ hv⟩) _ _
    (scriptAt_of_chain env.view (fun _ => rfl) hs.chain hmem))
  rintro rfl
  exact hn hy

section

variable {run : Compilation → Compilation} {trees calls : List Tree} {names declared pre : List String}
variable {opcode : Opcode} {fields : List (String × Field)} {mutation : Option Mutation}
variable {slots : List (String × Content)}

/-- The conditional reads as before except for the slot of the body. -/
theorem Attached.reads {content : Content} {b' : Block}
    (hreads : Reads env ids (pre ++ [n]) (calls ++ [.node opcode fields mutation slots]) c c')
    (hs : Sited c.target σ [] ids) (hnodup : (ids ++ (pre ++ [n])).Nodup)
    (he : Extended σ (ids ++ (pre ++ [n])) [] (· = n) c' c'') (hb : c'.target.block? n = some b)
    (hb' : c''.target.block? n = some b') (hin : b'.inputs = (b.fill slot value).inputs)
    (hcontent : content.At (env.look c''.target) (Inner c (ids ++ (pre ++ [n]))) value) :
    Reads env ids (pre ++ [n]) (calls ++ [.node opcode fields mutation
      (slots.map fun e => if e.1 = slot then (e.1, content) else e)]) c c'' := by
  have hO : ∀ y, y = n → y ∈ ids ++ (pre ++ [n]) := by
    rintro _ rfl
    simp
  have hnil : ids ++ (pre ++ [n] ++ []) = ids ++ (pre ++ [n]) := by simp
  obtain ⟨hpre, v, hv, hop, hfields, hmutation, hslots⟩ := forall₂_concat.1 hreads
  obtain ⟨b₁, hb₁, rfl⟩ := Option.map_eq_some_iff.1 hv
  obtain rfl := Option.mem_unique hb₁ hb
  obtain ⟨b₂, hb₂, hk⟩ := he.runs.advance.old hb
  obtain rfl := Option.mem_unique hb' hb₂
  have hface : b'.face = b₁.face := hk.face
  refine forall₂_concat.2 ⟨(forall₂_mem hpre).imp fun x tree hx => ?_, env.view b',
    Option.map_eq_some_iff.2 ⟨b', hb', rfl⟩, (Env.view_opcode hface).trans hop, ?_, ?_, ?_⟩
  · have hne : x ≠ n := by
      rintro rfl
      have hnd := (List.nodup_append.1 hnodup).2.1
      exact (List.nodup_append.1 hnd).2.2 x hx.1 x (by simp) rfl
    have hat := tree_later hs he hO hne hx.2
    rw [hnil] at hat
    exact hat
  · exact (congrArg Table.entries (congrArg Block.fields hface :)).trans hfields
  · exact (congrArg Block.mutation hface :).trans hmutation
  · have hview : (env.view b').slots = (b₁.fill slot value).slots := by
      rw [Block.slots, ← hin]
      rfl
    rw [hview, Block.slots_fill]
    refine slotsAt_update hcontent _ _ (slotsAt_mono (fun y w hy hw => ?_) _ _ hslots)
    have hlook := look_later hs he hO y w hy hw
    rw [hnil] at hlook
    exact hlook

/-- A body of a conditional that stands at the end of its script. -/
theorem body_compiled (hrun : Compiles env false run trees names)
    (hc : Compiled env σ ids (pre ++ [n]) (calls ++ [.node opcode fields mutation slots]) declared c c')
    (hs : Sited c.target σ [] ids) (hinside : c'.Inside) (hb : c'.target.block? n = some b)
    (hin : b.inputs.get? slot = some input) (he : input.value = .empty)
    (hbody : isBodySlot slot = true) :
    Compiled env σ ids (pre ++ [n])
        (calls ++ [.node opcode fields mutation
          (slots.map fun e => if e.1 = slot then (e.1, .body trees) else e)])
        (declared ++ names) c (closeBranch n slot (run (enterBlock c'))) ∧
      ∃ b', (closeBranch n slot (run (enterBlock c'))).target.block? n = some b' ∧
        ∀ name, name ≠ slot → b'.inputs.get? name = b.inputs.get? name := by
  have hs' := hc.extended.runs.sited
  have htarget : (enterBlock c').target = c'.target.enter (.after none) := c'.target_setTarget _
  have hr₀ : Rewired (fun _ => False) (fun _ => False) c'.target (c'.target.enter (.after none)) :=
    .of_blocks rfl rfl rfl
  obtain ⟨new, hbc⟩ := hrun (enterBlock_good hc.extended.runs.good)
    (enterBlock_sited hs'.sound (exists_head hs')) (.inr hinside)
  generalize run (enterBlock c') = c₂ at *
  obtain ⟨b₂, hb₂, hin₂, ha, hext⟩ :=
    body_attached hs' hbc.extended (by simp) hb hin he hbody
  generalize closeBranch n slot c₂ = c₃ at *
  obtain ⟨b₃, hb₃, hk₃⟩ := hext.runs.advance.old hb
  have hin₃ : b₃.inputs = (b.fill slot (.ofHead new.head?)).inputs := by
    rw [ha.inputs hb₃]
    simp only [Block.fill, hin₂]
  have hnfresh : c.target.block? n = none := hc.extended.fresh (by simp)
  have hall : Extended σ ids (pre ++ [n] ++ []) (fun _ => False) c c₃ :=
    hc.extended.trans hext fun x bx hx hor => hor.elim id fun heq => by simp [heq, hnfresh] at hx
  have hsuccess₂ : c₃.project.success = true → c₂.project.success = true := by
    obtain ⟨t, rfl⟩ := ha.same
    exact (SameRest.setTarget c₂ t).success
  rw [List.append_nil] at hall
  refine ⟨⟨hall, fun hsuccess hcov => ?_, fun hsuccess D hD hcc => ?_, fun hsuccess hset => ?_⟩, b₃, hb₃,
    fun name hname => ?_⟩
  · have hcov₂ : env.Covers c₂.inference := by
      obtain ⟨t, rfl⟩ := ha.same
      refine hcov.congr ?_ rfl
      rw [inference_target, inference_target, ha.rewired.tables]
    have hreads := hc.reads (hext.success hsuccess) (hext.covers hcov)
    have hnodup : (ids ++ (pre ++ [n])).Nodup := (List.nodup_append.1 hs'.nodup).2.1
    refine Attached.reads hreads hs hnodup hext hb hb₃ hin₃
      (ha.content_at hbc.extended.runs.sited (hbc.reads (hsuccess₂ hsuccess) hcov₂) ?_
        (fun x hx => hbc.extended.fresh hx) fun x hx => ?_)
    · rw [htarget]
      exact fun hnone => by simp [show c'.target.block? n = none from hnone] at hb
    · rw [htarget] at hx
      refine ⟨block?_none_of_later hc.extended.runs.advance hx, fun hm => ?_⟩
      obtain ⟨bx, hbx⟩ := hs'.exists_block (List.mem_append_right _ hm)
      simp [show c'.target.block? x = none from hx] at hbx
  · have hcc' := hc.checked (hext.success hsuccess) D (fun x hx => hD x (List.mem_append_left _ hx)) hcc
    have hcc₀ : (enterBlock c').Checked D fun _ => False :=
      hcc'.rewired hr₀ id fun hx => hx.elim
    have hcc₂ := hbc.checked (hsuccess₂ hsuccess) D (fun x hx => hD x (List.mem_append_right _ hx)) hcc₀
    obtain ⟨t, rfl⟩ := ha.same
    have hr := ha.rewired
    rw [target_setTarget] at hr
    refine hcc₂.rewired hr (fun hx => ?_) fun {x bx bx'} hx hbx hbx' hw => ?_
    · have hnone := ha.fresh hx
      rw [target_setTarget] at hnone
      exact hnone
    · subst hx
      obtain rfl := Option.mem_unique hbx hb₂
      have hw' := ha.wellTyped hb₂ (hin₂ ▸ hin) he (by rw [target_setTarget]; exact hbx') hw
      rw [target_setTarget] at hw'
      exact hw'
  · have hset₂ := hbc.settled (hsuccess₂ hsuccess) (hc.settled (hext.success hsuccess) hset)
    obtain ⟨t, rfl⟩ := ha.same
    exact hset₂
  · rw [hin₃, Block.fill, Table.get?_modify_of_ne _ _ (Ne.symm hname)]

end

section

variable {condition : Part} {content : Content} {calls trees : List Tree} {names names' : List String}

/-- The slots for the bodies of a conditional. -/
def bodySlots (hasElse : Bool) : List String :=
  if hasElse then ["SUBSTACK", "SUBSTACK2"] else ["SUBSTACK"]

/-- The block of a conditional before its condition is compiled. -/
def conditional (hasElse : Bool) (id : String) : Block :=
  if hasElse then .branchElse id .empty else .branch id .empty

theorem conditional_shape (hasElse : Bool) :
    Shape (conditional hasElse) 0 (["CONDITION"] ++ bodySlots hasElse)
      (if hasElse then .branchElse else .branch) [] none := by
  cases hasElse <;>
    exact ⟨fun _ => rfl, fun _ => rfl, fun _ => rfl, fun _ => rfl, fun _ => rfl, fun _ => rfl,
      fun _ => rfl, fun _ => rfl, fun _ => rfl, rfl⟩

theorem conditional_slots (hasElse : Bool) (n : String) (v : Operand) :
    ((conditional hasElse n).fillAll ["CONDITION"] [v]).slots =
      ("CONDITION", v.slotValue) :: (bodySlots hasElse).map fun slot => (slot, .empty) := by
  rw [Block.fillAll_one]
  cases hasElse <;> rfl

theorem conditional_slotsAt {v : SlotValue} (hasElse : Bool) (h : content.At look S v) :
    SlotsAt look S (("CONDITION", v) :: (bodySlots hasElse).map fun slot => (slot, .empty))
      (("CONDITION", content) :: (bodySlots hasElse).map fun slot => (slot, .empty)) := by
  cases hasElse
  · exact ⟨rfl, h, rfl, trivial, trivial⟩
  · exact ⟨rfl, h, rfl, trivial, rfl, trivial, trivial⟩

theorem exists_input {b : Block} {name : String} (h : (name, value) ∈ b.slots) :
    ∃ input, b.inputs.get? name = some input ∧ input.value = value := by
  obtain ⟨⟨k, input⟩, he, heq⟩ := List.mem_map.1 h
  cases heq
  exact ⟨input, Table.get?_eq_some_iff.2 he, rfl⟩

/-- The condition comes before the bodies, which are left open. -/
theorem branchHead_compiled (hF : Fills env condition.operand (fun v => [v]) [content] calls)
    (hasElse : Bool) (hg : c.inference.Good) (hs : Sited c.target σ [] ids) (trees : List Tree)
    (names : List String) :
    (∃ c' new, branchHead condition hasElse c = (none, c') ∧
      Compiled env σ ids new trees names c c') ∨
    ∃ n cs c' b, branchHead condition hasElse c =
        (some n, { c' with branchDepth := c'.branchDepth + 1 }) ∧
      Compiled env σ ids (cs ++ [n])
        (calls ++ [.plain (if hasElse then .branchElse else .branch)
          (("CONDITION", content) :: (bodySlots hasElse).map fun slot => (slot, .empty))]) [] c c' ∧
      c'.target.block? n = some b ∧ ∀ slot ∈ bodySlots hasElse, (slot, .empty) ∈ b.slots := by
  let K : String → Operand → Emit String := fun id operand => do
    expectType .boolean [operand] condition.span
    modify fun c => { c with branchDepth := c.branchDepth + 1 }
    pure id
  have hq : Quietly c ((some (), c.log .branching) : Option Unit × Compilation) := .log hg _
  have hs₀ : Sited (c.log .branching).target σ [] ids := hs
  obtain ⟨n, cs, c₁, he₁, ⟨hloud, hrun⟩ | ⟨v, hrun, hlaid⟩⟩ :=
    place_within (K := K) (conditional_shape hasElse) hF rfl hq.good hs₀
  · exact .inl ⟨c₁, _, hrun, .after_quiet hq hs (.failed he₁ hloud)⟩
  have hrun : branchHead condition hasElse c = K n v c₁ := hrun
  rw [hrun]
  obtain ⟨c₂, h₂, hq₂⟩ | ⟨c₂, h₂, hq₂, hhas⟩ :=
    expectType_cases hlaid.runs.good (by decide : ValueType.boolean.IsValue) [v] condition.span
  · exact .inl ⟨c₂, _, by simp only [K, bind_apply, h₂],
      .after_quiet hq hs (.failed (hlaid.quiet hq₂).extended (hq₂.loud rfl))⟩
  have hlaid₂ := hlaid.quiet hq₂
  rw [conditional_slots] at hlaid₂
  obtain ⟨b, hb, hface, hslots⟩ := hlaid₂.block
  refine .inr ⟨n, cs, c₂, b, by simp only [K, bind_apply, h₂]; rfl, .after_quiet hq hs
    (hlaid₂.compiled hs₀ (.refl hq₂.good hlaid₂.runs.sited) (fun _ => rfl) (fun hcov => ?_)
      (fun D _ _ hc => hc.close ?_) id), hb, fun slot hslot => ?_⟩
  · refine (conditional_shape hasElse).tree_at hb hface ?_
    rw [hslots]
    obtain ⟨_, _, hat, -, heq⟩ := List.forall₂_cons_right_iff.1 (hlaid₂.yields.values hcov)
    cases heq
    exact conditional_slotsAt hasElse hat
  · rintro x bx rfl hx
    obtain rfl := Option.mem_unique hx hb
    have hop : bx.opcode = if hasElse then .branchElse else .branch :=
      (Block.opcode_of_face hface ((conditional_shape hasElse).argument x)).trans
        ((conditional_shape hasElse).opcode_eq x)
    have hv := hhas v (by simp) (hlaid.yields.known v (by simp))
    have hslot : bx.SlotHas c₂.target "CONDITION" .boolean :=
      Block.slotHas_of_mem (by rw [hslots]; simp) (by decide)
        (hv.slotValue hc.sane (hlaid₂.yields.known v (by simp)))
    cases hasElse <;> simpa [Block.WellTyped, hop] using hslot
  · rw [hslots]
    exact List.mem_cons_of_mem _ (List.mem_map.2 ⟨slot, hslot, rfl⟩)

/-- The conditional is the last block of its script, so ending it changes nothing. -/
theorem endBranches_eq {pre : List String} (hs : Sited c.target σ [] (pre ++ [n])) :
    endBranches n c = { c with branchDepth := c.branchDepth - 1 } := by
  have hsame : c.target.setNext n none = c.target := by
    refine Target.modifyBlock_eq_self fun b hb => ?_
    have hchain := hs.chain
    rw [← List.append_assoc, Chain.snoc_iff] at hchain
    obtain ⟨-, l, hl, -, hnext⟩ := hchain
    obtain ⟨b', hb', rfl⟩ := Target.exists_of_links hl
    obtain rfl := Option.mem_unique hb hb'
    rw [← show b.next = none from hnext]
  rw [endBranches, hsame]
  exact setTarget_target { c with branchDepth := c.branchDepth - 1 }

/-- A conditional with the bodies that it has. -/
theorem branch_compiles {plain : Bool} {body : Compilation → Compilation}
    {otherwise : Option (Compilation → Compilation)} {otherTrees : Option (List Tree)}
    (hF : Fills env condition.operand (fun v => [v]) [content] calls)
    (hbody : Compiles env false body trees names)
    (hother : Option.Rel (fun run trees => Compiles env false run trees names') otherwise otherTrees) :
    Compiles env plain (fun c => (branch condition body otherwise c).2)
      (calls ++ [.branch content trees otherTrees]) (names ++ names') := by
  intro c σ ids hg hs _
  simp only [branch_apply]
  obtain ⟨c', new, hhead, hc⟩ | ⟨n, cs, c', b, hhead, hc, hb, hempty⟩ :=
    branchHead_compiled hF otherwise.isSome hg hs (calls ++ [.branch content trees otherTrees])
      (names ++ names')
  · rw [hhead]
    exact ⟨new, hc⟩
  rw [hhead]
  -- inside, one more branch is open
  have hc₁ : Compiled env σ ids (cs ++ [n]) _ [] { c with branchDepth := c.branchDepth + 1 }
      { c' with branchDepth := c'.branchDepth + 1 } :=
    hc.of_eq rfl rfl rfl rfl (by rw [hc.extended.rest.depth])
      hc.extended.rest.contexts
  obtain ⟨input, hin, hvalue⟩ := exists_input (hempty "SUBSTACK" (by cases otherwise <;> simp [bodySlots]))
  obtain ⟨hc₂, b₂, hb₂, hsame⟩ := body_compiled hbody hc₁ hs (.inr (Nat.succ_pos _)) hb hin hvalue rfl
  have finish : ∀ {new trees names c₂}, Compiled env σ ids (new ++ [n]) trees names
      { c with branchDepth := c.branchDepth + 1 } c₂ →
      Compiled env σ ids (new ++ [n]) trees names c (endBranches n c₂) := by
    intro new trees names c₂ h
    have hs₂ := h.extended.runs.sited
    rw [← List.append_assoc] at hs₂
    rw [endBranches_eq hs₂]
    exact h.of_eq rfl rfl rfl rfl (by simp [h.extended.rest.depth]) h.extended.rest.contexts
  cases hother with
  | none =>
    refine ⟨_, (finish hc₂).mono fun x hx => ?_⟩
    exact List.mem_append_left _ hx
  | some hrun =>
    obtain ⟨input', hin', hvalue'⟩ := exists_input (hempty "SUBSTACK2" (by simp [bodySlots]))
    obtain ⟨hc₃, -⟩ := body_compiled hrun hc₂ hs (hc₂.extended.inside (.inr (Nat.succ_pos _))) hb₂
      ((hsame _ (by decide)).trans hin') hvalue' rfl
    exact ⟨_, finish hc₃⟩

end

end Emit
end ScriptBlocks
