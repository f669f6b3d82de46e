import ScriptBlocks.Proofs.Site

/-!
# Handing out slots

An input scope hands out the slots of its block that were free when it was opened, one after the other.
What is next depends on an index that the scope keeps and on the slots that are filled by now, and both
move on together: a slot that has been handed out is before the index, whether it was filled or not.
-/
namespace ScriptBlocks

variable {scope : Scope} {ops : ScopeRun} {t' : Target} {left : List String}

/-! ## Operations in a scope -/

/-- What can be done where a scope is the innermost one: asking for the place of a block or of a value,
writing a value, and adding a block. -/
inductive ScopeOp where
  | resolve (id : String)
  | resolveValue
  | assign (operand : Operand)
  | add (b : Block)

namespace ScopeOp

def run (t : Target) : ScopeOp → Target
  | .resolve id => { t with scopes := (Scopes.place t.scopes t.blocks id).2 }
  | .resolveValue => { t with scopes := (Scopes.placeValue t.scopes t.blocks).2 }
  | .assign operand => t.assign operand
  | .add b => t.addBlock b

/-- The slot that a block is placed in, and whose it is. -/
def input? : Placement → Option (String × String)
  | .input parent slot => some (parent, slot)
  | _ => none

/-- The slot that the operation is given. A block that is assigned stands in one already. -/
def claim? (t : Target) : ScopeOp → Option (String × String)
  | .resolve id => input? (Scopes.place t.scopes t.blocks id).1
  | .assign (.block _) => none
  | .add b => input? (Scopes.place t.scopes t.blocks b.id).1
  | _ => (Scopes.placeValue t.scopes t.blocks).1

/-- How many slots the operation asks for. -/
def claims : ScopeOp → Nat
  | .assign (.block _) => 0
  | _ => 1

/-- What is put into the slot. -/
def value : ScopeOp → SlotValue
  | .assign operand => operand.slotValue
  | .add b => .block b.id
  | _ => .empty

/-- The operation does not write this block. -/
def Spares (anchor : String) : ScopeOp → Prop
  | .add b => b.id ≠ anchor
  | _ => True

end ScopeOp

/-- Operations one after the other, with scopes that are opened and closed in between. -/
inductive ScopeRun where
  | done
  | step (op : ScopeOp) (rest : ScopeRun)
  | nested (scope : Scope) (inner rest : ScopeRun)

namespace ScopeRun

def run (t : Target) : ScopeRun → Target
  | .done => t
  | .step op rest => rest.run (op.run t)
  | .nested scope inner rest => rest.run (inner.run (t.enter scope)).exit.2

/-- The slots that the operations of the outermost scope are given, and whose they are. -/
def handed (t : Target) : ScopeRun → List (String × String)
  | .done => []
  | .step op rest => (op.claim? t).toList ++ rest.handed (op.run t)
  | .nested scope inner rest => rest.handed (inner.run (t.enter scope)).exit.2

def claims : ScopeRun → Nat
  | .done => 0
  | .step op rest => op.claims + rest.claims
  | .nested _ _ rest => rest.claims

/-- The operations of the outermost scope put nothing into a slot. -/
def Idle : ScopeRun → Prop
  | .done => True
  | .step op rest => op.value = .empty ∧ rest.Idle
  | .nested _ _ rest => rest.Idle

/-- The block is not written, and no other scope fills its slots. -/
def Spares (anchor : String) : ScopeRun → Prop
  | .done => True
  | .step op rest => op.Spares anchor ∧ rest.Spares anchor
  | .nested scope inner rest =>
    ((∀ n, scope ≠ .inputs anchor n) ∨ inner.Idle) ∧ inner.Spares anchor ∧ rest.Spares anchor

end ScopeRun

/-! ## What an operation does to the slots of a block -/

/-- The slots of a block that the target has. -/
def Target.inputsOf (t : Target) (x : String) : Option (Table Input) :=
  (t.block? x).map Block.inputs

section

variable {t : Target} {anchor x : String} {n : Nat} {outer : Scopes} {op : ScopeOp}

theorem Target.inputsOf_modifyBlock (id : String) {f : Block → Block}
    (hf : id = x → ∀ b, (f b).inputs = b.inputs) : (t.modifyBlock id f).inputsOf x = t.inputsOf x := by
  rw [inputsOf, inputsOf, block?_modifyBlock]
  split
  next h => cases t.block? x <;> simp [hf h]
  next => rfl

theorem Target.inputsOf_register {b : Block} (h : b.id ≠ x) :
    (t.register b).inputsOf x = t.inputsOf x := by
  rw [inputsOf, inputsOf, block?_register, if_neg h]
  split
  next => cases t.block? x <;> rfl
  next => rfl

/-- An operation fills the slot that it is given, unless it has nothing to put there. -/
theorem ScopeOp.inputsOf_run (h : op.Spares x) :
    (op.run t).inputsOf x =
      ((op.claim? t).elim t fun slot =>
        if op.value = .empty then t else t.fillSlot slot.1 slot.2 op.value).inputsOf x := by
  cases op with
  | resolve id => cases hc : claim? t (.resolve id) <;> rfl
  | resolveValue => cases hc : claim? t .resolveValue <;> rfl
  | assign operand =>
    cases operand with
    | block id => rfl
    | _ =>
      simp only [run, Target.assign, claim?, value]
      cases (Scopes.placeValue t.scopes t.blocks).1 with
      | none => rfl
      | some place =>
        simp only [Option.elim_some]
        split
        next hv => simp only [hv, if_true]; rfl
        next hv => simp only [hv, if_false]; rfl
  | add b =>
    simp only [run, Target.addBlock, claim?, value]
    cases hplace : (Scopes.place t.scopes t.blocks b.id).1 with
    | next previous =>
      refine (Target.inputsOf_register (b := { b with parent := some previous }) h).trans ?_
      exact Target.inputsOf_modifyBlock previous fun _ _ => rfl
    | _ => exact Target.inputsOf_register h

/-- In an input scope an operation that asks for a slot is given the next one. -/
theorem ScopeOp.claim_inputs (hs : t.scopes = .inputs anchor n :: outer) :
    (op.claims = 0 ∧ op.run t = t ∧ op.claim? t = none) ∨
    op.claims = 1 ∧
      op.claim? t = (Scopes.nextSlot? t.blocks anchor n).map (fun slot => (anchor, slot.1)) ∧
      (op.run t).scopes =
        .inputs anchor ((Scopes.nextSlot? t.blocks anchor n).elim n (·.2)) :: outer := by
  cases op with
  | assign operand =>
    cases operand with
    | block id => exact .inl ⟨rfl, rfl, rfl⟩
    | _ =>
      refine .inr ⟨rfl, ?_⟩
      simp only [run, Target.assign, claim?, hs, Scopes.placeValue]
      cases Scopes.nextSlot? t.blocks anchor n with
      | none => exact ⟨rfl, rfl⟩
      | some slot => simp only; split <;> exact ⟨rfl, rfl⟩
  | _ =>
    refine .inr ⟨rfl, ?_⟩
    simp only [run, Target.addBlock, claim?, hs, Scopes.place, Scopes.placeValue]
    cases Scopes.nextSlot? t.blocks anchor n <;> simp [input?, Target.fillSlot]

/-- Another scope stays what it is. It fills no slot of the block when it is a scope of another one, or
when there is nothing to fill it with. -/
theorem ScopeOp.run_elsewhere (hs : t.scopes = scope :: outer) (hop : op.Spares anchor) :
    ∃ scope', (op.run t).scopes = scope' :: outer ∧
      ((∀ n, scope ≠ .inputs anchor n) → ∀ n, scope' ≠ .inputs anchor n) ∧
      ((∀ n, scope ≠ .inputs anchor n) ∨ op.value = .empty →
        (op.run t).inputsOf anchor = t.inputsOf anchor) := by
  rw [inputsOf_run hop]
  cases scope with
  | inputs x n =>
    obtain ⟨-, hrun, hclaim⟩ | ⟨-, hclaim, hscopes⟩ := op.claim_inputs hs
    · rw [hrun, hclaim]
      exact ⟨_, hs, id, fun _ => rfl⟩
    · refine ⟨_, hscopes, fun hne => by simpa using hne n, ?_⟩
      rw [hclaim]
      cases Scopes.nextSlot? t.blocks x n with
      | none => exact fun _ => rfl
      | some slot =>
        intro hne
        simp only [Option.map_some, Option.elim_some]
        split
        next => rfl
        next hvalue =>
          exact Target.inputsOf_modifyBlock _ fun hx =>
            (hne.resolve_right hvalue n (congrArg (Scope.inputs · n) hx)).elim
  | sequence previous head =>
    have hclaim : op.claim? t = none ∧
        ∃ previous' head', (op.run t).scopes = .sequence previous' head' :: outer := by
      rcases op with id | _ | operand | b
      · cases previous <;> simp [claim?, run, hs, Scopes.place, input?]
      · simp [claim?, run, hs, Scopes.placeValue]
      · cases operand <;> simp [claim?, run, hs, Scopes.placeValue, Target.assign]
      · cases previous <;>
          simp [claim?, run, hs, Scopes.place, input?, Target.addBlock, Target.setNext]
    obtain ⟨hclaim, previous', head', hscopes⟩ := hclaim
    exact ⟨_, hscopes, by simp, fun _ => by rw [hclaim]; rfl⟩

/-- Scopes that are opened and closed leave the others and the slots of the block as they are. -/
theorem ScopeRun.run_elsewhere (hs : t.scopes = scope :: outer)
    (hne : (∀ n, scope ≠ .inputs anchor n) ∨ ops.Idle) (hops : ops.Spares anchor) :
    (ops.run t).scopes.tail = outer ∧ (ops.run t).inputsOf anchor = t.inputsOf anchor := by
  induction ops generalizing t scope outer with
  | done => exact ⟨by rw [run, hs, List.tail_cons], rfl⟩
  | step op rest ih =>
    obtain ⟨scope', hs', hne', hinputs⟩ := ScopeOp.run_elsewhere hs hops.1
    obtain ⟨htail, hinputs'⟩ := ih hs' (hne.imp hne' And.right) hops.2
    exact ⟨htail, hinputs'.trans (hinputs (hne.imp_right And.left))⟩
  | nested scope' inner rest ihinner ihrest =>
    obtain ⟨htail, hinputs⟩ := ihinner (t := t.enter scope') rfl hops.1 hops.2.1
    obtain ⟨htail', hinputs'⟩ := ihrest (t := (inner.run (t.enter scope')).exit.2)
      (htail.trans hs) hne hops.2.2
    exact ⟨htail', hinputs'.trans hinputs⟩

/-! ## The slots of the scope -/

namespace Target

/-- The names of the free slots of a block from an index on, in the order of their declaration. -/
def freeSlots (t : Target) (x : String) (start : Nat) : List String :=
  ((t.block? x).map (·.free start)).getD []

/-- What is in a slot of the block stays there. -/
def KeepsFilled (anchor : String) (t t' : Target) : Prop :=
  ∀ inputs, t.inputsOf anchor = some inputs → ∃ inputs', t'.inputsOf anchor = some inputs' ∧
    ∀ e ∈ inputs.entries, e.2.isFilled = true → e ∈ inputs'.entries

theorem KeepsFilled.of_eq (h : t'.inputsOf anchor = t.inputsOf anchor) : t.KeepsFilled anchor t' :=
  fun inputs hi => ⟨inputs, h.trans hi, fun _ he _ => he⟩

theorem KeepsFilled.trans {t'' : Target} (h : t.KeepsFilled anchor t')
    (h' : t'.KeepsFilled anchor t'') : t.KeepsFilled anchor t'' := by
  intro inputs hi
  obtain ⟨inputs', hi', hkeep⟩ := h inputs hi
  obtain ⟨inputs'', hi'', hkeep'⟩ := h' inputs' hi'
  exact ⟨inputs'', hi'', fun e he hf => hkeep' e (hkeep e he hf) hf⟩

theorem freeSlots_eq (t : Target) (x : String) (start : Nat) :
    t.freeSlots x start = ((t.inputsOf x).map fun inputs =>
      ((inputs.entries.drop start).filter fun e => !e.2.isFilled).map (·.1)).getD [] := by
  simp only [freeSlots, inputsOf, Option.map_map]
  rfl

theorem nodup_freeSlots (t : Target) (x : String) (start : Nat) : (t.freeSlots x start).Nodup := by
  rw [freeSlots_eq]
  cases t.inputsOf x with
  | none => exact List.nodup_nil
  | some inputs =>
    exact inputs.nodup.sublist ((List.filter_sublist.trans (List.drop_sublist _ _)).map _)

theorem nextSlot?_of_freeSlots_nil (h : t.freeSlots anchor n = []) :
    Scopes.nextSlot? t.blocks anchor n = none := by
  cases hb : t.blocks.get? anchor with
  | none => simp [Scopes.nextSlot?, hb]
  | some b =>
    have hfree : b.free n = [] := by simpa [freeSlots, block?, hb] using h
    have hall : ∀ e ∈ b.inputs.entries.zipIdx.drop n, e.1.2.isFilled = true := by
      intro e he
      have hmem : e.1 ∈ b.inputs.entries.drop n := by
        have hm := List.mem_map_of_mem (f := Prod.fst) he
        rwa [List.map_drop, List.zipIdx_map_fst] at hm
      simpa using (List.filter_eq_nil_iff.1 (List.map_eq_nil_iff.1 hfree)) e.1 hmem
    have hnone : b.firstUnfilled? n = none := by
      rw [Block.firstUnfilled?, List.find?_eq_none.2 (by simpa using hall)]
      rfl
    simp [Scopes.nextSlot?, hb, hnone]

theorem nextSlot?_of_freeSlots_cons {slot : String} {rest : List String}
    (h : t.freeSlots anchor n = slot :: rest) : ∃ b i input, t.block? anchor = some b ∧
      Scopes.nextSlot? t.blocks anchor n = some (slot, i + 1) ∧
      b.inputs.entries[i]? = some (slot, input) ∧ input.value = .empty ∧ b.free (i + 1) = rest := by
  cases hb : t.block? anchor with
  | none => simp [freeSlots, hb] at h
  | some b =>
    obtain ⟨i, input, hnext⟩ :=
      Scopes.nextSlot?_of_free hb (by simpa [freeSlots, hb] using h : b.free n = slot :: rest)
    exact ⟨b, i, input, rfl, hnext⟩

/-- The scope has these slots left. -/
def Offers (t : Target) (anchor : String) (outer : Scopes) (left : List String) : Prop :=
  ∃ n, t.scopes = .inputs anchor n :: outer ∧ t.freeSlots anchor n = left

end Target

/-- An operation is given the next slot, and whatever it does leaves the later ones. -/
theorem ScopeOp.run_offers (hop : op.Spares anchor) (h : t.Offers anchor outer left) :
    (op.claim? t).toList = (left.take op.claims).map (anchor, ·) ∧
      (op.run t).Offers anchor outer (left.drop op.claims) ∧ t.KeepsFilled anchor (op.run t) := by
  obtain ⟨n, hs, hleft⟩ := h
  have hinputs := op.inputsOf_run (t := t) hop
  obtain ⟨hzero, hrun, hclaim⟩ | ⟨hone, hclaim, hscopes⟩ := op.claim_inputs hs
  · rw [hzero, hrun, hclaim]
    exact ⟨rfl, ⟨n, hs, hleft⟩, .of_eq rfl⟩
  rw [hone]
  cases left with
  | nil =>
    have hnone := Target.nextSlot?_of_freeSlots_nil hleft
    rw [hnone] at hclaim hscopes
    have hsame : (op.run t).inputsOf anchor = t.inputsOf anchor := by rw [hinputs, hclaim]; rfl
    refine ⟨by rw [hclaim]; rfl, ⟨n, hscopes, ?_⟩, .of_eq hsame⟩
    rw [Target.freeSlots_eq, hsame, ← Target.freeSlots_eq, hleft]
    rfl
  | cons slot rest =>
    obtain ⟨b, i, input, hb, hnext, hi, hempty, hrest⟩ := Target.nextSlot?_of_freeSlots_cons hleft
    rw [hnext] at hclaim hscopes
    rw [hclaim, Option.map_some, Option.elim_some] at hinputs
    have hfilled : (op.run t).inputsOf anchor =
        some (if op.value = .empty then b else b.fill slot op.value).inputs := by
      rw [hinputs]
      split
      next => rw [Target.inputsOf, hb]; rfl
      next => rw [Target.inputsOf, Target.fillSlot, Target.block?_modifyBlock_self _ _ hb]; rfl
    refine ⟨by rw [hclaim]; rfl, ⟨i + 1, hscopes, ?_⟩, fun inputs hinputs => ⟨_, hfilled, ?_⟩⟩
    · rw [Target.freeSlots_eq, hfilled]
      split
      next => exact hrest
      next => exact (Block.free_fill op.value hi).trans hrest
    · obtain rfl : b.inputs = inputs := by simpa [Target.inputsOf, hb] using hinputs
      intro e he hf
      split
      next => exact he
      next =>
        rw [Block.fill, Table.entries_modify]
        refine List.mem_map.2 ⟨e, he, if_neg fun hslot => ?_⟩
        have hget := Table.get?_eq_some_iff.2 (List.mem_of_getElem? hi)
        rw [← hslot, Table.get?_eq_some_iff.2 he] at hget
        simp [Option.some.inj hget, Input.isFilled, hempty] at hf

theorem ScopeRun.run_offers (hops : ops.Spares anchor) (h : t.Offers anchor outer left) :
    ops.handed t = (left.take ops.claims).map (anchor, ·) ∧
      (ops.run t).Offers anchor outer (left.drop ops.claims) ∧ t.KeepsFilled anchor (ops.run t) := by
  induction ops generalizing t left with
  | done => exact ⟨rfl, h, .of_eq rfl⟩
  | step op rest ih =>
    obtain ⟨hclaim, hoffers, hkeeps⟩ := op.run_offers hops.1 h
    obtain ⟨hhanded, hoffers', hkeeps'⟩ := ih hops.2 hoffers
    refine ⟨?_, ?_, hkeeps.trans hkeeps'⟩
    · rw [handed, hclaim, hhanded, claims, List.take_add, List.map_append]
    · rwa [claims, ← List.drop_drop]
  | nested scope inner rest _ ih =>
    obtain ⟨n, hs, hleft⟩ := h
    obtain ⟨htail, hinputs⟩ := run_elsewhere (t := t.enter scope) rfl hops.1 hops.2.1
    have hoffers : (inner.run (t.enter scope)).exit.2.Offers anchor outer left := by
      refine ⟨n, htail.trans hs, ?_⟩
      rw [← hleft, Target.freeSlots_eq, Target.freeSlots_eq]
      exact congrArg (fun inputs => (Option.map _ inputs).getD []) hinputs
    obtain ⟨hhanded, hoffers', hkeeps⟩ := ih hops.2.2 hoffers
    exact ⟨hhanded, hoffers', .trans (.of_eq hinputs) hkeeps⟩

end

/-- An input scope hands out slots in order, each at most once. Whatever is done in it, with other
scopes opened and closed in between, the slots that are handed out are the ones of the block that were
free when it was opened, from its index on: as many of them as were asked for, whether they were filled
or not. Afterwards blocks have no place in it, and writing a value changes nothing. What a slot held
stays there. -/
theorem Target.handed_inputs (t : Target) (anchor : String) (start : Nat) {ops : ScopeRun}
    (hops : ops.Spares anchor) :
    let t' := ops.run (t.enter (.inputs anchor start))
    let slots := t.freeSlots anchor start
    slots.Nodup ∧
      ops.handed (t.enter (.inputs anchor start)) = (slots.take ops.claims).map (anchor, ·) ∧
      t.KeepsFilled anchor t' ∧
      (slots.length ≤ ops.claims →
        (∀ id, Scopes.place t'.scopes t'.blocks id = (.detached, t'.scopes)) ∧
        Scopes.placeValue t'.scopes t'.blocks = (none, t'.scopes) ∧
        ∀ operand, t'.assign operand = t') := by
  intro t' slots
  have hoffers : (t.enter (.inputs anchor start)).Offers anchor t.scopes slots := ⟨start, rfl, rfl⟩
  obtain ⟨hhanded, ⟨n, hs, hleft⟩, hkeeps⟩ := ops.run_offers hops hoffers
  refine ⟨t.nodup_freeSlots anchor start, hhanded, hkeeps, fun hlength => ?_⟩
  rw [List.drop_eq_nil_of_le hlength] at hleft
  have hnone : Scopes.nextSlot? t'.blocks anchor n = none := nextSlot?_of_freeSlots_nil hleft
  have hs : t'.scopes = .inputs anchor n :: t.scopes := hs
  have hvalue : Scopes.placeValue t'.scopes t'.blocks = (none, t'.scopes) := by
    simp only [hs, Scopes.placeValue, hnone]
  refine ⟨fun id => by simp only [hs, Scopes.place, hnone], hvalue, fun operand => ?_⟩
  cases operand with
  | block id => rfl
  | _ => simp only [Target.assign, hvalue]

/-- The slots for the two bodies of a conditional. The condition has been filled before, the first body
is asked for and left empty, and a script is written somewhere else in between. -/
theorem Target.handed_inputs_bodies :
    let t : Target :=
      { name := "Sprite1", isStage := false, layer := 1,
        blocks := .ofEntries [("if", .branchElse "if" (.block "condition"))] }
    let ops : ScopeRun :=
      .step .resolveValue <| .nested (.sequence none none) (.step (.add (.stop "first" "all")) .done) <|
      .step (.add (.stop "second" "all")) <| .step .resolveValue .done
    ops.Spares "if" ∧
      ops.handed (t.enter (.inputs "if" 0)) = [("if", "SUBSTACK"), ("if", "SUBSTACK2")] := by
  intro t ops
  have hops : ops.Spares "if" := by simp [ops, ScopeRun.Spares, ScopeOp.Spares, Block.stop]
  exact ⟨hops, (Target.handed_inputs t "if" 0 hops).2.1.trans (by decide)⟩

end ScriptBlocks
