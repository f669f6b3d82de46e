import ScriptBlocks.Proofs.Reporters

/-!
# Calls

A call takes its arguments in the slots of its block. Inside an expression the block is spliced in
before the current statement, and the value is read from the return variable of the function.
-/
namespace ScriptBlocks

variable {names : List String} {ops : List Operand} {S : String → Prop} {f : String}

namespace Block

/-- Operands in all slots that are left. -/
theorem fillAll_slots (b : Block) (filled free : List (String × Input))
    (hentries : b.inputs.entries = filled ++ free) (hnames : free.map (·.1) = names)
    (hlen : ops.length = names.length) : (b.fillAll names ops).slots =
      filled.map (fun e => (e.1, e.2.value)) ++ names.zip (ops.map Operand.slotValue) := by
  induction names generalizing b filled free ops with
  | nil =>
    obtain rfl : free = [] := List.map_eq_nil_iff.1 hnames
    simp [fillAll, slots, hentries]
  | cons name names ih =>
    obtain _ | ⟨⟨n, input⟩, free⟩ := free
    · simp at hnames
    obtain _ | ⟨op, ops⟩ := ops
    · simp at hlen
    obtain ⟨rfl, hrest⟩ : n = name ∧ free.map (·.1) = names := by simpa using hnames
    have hfill := entries_fill hentries op.slotValue
    rw [List.append_cons] at hfill
    have hrec := ih (b.fill n op.slotValue) _ free hfill hrest (by simpa using hlen)
    simpa [fillAll, Input.set] using hrec

end Block

theorem slotsAt_zip {look : String → Option View} {contents : List Content}
    (hlen : ops.length = names.length)
    (h : List.Forall₂ (fun (op : Operand) (content : Content) => content.At look S op.slotValue)
      ops contents) :
    SlotsAt look S (names.zip (ops.map Operand.slotValue)) (Tree.slotsNamed names contents) := by
  induction h generalizing names with
  | nil => simp [SlotsAt, Tree.slotsNamed]
  | cons h _ ih =>
    cases names with
    | nil => cases hlen
    | cons name names => exact ⟨rfl, h, ih (Nat.succ.inj hlen)⟩

namespace Procedure

/-- The slots of a call, by the ids of the arguments. -/
def slotNames (p : Procedure) : List String :=
  p.arguments.values.map Argument.id

variable {p : Procedure}

theorem length_slotNames (p : Procedure) : p.slotNames.length = p.arguments.size := by
  simp [slotNames, Table.values, Table.size]

theorem callBlock_entries (h : p.slotNames.Nodup) (n : String) :
    (p.callBlock n).inputs.entries = p.arguments.values.map fun a =>
      (a.id, ⟨if a.type = .boolean then .boolean else .text, .empty⟩) := by
  rw [callBlock]
  refine Table.entries_ofEntries ?_
  rw [List.map_map]
  exact h

theorem callBlock_shape (h : p.slotNames.Nodup) :
    Shape p.callBlock 0 p.slotNames .call []
      (some { proccode := p.mutation.proccode
              argumentIds := p.mutation.argumentIds
              warp := p.mutation.warp }) where
  id_eq _ := rfl
  next _ := rfl
  parent _ := rfl
  argument _ := rfl
  children n := by
    rw [Block.children, Table.values, callBlock_entries h, List.map_map, List.filterMap_map]
    exact List.filterMap_eq_nil_iff.2 fun a _ => rfl
  free n := by
    rw [Block.free, List.drop_zero, callBlock_entries h, List.filter_eq_self.2, List.map_map]
    · rfl
    · intro e he
      obtain ⟨a, -, rfl⟩ := List.mem_map.1 he
      rfl
  opcode_eq _ := rfl
  fields_eq _ := rfl
  mutation_eq _ := rfl
  inner := rfl

/-- The slots of a call with its arguments. -/
theorem callBlock_fillAll_slots (h : p.slotNames.Nodup) (n : String)
    (hlen : ops.length = p.slotNames.length) : ((p.callBlock n).fillAll p.slotNames ops).slots =
      p.slotNames.zip (ops.map Operand.slotValue) := by
  have hkeys : (p.callBlock n).inputs.entries.map (·.1) = p.slotNames := by
    rw [callBlock_entries h, List.map_map]
    rfl
  exact Block.fillAll_slots _ [] _ rfl hkeys hlen

end Procedure

namespace Emit

open Compilation

variable {env : Env} {contents : List Content} {calls : List Tree} {c : Compilation}

/-- A call names a function with as many arguments as it gives. -/
theorem callee_eq (c : Compilation) (name : String) (given : Nat) (span : Span) :
    (∃ p, callee name given span c = (some p, c) ∧ c.target.functionNamed? name = some p ∧
      p.arguments.size = given) ∨
    ∃ problem, Problem.isWarning problem = false ∧
      callee name given span c = fail problem span c := by
  simp only [callee, bind_apply, target]
  cases hp : c.target.functionNamed? name with
  | none => exact .inr ⟨_, rfl, rfl⟩
  | some p =>
    by_cases h : p.arguments.size = given
    · exact .inl ⟨p, by simp [h, pure_apply], rfl, h⟩
    · exact .inr ⟨.wrongArgumentCount name p.arguments.size given, rfl, by simp [h]⟩

/-- The arguments of a call come to have the types that are asked for. -/
theorem expectArguments_quietly {arguments : List Argument} {spans : List Span}
    (hg : c.inference.Good) (hvalue : ∀ a ∈ arguments, a.type.IsValue)
    (hops : ops.length = arguments.length) (hspans : spans.length = arguments.length) :
    Quietly c (expectArguments ops arguments spans c) ∧
      ∀ c', expectArguments ops arguments spans c = (some (), c') →
        ∀ e ∈ ops.zip arguments, c.inference.Known e.1 → c'.inference.Has e.1 e.2.type := by
  induction arguments generalizing c ops spans with
  | nil =>
    obtain rfl : ops = [] := List.length_eq_zero_iff.1 hops
    exact ⟨.pure hg (), by simp⟩
  | cons argument arguments ih =>
    obtain _ | ⟨op, ops⟩ := ops
    · simp at hops
    obtain _ | ⟨span, spans⟩ := spans
    · simp at hspans
    simp only [List.length_cons, Nat.add_right_cancel_iff] at hops hspans
    obtain ⟨hvalue₁, hvalue⟩ := List.forall_mem_cons.1 hvalue
    obtain ⟨hq, hhas⟩ := Quietly.expectType hg hvalue₁ [op] span
    constructor
    · refine hq.bind fun _ c₁ h₁ => ?_
      rw [h₁] at hq
      exact (ih hq.good hvalue hops hspans).1
    · intro c' hc'
      obtain ⟨_, c₁, h₁, h₂⟩ := bind_eq_some hc'
      rw [h₁] at hq
      obtain ⟨hq', hhas'⟩ := ih hq.good hvalue hops hspans
      have hall := hhas' c' h₂
      rw [h₂] at hq'
      intro e he hk
      rcases List.mem_cons.1 he with rfl | he
      · exact hq'.quiet.has hvalue₁.1 (hhas c₁ h₁ op (by simp) hk)
      · exact hall e he (hq.quiet.known hk)

section

variable {σ : Script} {inputs : List (String × Nat)} {pre : List String} {s n : String}
variable {p : Procedure} {spans : List Span} {m : Emit (List Operand)} {b : Block}

/-- The arguments of a call go into the slots of its block. -/
theorem callArguments_fills (hF : Fills env m id contents calls) (hg : c.inference.Good)
    (hs : Sited c.target σ inputs (pre ++ [s])) (hnodup : p.slotNames.Nodup)
    (hvalue : ∀ a ∈ p.arguments.values, a.type.IsValue)
    (hsize : p.arguments.size = spans.length) (hlen : contents.length = spans.length)
    (hb : c.target.block? n = some b) (hin : b.inputs = (p.callBlock n).inputs) :
    ∃ cs c' r, callArguments p n m spans c = (r, c') ∧
      Runs σ (pre ++ [s]) (pre ++ cs ++ [s]) inputs (· = n) c c' ∧ Calm c c' ∧
      (r = none → c'.project.success = false) ∧
      (r = some () → ∃ ops b', ops.length = p.slotNames.length ∧
        c'.target.block? n = some b' ∧ b'.slots = p.slotNames.zip (ops.map Operand.slotValue) ∧
        (∀ e ∈ ops.zip p.arguments.values,
          c'.inference.Known e.1 ∧ c'.inference.Has e.1 e.2.type) ∧
        Yields env contents calls (pre ++ cs ++ [s]) cs ops c c' ∧
        Typed (fun _ => False) c c') := by
  have hnames : p.slotNames.length = contents.length := by
    rw [p.length_slotNames, hsize, hlen]
  have hfree : b.free 0 = p.slotNames ++ [] := by
    rw [List.append_nil]
    exact (Block.free_eq_of_inputs hin 0).trans ((Procedure.callBlock_shape hnodup).free n)
  obtain ⟨cs, c₁, r, hwithin, hruns, hcalm, hloud, hok⟩ := hF.within hg hs hb hfree hnames
  cases r with
  | none =>
    refine ⟨cs, c₁, none, ?_, hruns, hcalm, fun _ => hloud rfl, by simp⟩
    simp only [callArguments, bind_apply, hwithin]
  | some ops =>
    obtain ⟨hops, ⟨b₁, hb₁, hin₁⟩, hy, ht⟩ := hok ops rfl
    simp only [id_eq] at hops hin₁ hy
    have hops' : ops.length = p.arguments.values.length := by
      rw [hops, hlen, ← hsize]
      simp [Table.values, Table.size]
    have hspans : spans.length = p.arguments.values.length := by
      rw [← hsize]
      simp [Table.values, Table.size]
    obtain ⟨hq, hhas⟩ := expectArguments_quietly hruns.good hvalue hops' hspans
    have he : callArguments p n m spans c = expectArguments ops p.arguments.values spans c₁ := by
      simp only [callArguments, bind_apply, hwithin]
    cases hr : expectArguments ops p.arguments.values spans c₁ with
    | mk r c₂ =>
      rw [hr] at hq he
      have hruns₂ : Runs σ (pre ++ cs ++ [s]) (pre ++ cs ++ [s]) inputs (fun _ => False) c₁ c₂ :=
        hq.runs hruns.sited
      refine ⟨cs, c₂, r, he, hruns.trans hruns₂ fun _ _ _ hx => hx.elim id False.elim,
        hcalm.trans hq.calm hruns₂.advance, hq.loud, ?_⟩
      rintro rfl
      obtain ⟨b₂, hb₂, hk⟩ := hq.quiet.old hb₁
      refine ⟨ops, b₂, hops.trans hnames.symm, hb₂, ?_, fun e he => ?_, hy.quiet hq,
        ht.quiet hcalm hq⟩
      · rw [← Procedure.callBlock_fillAll_slots hnodup n (hops.trans hnames.symm), Block.slots,
          hk.inputs id, hin₁, Block.fillAll_inputs_congr hin]
        rfl
      · have hknown := hy.known e.1 (List.of_mem_zip he).1
        exact ⟨hq.quiet.known hknown, hhas c₂ hr e he hknown⟩

/-- A call whose arguments have been filled in reads as its translation. -/
theorem call_tree {t : Target} (hnodup : p.slotNames.Nodup) (hb : t.block? n = some b)
    (hface : b.face = (p.callBlock n).face) (hlen : ops.length = p.slotNames.length)
    (hslots : b.slots = p.slotNames.zip (ops.map Operand.slotValue))
    (hops : List.Forall₂ (fun (op : Operand) content => content.At (env.look t) S op.slotValue)
      ops contents) : (Tree.call p contents).At (env.look t) S n :=
  (Procedure.callBlock_shape hnodup).tree_at hb hface (hslots ▸ slotsAt_zip hlen hops)

/-- Such a call is well typed. -/
theorem call_wellTyped {i : Inference} (hs : i.target.Sane)
    (hp : i.target.functionNamed? f = some p) (hvalue : ∀ a ∈ p.arguments.values, a.type.IsValue)
    (hface : b.face = (p.callBlock n).face) (hlen : ops.length = p.slotNames.length)
    (hslots : b.slots = p.slotNames.zip (ops.map Operand.slotValue))
    (hhas : ∀ e ∈ ops.zip p.arguments.values, i.Known e.1 ∧ i.Has e.1 e.2.type) :
    b.WellTyped i.target := by
  have hop : b.opcode = .call := Block.opcode_of_face hface rfl
  have hmut : b.mutation = (p.callBlock n).mutation := (congrArg Block.mutation hface :)
  simp only [Block.WellTyped, hop]
  refine ⟨f, p, hp, by rw [hmut]; rfl, ?_, fun a ha => ?_⟩
  · have hkeys := congrArg (List.map Prod.fst) hslots
    rw [List.map_fst_zip (by simp [hlen]), Block.slots, List.map_map] at hkeys
    exact hkeys
  · have htype := (hvalue a ha).1
    obtain ⟨i', hi', rfl⟩ := List.mem_iff_getElem.1 ha
    have hi : i' < ops.length := by
      rw [hlen, Procedure.slotNames, List.length_map]
      exact hi'
    have hmem : (ops[i'], p.arguments.values[i']) ∈ ops.zip p.arguments.values := by
      rw [List.mem_iff_getElem]
      exact ⟨i', by rw [List.length_zip]; omega, List.getElem_zip⟩
    obtain ⟨hknown, hv⟩ := hhas _ hmem
    refine Block.slotHas_of_mem ?_ htype (hv.slotValue hs hknown)
    rw [hslots, List.mem_iff_getElem]
    refine ⟨i', ?_, by simp [Procedure.slotNames]⟩
    rw [List.length_zip, List.length_map]
    omega

end

section

variable {σ : Script} {A : String} {k : Nat} {F : List (String × Nat)} {pre : List String}
variable {s : String} {a : Block} {slot : String} {rest : List String}

/-- A step that gives up after a report. -/
theorem Emitted.failed {content : Content} {r : Option Operand × Compilation}
    (hs : Sited c.target σ ((A, k) :: F) (pre ++ [s])) (hq : Quietly c r) (hr : r.1 = none) :
    Emitted env content calls σ A k F pre s a slot rest c r :=
  ⟨[], k, by simpa using hq.runs hs, hq.calm, hq.loud, by simp [hr]⟩

/-- The statement being compiled is the last one of its script. -/
theorem currentStatement_eq {t : Target} {inputs : List (String × Nat)}
    (hs : Sited t σ inputs (pre ++ [s])) : t.currentStatement = some s := by
  obtain ⟨head, hscopes, -⟩ := hs.scopes
  rw [Target.currentStatement, hscopes]
  clear hscopes hs
  induction inputs with
  | nil => simp [inputScopes, Scopes.currentStatement, ← List.append_assoc]
  | cons e inputs ih => exact ih

/-- A block without operands yet is written, and nothing holds it. -/
theorem register_new {make : String → Block} {start : Nat} {ids : List String} {opcode : Opcode}
    {fields : List (String × Field)} {mutation : Option Mutation} {inputs : List (String × Nat)}
    (hshape : Shape make start names opcode fields mutation) (hg : c.inference.Good)
    (hs : Sited c.target σ inputs ids) :
    ∃ n c', Emit.register make c = (some n, c') ∧ c.target.block? n = none ∧
      n ∉ σ.base.toList ++ ids ∧ c'.target.block? n = some (make n) ∧
      (∀ x b, c'.target.block? x = some b → c.target.block? x = none → x = n) ∧
      Runs σ ids ids inputs (fun _ => False) c c' ∧ Calm c c' := by
  obtain ⟨hs', hr, honly, hn⟩ := hs.register (b := make (c.target.freshId "block"))
    (hshape.id_eq _) (hshape.next _) (hshape.parent _) (hshape.children _)
  rw [hshape.id_eq] at honly hn
  refine ⟨c.target.freshId "block",
    c.setTarget (c.target.draw.register (make (c.target.freshId "block"))), rfl, hs.fresh_block,
    hs.fresh_not_mem, by rw [target_setTarget]; exact hn, by rw [target_setTarget]; exact honly,
    .ofRewired hg hr hs' (fun _ _ _ => False.elim) fun _ => .inl,
    .setTarget hr.tables fun x b hx hxn => ?_⟩
  rw [honly x b hx hxn, hn] at hx
  cases hx
  exact ⟨hshape.argument _, hshape.not_starts _⟩

/-- The block of a call is written and takes its arguments, while nothing holds it yet. -/
theorem registered_call {m : Emit (List Operand)} {spans : List Span} {p : Procedure} {α : Type}
    {inputs : List (String × Nat)} {K : String → Emit α} (hF : Fills env m id contents calls)
    (hlen : contents.length = spans.length) (hg : c.inference.Good)
    (hs : Sited c.target σ inputs (pre ++ [s])) (hnodup : p.slotNames.Nodup)
    (hvalue : ∀ a ∈ p.arguments.values, a.type.IsValue) (hsize : p.arguments.size = spans.length) :
    ∃ n cs c₁ c₂, c.target.block? n = none ∧ n ∉ σ.base.toList ++ (pre ++ cs ++ [s]) ∧
      (∀ x b, c₁.target.block? x = some b → c.target.block? x = none → x = n) ∧
      Runs σ (pre ++ [s]) (pre ++ [s]) inputs (fun _ => False) c c₁ ∧ Calm c c₁ ∧
      Runs σ (pre ++ [s]) (pre ++ cs ++ [s]) inputs (· = n) c₁ c₂ ∧ Calm c₁ c₂ ∧
      ((c₂.project.success = false ∧
          (register p.callBlock >>= fun n => callArguments p n m spans >>= fun _ => K n) c =
            (none, c₂)) ∨
        ∃ ops b₂, (register p.callBlock >>= fun n => callArguments p n m spans >>= fun _ => K n) c =
            K n c₂ ∧ ops.length = p.slotNames.length ∧
          c₁.target.block? n = some (p.callBlock n) ∧ c₂.target.block? n = some b₂ ∧
          b₂.face = (p.callBlock n).face ∧ b₂.next = none ∧ b₂.parent = none ∧
          b₂.slots = p.slotNames.zip (ops.map Operand.slotValue) ∧
          (∀ e ∈ ops.zip p.arguments.values,
            c₂.inference.Known e.1 ∧ c₂.inference.Has e.1 e.2.type) ∧
          Yields env contents calls (pre ++ cs ++ [s]) cs ops c₁ c₂ ∧
          Typed (fun _ => False) c₁ c₂) := by
  obtain ⟨n, c₁, hregister, hnew, hout, hn, honly, hruns₁, hcalm₁⟩ :=
    register_new (Procedure.callBlock_shape hnodup) hg hs
  obtain ⟨cs, c₂, r, harguments, hruns₂, hcalm₂, hloud₂, hok₂⟩ :=
    callArguments_fills hF hruns₁.good hruns₁.sited hnodup hvalue hsize hlen hn rfl
  have hout' : n ∉ σ.base.toList ++ (pre ++ cs ++ [s]) := by
    intro hm
    rcases List.mem_append.1 hm with hm | hm
    · exact hout (List.mem_append_left _ hm)
    · obtain hm | hnone := hruns₂.new_ids n hm
      · exact hout (List.mem_append_right _ hm)
      · simp [hn] at hnone
  refine ⟨n, cs, c₁, c₂, hnew, hout', honly, hruns₁, hcalm₁, hruns₂, hcalm₂, ?_⟩
  rw [bind_of_eq hregister]
  cases r with
  | none => exact .inl ⟨hloud₂ rfl, by rw [bind_apply, harguments]⟩
  | some u =>
    obtain ⟨ops, b₂, hops, hb₂, hslots, hhas, hy, ht⟩ := hok₂ rfl
    obtain ⟨b₂', hb₂', hk⟩ := hruns₂.advance.old hn
    obtain rfl := Option.mem_unique hb₂ hb₂'
    exact .inr ⟨ops, b₂, bind_of_eq harguments, hops, hn, hb₂, hk.face, hk.next hout,
      hk.parent hout, hslots, hhas, hy, ht⟩

/-- What a call gives is read from the return variable of its function. -/
theorem result_at {p : Procedure} {look : String → Option View} (hp : env.procedure f = some p)
    (hresult : p.returnVariable ≠ none) :
    (env.resultOf f).At look S (Operand.call f p.returnVariable).slotValue := by
  obtain ⟨ref, href⟩ := Option.ne_none_iff_exists'.1 hresult
  simp only [Env.resultOf, Env.callee, hp, Option.getD_some, href]
  exact Eq.refl _

/-- A call whose function is known is compiled and spliced in. -/
theorem spliced_emitted {m : Emit (List Operand)} {spans : List Span} {p : Procedure} {span : Span}
    (hF : Fills env m id contents calls) (hlen : contents.length = spans.length)
    (hg : c.inference.Good) (hs : Sited c.target σ ((A, k) :: F) (pre ++ [s]))
    (hA : c.target.block? A = some a) (hcallee : callee f spans.length span c = (some p, c))
    (hp : c.target.functionNamed? f = some p) (hsize : p.arguments.size = spans.length)
    (hvoid : p.returnType ≠ .void) :
    Emitted env (env.resultOf f) (calls ++ [.call (env.callee f) contents]) σ A k F pre s a slot rest c
      (call f span m spans c) := by
  have hnodup : p.slotNames.Nodup := (hg.tables.procs hp).1
  have hq₀ := Quietly.log hg (.calling f)
  have hg₀ : (c.log (.calling f)).inference.Good := hq₀.good
  have hruns₀ : Runs σ (pre ++ [s]) (pre ++ [s]) ((A, k) :: F) (fun _ => False) c
    (c.log (.calling f)) := hq₀.runs hs
  let K : String → Emit Operand := fun n => do
    modifyTarget (runBefore · n)
    pure (.call f p.returnVariable)
  obtain ⟨n, cs, c₁, c₂, hnew, hout, honly, hruns₁, hcalm₁, hruns₂, hcalm₂, hres⟩ :=
    registered_call (K := K) hF hlen hg₀ hruns₀.sited hnodup
      (fun _ ha => hg.tables.arguments hp ha) hsize
  have hnew : c.target.block? n = none := hnew
  have hcalm₁ : Calm c c₁ := hq₀.calm.trans hcalm₁ hruns₁.advance
  have hruns₁ : Runs σ (pre ++ [s]) (pre ++ [s]) ((A, k) :: F) (fun _ => False) c c₁ :=
    hruns₀.trans hruns₁ fun _ _ _ hx => hx.elim id id
  have hruns : Runs σ (pre ++ [s]) (pre ++ cs ++ [s]) ((A, k) :: F) (· = A) c c₂ :=
    hruns₁.trans hruns₂ fun x b hx hor => hor.elim False.elim fun he => by simp [he, hnew] at hx
  have hcalm : Calm c c₂ := hcalm₁.trans hcalm₂ hruns₂.advance
  have he : call f span m spans c =
      (register p.callBlock >>= fun n => callArguments p n m spans >>= fun _ => K n)
        (c.log (.calling f)) := by
    simp only [call, bind_of_eq hcallee, if_neg hvoid]
    rw [bind_of_eq (show Emit.log (.calling f) c = (some (), c.log (.calling f)) from rfl)]
  rw [he]
  obtain ⟨hloud, hfail⟩ | ⟨ops, b₂, hval, hops, hb₁, hb₂, hface, hnext, hparent, hslots, hhas, hy,
    ht⟩ := hres
  · rw [hfail]
    exact ⟨cs, k, hruns, hcalm, fun _ => hloud, by simp⟩
  · rw [hval]
    -- the block is spliced in before the statement
    obtain ⟨hs₃, hr₃, hnone₃⟩ := hruns₂.sited.insertBefore hb₂ hparent hnext hout
      (fun {anchor y} hy hyn => by
        obtain ⟨⟨b, hb⟩, -⟩ := hs.apart hy
        simp [hyn, hnew] at hb)
    have hK : K n c₂ = (some (.call f p.returnVariable),
        c₂.setTarget (c₂.target.insertBefore s n)) := by
      simp only [K, bind_apply, modifyTarget, modify, runBefore, currentStatement_eq hruns₂.sited,
        pure_apply]
    rw [hK]
    have hids : pre ++ cs ++ [n, s] = pre ++ (cs ++ [n]) ++ [s] := by simp
    rw [hids] at hs₃
    have hadv₃ := Inference.Advance.ofRewired hr₃ c₂.function
    rw [← inference_setTarget c₂ (c₂.target.insertBefore s n)] at hadv₃
    have hcalm₃ : Calm c₂ (c₂.setTarget (c₂.target.insertBefore s n)) :=
      .setTarget hr₃.tables fun x b hx hxn => by simp [hnone₃ x hxn] at hx
    have hmem : ∀ x, x ∈ pre ++ (cs ++ [n]) ++ [s] → x ∈ pre ++ cs ++ [s] ∨ x = n := by
      intro x hx
      simp only [List.mem_append, List.mem_singleton] at hx ⊢
      grind
    have hruns₃ : Runs σ (pre ++ [s]) (pre ++ (cs ++ [n]) ++ [s]) ((A, k) :: F) (· = A) c
        (c₂.setTarget (c₂.target.insertBefore s n)) := by
      refine hruns.rewired hr₃ hs₃ (fun _ _ _ hx => hx.elim id False.elim) (fun x b hx hC => ?_)
        fun x hx => ?_
      · rcases hC with hm | rfl
        · rcases List.mem_append.1 hm with hm | hm
          · exact List.mem_append_left _ hm
          · obtain hm | hn := hruns.new_ids x hm
            · exact List.mem_append_right _ hm
            · simp [hn] at hx
        · simp [hnew] at hx
      · obtain hx | rfl := hmem x hx
        · exact hruns.new_ids x hx
        · exact .inr hnew
    have hy₃ : Yields env contents calls (pre ++ (cs ++ [n]) ++ [s]) cs ops c
        (c₂.setTarget (c₂.target.insertBefore s n)) := by
      refine (hy.advance hadv₃ hcalm₃ (fun _ => False.elim) (fun x hC => ?_) fun x hx => ?_).since
        hcalm₁ hruns₁.advance
      · rcases hC with hm | rfl
        · rcases List.mem_append.1 hm with hm | hm
          · exact .inl (hruns₁.sited.base_isSome x (by simpa using hm))
          · exact .inr hm
        · exact .inl (by simp [hb₁])
      · obtain hx | rfl := hmem x hx
        · exact .inr (.inl hx)
        · exact .inl (by simp [hb₁])
    refine ⟨cs ++ [n], k, hruns₃, hcalm.trans hcalm₃ hadv₃, by simp, ?_⟩
    rintro v ⟨⟩
    refine ⟨?_, ⟨?_, fun hcov => ?_, fun hcov => ?_⟩, ?_⟩
    · obtain ⟨a₁, ha₁, hk₁⟩ := hruns₁.advance.old hA
      obtain ⟨a₂, ha₂, hk₂⟩ := hruns₂.advance.old ha₁
      obtain ⟨a₃, ha₃, hk₃⟩ := hadv₃.old ha₂
      have hAn : A ≠ n := (ne_of_found hnew hA).symm
      exact ⟨a₃, ha₃, (hk₃.inputs id).trans ((hk₂.inputs hAn).trans (hk₁.inputs id)), rfl⟩
    · intro op hop
      obtain rfl := List.mem_singleton.1 hop
      exact known_later hcalm₃ hadv₃ (known_later hcalm hruns.advance ⟨p, hp, rfl, hvoid⟩)
    · exact .cons (result_at (hcov.procedures hp) (hg.tables.results hp hvoid)) .nil
    · rw [show env.callee f = p by rw [Env.callee, hcov.procedures hp, Option.getD_some]]
      refine List.rel_append (hy₃.calls hcov) (.cons ⟨hnew, ?_⟩ .nil)
      obtain ⟨b₃, hb₃, hk₃⟩ := hadv₃.old hb₂
      refine call_tree hnodup hb₃ (hk₃.face.trans hface) hops ?_ (hy₃.values hcov)
      rw [← hslots, Block.slots, hk₃.inputs id]
      rfl
    · have hty₁ : Typed (· = n) c c₁ := fun _ x b hx hxn hne => absurd (honly x b hx hxn) hne
      have hty₂ : Typed (· = n) c c₂ := hty₁.trans ht hcalm₁ hcalm₂ hruns₂.good hruns₂.advance
        (fun _ => id) (fun _ => False.elim) fun _ hx _ => hx
      have hty₂' : Typed (fun _ => False) c c₂ := by
        intro hsane x b hx hxn _
        by_cases hxid : x = n
        · subst hxid
          obtain rfl := Option.mem_unique hx hb₂
          have hp₂ : c₂.inference.target.functionNamed? f = some p := by
            rw [inference_target, Target.functionNamed?, hcalm.functions_eq]
            exact hp
          exact call_wellTyped (i := c₂.inference) (hcalm.sane hsane) hp₂
            (fun _ ha => hg.tables.arguments hp ha) hface hops hslots hhas
        · exact hty₂ hsane x b hx hxn hxid
      refine hty₂'.trans (Q := fun _ => False) (.of_old fun x b hx hxn => ?_) hcalm hcalm₃ hruns₃.good
        hadv₃ (fun _ => id) (fun _ => id) fun _ => False.elim
      rw [target_setTarget, hnone₃ x hxn] at hx
      cases hx

/-- A call inside an expression. -/
theorem call_emits {m : Emit (List Operand)} {spans : List Span}
    (hF : Fills env m id contents calls) (hlen : contents.length = spans.length) (f : String)
    (span : Span) :
    Emits env (call f span m spans) (env.resultOf f) (calls ++ [.call (env.callee f) contents]) := by
  intro c σ A k F pre s a slot rest hg hs hA hfree
  obtain ⟨p, hcallee, hp, hsize⟩ | ⟨problem, hp, hcallee⟩ := callee_eq c f spans.length span
  swap
  · have he : call f span m spans c = ((none, (fail problem span c : Option Operand × _).2)) := by
      simp only [call, bind_apply, hcallee]
      rfl
    rw [he]
    exact .failed hs (.fail hg hp span) rfl
  by_cases hvoid : p.returnType = .void
  · have he : call f span m spans c = fail (.typeMismatch "value" "void") span c := by
      simp only [call, bind_apply, hcallee, if_pos hvoid]
    rw [he]
    exact .failed hs (.fail hg rfl span) rfl
  · exact spliced_emitted hF hlen hg hs hA hcallee hp hsize hvoid

end

end Emit

end ScriptBlocks
