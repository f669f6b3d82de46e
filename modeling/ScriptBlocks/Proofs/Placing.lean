import ScriptBlocks.Compile.Statement
import ScriptBlocks.Proofs.Progress

/-!
# Placing the block of a statement

A statement places one block at the end of its script and compiles operands into its slots, which
may splice calls in before it. `Laid` describes the block and what is around it up to the checks
that end the statement.
-/
namespace ScriptBlocks

namespace Shape

theorem setVariable (ref : VariableRef) :
    Shape (Block.setVariable · ref .empty) 0 ["VALUE"] .setVariable
      [("VARIABLE", ⟨ref.name, some ref.id⟩)] none :=
  ⟨fun _ => rfl, fun _ => rfl, fun _ => rfl, fun _ => rfl, fun _ => rfl, fun _ => rfl,
    fun _ => rfl, fun _ => rfl, fun _ => rfl, rfl⟩

/-- An operator on a variable and one operand. -/
theorem combination (op : ArithmeticOp) (value : Payload) :
    Shape (Block.arithmetic · op (.payload value) .empty) 0 ["NUM2"] (.arithmetic op) [] none where
  id_eq _ := rfl
  next _ := rfl
  parent _ := rfl
  argument _ := rfl
  children n := by
    simp [Block.children, Table.values, Block.arithmetic,
      Block.pair_entries n _ .number .number (by decide : "NUM1" ≠ "NUM2"), Input.block?]
  free n := by
    simp [Block.free, Block.arithmetic,
      Block.pair_entries n _ .number .number (by decide : "NUM1" ≠ "NUM2"), Input.isFilled]
  opcode_eq _ := rfl
  fields_eq _ := rfl
  mutation_eq _ := rfl
  inner := rfl

theorem stop (option : String) :
    Shape (Block.stop · option) 0 [] .stop [("STOP_OPTION", ⟨option, none⟩)]
      (some { hasNext := some false }) :=
  ⟨fun _ => rfl, fun _ => rfl, fun _ => rfl, fun _ => rfl, fun _ => rfl, fun _ => rfl,
    fun _ => rfl, fun _ => rfl, fun _ => rfl, rfl⟩

end Shape

namespace Emit

open Compilation

variable {α : Type} {env : Env} {c c' c'' : Compilation} {σ : Script} {ids cs : List String}
variable {n : String} {make : String → Block} {start : Nat} {names rest : List String}
variable {opcode : Opcode} {fields : List (String × Field)} {mutation : Option Mutation}
variable {contents : List Content} {calls : List Tree} {b₀ : Block} {P : String → Prop}
variable {slots : List (String × SlotValue)} {ops : List Operand}

/-- A block has been placed at the end of the script. -/
structure Placed (b₀ : Block) (σ : Script) (ids : List String) (n : String)
    (c c' : Compilation) : Prop where
  runs : Runs σ ids (ids ++ [n]) [] (fun _ => False) c c'
  calm : Calm c c'
  new : c.target.block? n = none
  only : ∀ x b, c'.target.block? x = some b → c.target.block? x = none → x = n
  block : ∃ b, c'.target.block? n = some b ∧ b.face = b₀.face ∧ b.inputs = b₀.inputs

/-- The block of a statement stands at the end of the script with its slots filled, and calls have
been spliced in before it. The blocks in `P` are still to be checked. -/
structure Laid (env : Env) (b₀ : Block) (slots : List (String × SlotValue))
    (contents : List Content) (calls : List Tree) (σ : Script) (ids cs : List String) (n : String)
    (ops : List Operand) (P : String → Prop) (c c' : Compilation) : Prop where
  runs : Runs σ ids (ids ++ (cs ++ [n])) [] (fun _ => False) c c'
  calm : Calm c c'
  new : c.target.block? n = none
  block : ∃ b, c'.target.block? n = some b ∧ b.face = b₀.face ∧ b.slots = slots
  yields : Yields env contents calls (ids ++ (cs ++ [n])) cs ops c c'
  typed : Typed P c c'

theorem place_next (hshape : Shape make start names opcode fields mutation)
    (hg : c.inference.Good) (hs : Sited c.target σ [] ids) :
    ∃ n c', place make c = (some n, c') ∧ Placed (make n) σ ids n c c' := by
  obtain ⟨hs', hr, honly, b, hb, hcore, hin⟩ :=
    hs.place_next (hshape.id_eq (c.target.freshId "block")) (hshape.next _) (hshape.children _)
  have hfresh := hs.fresh_block
  rw [hshape.id_eq] at hs' honly hb
  have hface : b.face = (make (c.target.freshId "block")).face := Block.face_congr hcore
  refine ⟨c.target.freshId "block",
    c.setTarget (c.target.draw.addBlock (make (c.target.freshId "block"))), rfl,
    .ofRewired hg hr hs' (fun _ _ _ => id) fun x hx => ?_, .setTarget hr.tables fun x bx hx hxn => ?_,
    hfresh, by rw [target_setTarget]; exact honly, b, by rw [target_setTarget]; exact hb, hface, hin⟩
  · rcases List.mem_append.1 hx with hx | hx
    · exact .inl hx
    · exact .inr (by rw [List.mem_singleton.1 hx, hfresh])
  · rw [honly x bx hx hxn, hb] at hx
    cases hx
    exact ⟨(congrArg Block.argument hface :).trans (hshape.argument _),
      fun hst => hshape.not_starts _ (hst.of_face hface.symm)⟩

/-- The operands of a block that has been placed. -/
theorem Placed.runs_trans (h : Placed b₀ σ ids n c c')
    (hr : Runs σ (ids ++ [n]) (ids ++ cs ++ [n]) [] (· = n) c' c'') :
    Runs σ ids (ids ++ (cs ++ [n])) [] (fun _ => False) c c'' := by
  rw [← List.append_assoc]
  refine h.runs.trans hr fun x b hx hor => hor.elim id fun he => ?_
  simp [he, h.new] at hx

theorem Placed.laid (h : Placed b₀ σ ids n c c') {b : Block}
    (hr : Runs σ (ids ++ [n]) (ids ++ cs ++ [n]) [] (· = n) c' c'') (hcalm : Calm c' c'')
    (hb : c''.target.block? n = some b) (hslots : b.slots = slots)
    (hy : Yields env contents calls (ids ++ cs ++ [n]) cs ops c' c'') (ht : Typed P c' c'')
    (hn : P n) : Laid env b₀ slots contents calls σ ids cs n ops P c c'' where
  runs := h.runs_trans hr
  calm := h.calm.trans hcalm hr.advance
  new := h.new
  block := by
    obtain ⟨b₁, hb₁, hface, -⟩ := h.block
    obtain ⟨b', hb', hk⟩ := hr.advance.old hb₁
    obtain rfl := Option.mem_unique hb' hb
    exact ⟨b', hb, hk.face.trans hface, hslots⟩
  yields := by
    rw [← List.append_assoc]
    exact hy.since h.calm h.runs.advance
  typed := by
    refine Typed.trans (P := P) ?_ ht h.calm hcalm hr.good hr.advance (fun _ => id) (fun _ => id)
      fun x hx _ => hx ▸ hn
    intro _ x bx hx hxn hP
    exact absurd (h.only x bx hx hxn ▸ hn) hP

/-- Placing the block of a statement and compiling its operands. -/
theorem place_within {β : Type} {m : Emit α} {ops : α → List Operand} {K : String → α → Emit β}
    (hshape : Shape make start (names ++ rest) opcode fields mutation)
    (hF : Fills env m ops contents calls) (hlen : names.length = contents.length)
    (hg : c.inference.Good) (hs : Sited c.target σ [] ids) :
    ∃ n cs c', Extended σ ids (cs ++ [n]) (fun _ => False) c c' ∧
      ((c'.project.success = false ∧
          (place make >>= fun n => within (.inputs n start) m >>= K n) c = (none, c')) ∨
        ∃ r, (place make >>= fun n => within (.inputs n start) m >>= K n) c = K n r c' ∧
          Laid env (make n) ((make n).fillAll names (ops r)).slots contents calls σ ids cs n (ops r)
            (· = n) c c') := by
  obtain ⟨n, c₁, hplace, hp⟩ := place_next hshape hg hs
  obtain ⟨b, hb, hface, hin⟩ := hp.block
  obtain ⟨cs, c₂, r, hwithin, hruns, hcalm, hloud, hok⟩ := hF.within hp.runs.good hp.runs.sited hb
    ((Block.free_eq_of_inputs hin start).trans (hshape.free n)) hlen
  refine ⟨n, cs, c₂, .of_calm (hp.runs_trans hruns) (hp.calm.trans hcalm hruns.advance), ?_⟩
  cases r with
  | none => exact .inl ⟨hloud rfl, by simp only [bind_apply, hplace, hwithin]⟩
  | some r =>
    obtain ⟨-, ⟨b', hb', hin'⟩, hy, ht⟩ := hok r rfl
    refine .inr ⟨r, by simp only [bind_apply, hplace, hwithin],
      hp.laid hruns hcalm hb' ?_ hy (ht.mono fun _ => False.elim) rfl⟩
    rw [Block.slots, hin', Block.fillAll_inputs_congr hin]
    rfl

namespace Laid

theorem extended (h : Laid env b₀ slots contents calls σ ids cs n ops P c c') :
    Extended σ ids (cs ++ [n]) (fun _ => False) c c' :=
  .of_calm h.runs h.calm

/-- Settling types leaves the block as it is. -/
theorem quiet {r : Option α × Compilation}
    (h : Laid env b₀ slots contents calls σ ids cs n ops P c c') (hq : Quietly c' r) :
    Laid env b₀ slots contents calls σ ids cs n ops P c r.2 := by
  have hruns : Runs σ (ids ++ (cs ++ [n])) (ids ++ (cs ++ [n])) [] (fun _ => False) c' r.2 :=
    hq.runs h.runs.sited
  refine ⟨h.runs.trans hruns fun _ _ _ hor => hor.elim id id, h.calm.trans hq.calm hruns.advance,
    h.new, ?_, h.yields.quiet hq, h.typed.quiet h.calm hq⟩
  obtain ⟨b, hb, hface, hslots⟩ := h.block
  obtain ⟨b', hb', hk⟩ := hq.quiet.old hb
  refine ⟨b', hb', hk.face.trans hface, ?_⟩
  rw [← hslots, Block.slots, hk.inputs id]
  rfl

/-- The statement at its end: steps that change only names may follow its checks. -/
theorem compiled {trees : List Tree} {tree : Tree} {declared : List String}
    (h : Laid env b₀ slots contents calls σ ids cs n ops P c c') (hs : Sited c.target σ [] ids)
    (he : Extended σ (ids ++ (cs ++ [n])) [] (fun _ => False) c' c'')
    (hname : env.Covers c''.inference → trees = calls ++ [tree])
    (htree : env.Covers c.inference →
      tree.At (env.look c'.target) (Inner c (ids ++ (cs ++ [n]))) n)
    (hchecked : ∀ D : String → Prop, (∀ x ∈ declared, D x) → c.Checked D (fun _ => False) →
      c'.Checked D P → c''.Checked D fun _ => False)
    (hsettled : c'.ResultSettled → c''.ResultSettled) :
    Compiled env σ ids (cs ++ [n]) trees declared c c'' := by
  have hall : Extended σ ids (cs ++ [n] ++ []) (fun _ => False) c c'' :=
    h.extended.trans he fun _ _ _ hx => hx.elim id id
  rw [List.append_nil] at hall
  refine ⟨hall, fun _ hcov => ?_, fun _ D hD hc => hchecked D hD hc ?_,
    fun _ hc => hsettled (h.calm.settled hc)⟩
  · have hcov' := hall.covers hcov
    have hreads : Reads env ids (cs ++ [n]) (calls ++ [tree]) c c' := by
      refine List.rel_append ((h.yields.calls hcov').imp fun x t hat => hat.2) ?_
      exact .cons (htree hcov') .nil
    rw [hname hcov]
    exact hreads.later hs h.extended he
  · exact h.calm.checked h.runs.good h.runs.advance (fun _ => False.elim) h.typed hc

end Laid

end Emit
end ScriptBlocks
