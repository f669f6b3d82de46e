import Mathlib.Data.List.Induction
import ScriptBlocks.Proofs.Evaluations
import ScriptBlocks.Proofs.Expressions
import ScriptBlocks.Proofs.Growth

/-!
# What operands write

`Ready` is a state in which an expression can be compiled into a slot: the script at hand is in place
and ends with the statement being compiled. `Writes` says what compilation adds to the target from
there on: every new block has a parent, or stands in the script at hand. An expression keeps the
script at hand in place, so operands can be compiled one after the other.
-/
namespace ScriptBlocks

/-- A chain is determined by its end. -/
theorem Chain.eq_of_getLast? {g : LinkMap} {after after' : Option String} {ids ids' : List String}
    (h : Chain g none ids after) (h' : Chain g none ids' after')
    (hlast : ids.getLast? = ids'.getLast?) : ids = ids' := by
  induction ids using List.reverseRecOn generalizing ids' after after' with
  | nil =>
    rw [List.getLast?_nil, eq_comm, List.getLast?_eq_none_iff] at hlast
    exact hlast.symm
  | append_singleton front x ih =>
    rw [List.getLast?_append, List.getLast?_singleton, Option.some_or, eq_comm,
      List.getLast?_eq_some_iff] at hlast
    obtain ⟨front', rfl⟩ := hlast
    obtain ⟨hfront, l, hl, hp, -⟩ := (snoc_iff x).1 h
    obtain ⟨hfront', l', hl', hp', -⟩ := (snoc_iff x).1 h'
    rw [hl] at hl'
    cases hl'
    rw [Option.or_none] at hp hp'
    rw [ih hfront hfront' (hp.symm.trans hp')]

namespace Sited

variable {t : Target} {σ : Script} {inputs inputs' : List (String × Nat)} {ids ids' : List String}

/-- The scopes and the links of a target determine what is compiled. -/
theorem unique (h : Sited t σ inputs ids) (h' : Sited t σ inputs' ids') :
    inputs = inputs' ∧ ids = ids' := by
  obtain ⟨head, hscopes, -⟩ := h.scopes
  obtain ⟨head', hscopes', -⟩ := h'.scopes
  rw [hscopes] at hscopes'
  have hlength : (inputScopes inputs).length = (inputScopes inputs').length := by
    have := congrArg List.length hscopes'
    simp only [List.length_append, List.length_cons] at this
    omega
  obtain ⟨hinputs, hrest⟩ := List.append_inj hscopes' hlength
  have hinj : Function.Injective fun a : String × Nat => Scope.inputs a.1 a.2 := by
    rintro ⟨A, k⟩ ⟨A', k'⟩ ha
    exact Prod.ext (Scope.inputs.inj ha).1 (Scope.inputs.inj ha).2
  have hlast := (Scope.sequence.inj (List.cons.inj hrest).1).1
  exact ⟨List.map_injective_iff.2 hinj hinputs,
    List.append_cancel_left (Chain.eq_of_getLast? h.chain h'.chain hlast)⟩

/-- Only links and scopes matter. -/
theorem of_links {t' : Target} (h : Sited t σ inputs ids) (hl : t'.links = t.links)
    (hs : t'.scopes = t.scopes) (hd : t.drawn ≤ t'.drawn) : Sited t' σ inputs ids := by
  have hnone : ∀ {x}, t.block? x = none → t'.block? x = none := by
    intro x hx
    have hx' : t'.links x = none := by rw [hl, Target.links, hx]; rfl
    simpa [Target.links] using hx'
  refine h.resite ⟨hl ▸ h.sound.linked, fun {n} hn => hnone (h.sound.fresh (by omega))⟩
    (fun x b hx => ?_) fun scopes hscopes => hs.trans hscopes
  obtain ⟨b', hb', hlinks⟩ := Target.exists_of_links (hl ▸ Target.links_eq_some hx)
  exact ⟨b', hb', fun _ => ⟨congrArg Links.next hlinks, congrArg Links.parent hlinks⟩⟩

/-- The innermost scope says where its block stands. -/
theorem index_eq {A : String} {k j : Nat} {F : List (String × Nat)} {outer : Scopes}
    (h : Sited t σ ((A, k) :: F) ids) (hs : t.scopes = .inputs A j :: outer) : k = j := by
  obtain ⟨head, hscopes, -⟩ := h.scopes
  rw [hs] at hscopes
  exact (Scope.inputs.inj (List.cons.inj hscopes).1).2.symm

theorem exists_scopes {A : String} {k : Nat} {F : List (String × Nat)}
    (h : Sited t σ ((A, k) :: F) ids) : ∃ outer, t.scopes = .inputs A k :: outer := by
  obtain ⟨head, hscopes, -⟩ := h.scopes
  exact ⟨_, hscopes⟩

theorem scopes_ne_nil (h : Sited t σ inputs ids) : t.scopes ≠ [] := by
  obtain ⟨head, hscopes, -⟩ := h.scopes
  rw [hscopes]
  simp

end Sited

/-- A block is one of the script. -/
def Script.Has (σ : Script) (t : Target) (x : String) : Prop :=
  ∃ inputs ids, Sited t σ inputs ids ∧ x ∈ ids

theorem Script.Has.mem {σ : Script} {t : Target} {x : String} {inputs : List (String × Nat)}
    {ids : List String} (h : σ.Has t x) (hs : Sited t σ inputs ids) : x ∈ ids := by
  obtain ⟨inputs', ids', hs', hx⟩ := h
  obtain ⟨-, rfl⟩ := hs.unique hs'
  exact hx

/-- The return variables of functions are variables of the target. -/
def Target.Returns (t : Target) : Prop :=
  ∀ ⦃f p ref⦄, t.functionNamed? f = some p → p.returnVariable = some ref → t.Declares ref

theorem Target.Returns.of_tables {t t' : Target} (h : t.Returns) (ht : t'.tables = t.tables) :
    t'.Returns := by
  intro f p ref hp href
  rw [functionNamed?_of_tables ht] at hp
  exact declares_of_tables ht (h hp href)

theorem Target.Returns.later {t t' : Target} (h : t.Returns) (hf : t'.functions = t.functions)
    (hd : ∀ {ref}, t.Declares ref → t'.Declares ref) : t'.Returns := by
  intro f p ref hp href
  rw [Target.functionNamed?, hf] at hp
  exact hd (h hp href)

/-- What functions return into is there, and no slot for a body holds a plain value. -/
structure Target.Tidy (t : Target) : Prop where
  returns : t.Returns
  housed : t.Housed

theorem Target.Tidy.later {t t' : Target} {L : String → Prop} (h : t.Tidy) (he : t.Enlarged L t')
    (hf : t'.functions = t.functions) : t'.Tidy :=
  ⟨h.returns.later hf he.declares, he.housed h.housed⟩

namespace Compilation

variable {c c' c'' : Compilation} {σ : Script} {inputs inputs' : List (String × Nat)}
variable {ids ids' pre pre' : List String} {s : String} {L : String → Prop}

/-- What is written into a script. Without errors nothing but blocks of the script is loose. -/
def Writes (σ : Script) (c c' : Compilation) : Prop :=
  c.target.Enlarged (fun x => c'.project.success = false ∨ σ.Has c'.target x) c'.target

theorem Writes.of_enlarged (h : c.target.Enlarged (fun _ => False) c'.target) : Writes σ c c' :=
  h.mono fun _ _ _ _ _ => False.elim

theorem Writes.refl (σ : Script) (c : Compilation) : Writes σ c c :=
  .of_enlarged (.refl c.target)

/-- What is loose at first is so later only if it is in the script. -/
theorem Writes.of_loose (h : c.target.Enlarged L c'.target)
    (hL : c'.project.success = true → ∀ x, L x → σ.Has c'.target x) : Writes σ c c' := by
  refine h.mono fun x _ _ _ _ hx => ?_
  cases hs : c'.project.success with
  | false => exact .inl rfl
  | true => exact .inr (hL hs x hx)

theorem Writes.trans (h : Writes σ c c') (h' : Writes σ c' c'') (hrest : SameRest c' c'')
    (hs : Sited c'.target σ inputs ids) (hs' : Sited c''.target σ inputs' ids')
    (hids : ∀ x ∈ ids, x ∈ ids') : Writes σ c c'' := by
  refine Target.Enlarged.trans (h.mono fun x _ _ _ _ hx => ?_) h'
  rcases hx with hx | hx
  · exact .inl (hrest.success_false hx)
  · exact .inr ⟨inputs', ids', hs', hids x (hx.mem hs)⟩

theorem Writes.then (h : Writes σ c c') (h' : c'.target.Enlarged (fun _ => False) c''.target)
    (hrest : SameRest c' c'') (hs : Sited c'.target σ inputs ids)
    (hs' : Sited c''.target σ inputs' ids') (hids : ∀ x ∈ ids, x ∈ ids') : Writes σ c c'' :=
  h.trans (.of_enlarged h') hrest hs hs' hids

/-- An expression can be compiled. The script at hand ends with the statement `s`. -/
structure Ready (σ : Script) (inputs : List (String × Nat)) (pre : List String) (s : String)
    (c : Compilation) : Prop where
  good : c.inference.Good
  sited : Sited c.target σ inputs (pre ++ [s])
  statement : ∃ b, c.target.block? s = some b ∧ b.position = none ∧ b.topLevel = false
  tidy : c.target.Tidy

theorem Ready.later (h : c.Ready σ inputs pre s) (hg : c'.inference.Good)
    (hs : Sited c'.target σ inputs' (pre' ++ [s])) (ht : c'.target.tables = c.target.tables)
    (hw : c.target.Enlarged L c'.target) : c'.Ready σ inputs' pre' s where
  good := hg
  sited := hs
  statement := by
    obtain ⟨b, hb, hp, ht⟩ := h.statement
    obtain ⟨b', hb', hk⟩ := hw.old hb
    exact ⟨b', hb', hk.position.trans hp, hk.topLevel.trans ht⟩
  tidy := h.tidy.later hw (congrArg Target.functions ht :)

theorem Ready.enter (h : c.Ready σ inputs pre s) (n : String) (start : Nat) :
    (c.setTarget (c.target.enter (.inputs n start))).Ready σ ((n, start) :: inputs) pre s where
  good := by
    rw [inference_setTarget]
    exact .rewired (O := fun _ => False) (C := fun _ => False) h.good (.of_blocks rfl rfl rfl)
  sited := by
    rw [target_setTarget]
    exact h.sited.enter_inputs n start
  statement := by
    rw [target_setTarget]
    exact h.statement
  tidy := by
    rw [target_setTarget]
    exact ⟨h.tidy.returns, h.tidy.housed⟩

/-- What an operand gives is bound. -/
theorem Ready.bound (h : c.target.Returns) {v : Operand} (hk : c.inference.Known v) :
    v.slotValue.Bound c.target := by
  intro ref hv
  rcases v with value | ref' | id | ⟨f, result⟩
  · cases value <;> cases hv
  · cases hv
    obtain ⟨v, hv, href⟩ := hk
    exact ⟨v, (Option.filter_eq_some_iff.1 hv).1, href⟩
  · cases hv
  · obtain ⟨p, hp, hresult, -⟩ := hk
    cases result with
    | none => cases hv
    | some ref' =>
      cases hv
      exact h hp hresult

end Compilation

/-- Nothing is known about names. Where blocks stand does not depend on what names mean. -/
def Env.unknown : Env :=
  ⟨fun _ => none, fun _ => none, fun _ => none, none⟩

/-- Where the scope of a slot stands after its value has been compiled. A block has been placed in
the slot at `i` already. -/
def Operand.indexAfter (k i : Nat) : Operand → Nat
  | .block _ => i + 1
  | _ => k

theorem Block.firstUnfilled?_congr {b b' : Block} (h : b'.inputs = b.inputs) (k : Nat) :
    b'.firstUnfilled? k = b.firstUnfilled? k := by
  rw [firstUnfilled?, h, firstUnfilled?]

theorem Scopes.nextSlot?_eq {blocks : Table Block} {A slot : String} {a : Block} {k i : Nat}
    (hA : blocks.get? A = some a) (hi : a.firstUnfilled? k = some (i, slot)) :
    nextSlot? blocks A k = some (slot, i + 1) := by
  simp only [nextSlot?, hA, Option.bind_some, hi, Option.map_some]

namespace Target

variable {t : Target} {A slot : String} {a : Block} {k i : Nat} {outer : Scopes}

theorem scopes_assign (hs : t.scopes = .inputs A k :: outer) (hA : t.block? A = some a)
    (hi : a.firstUnfilled? k = some (i, slot)) {v : Operand} (hv : ∀ id, v ≠ .block id) :
    (t.assign v).scopes = .inputs A (i + 1) :: outer := by
  have hplace : Scopes.placeValue t.scopes t.blocks =
      (some (A, slot), .inputs A (i + 1) :: outer) := by
    rw [hs]
    simp only [Scopes.placeValue, Scopes.nextSlot?_eq hA hi]
  unfold assign
  split
  next id => exact absurd rfl (hv id)
  next =>
    simp only [hplace]
    split <;> rfl

theorem scopes_addBlock (hs : t.scopes = .inputs A k :: outer) (hA : t.block? A = some a)
    (hi : a.firstUnfilled? k = some (i, slot)) (b : Block) :
    (t.addBlock b).scopes = .inputs A (i + 1) :: outer := by
  have hplace : Scopes.place t.scopes t.blocks b.id =
      (.input A slot, .inputs A (i + 1) :: outer) := by
    rw [hs]
    simp only [Scopes.place, Scopes.nextSlot?_eq hA hi]
  simp only [addBlock, hplace, scopes_register]
  rfl

end Target

namespace Emit

open Compilation

variable {α : Type} {c c₀ c₁ c₂ : Compilation} {σ : Script} {A slot s n : String} {k i j start : Nat}
variable {F inputs : List (String × Nat)} {pre cs names rest loose : List String} {a b : Block}

/-- A step that compiles operands into the slots of a block writes what belongs to the script. -/
def Composes (m : Emit α) (count : Nat) : Prop :=
  ∀ ⦃c : Compilation⦄ ⦃σ : Script⦄ ⦃A : String⦄ ⦃k : Nat⦄ ⦃F : List (String × Nat)⦄
    ⦃pre : List String⦄ ⦃s : String⦄ ⦃a : Block⦄ ⦃names rest : List String⦄,
    c.Ready σ ((A, k) :: F) pre s → c.target.block? A = some a → a.free k = names ++ rest →
    (∀ name ∈ names, a.Takes name) → names.length = count → c.Writes σ (m c).2

/-- What an expression writes, and where the scope of its slot stands afterwards. -/
structure Evaluated (σ : Script) (A : String) (k i : Nat) (F : List (String × Nat))
    (c : Compilation) (r : Option Operand × Compilation) : Prop where
  writes : c.Writes σ r.2
  index : ∀ v, r.1 = some v → ∃ ids, Sited r.2.target σ ((A, v.indexAfter k i) :: F) ids

/-- A step that compiles an expression for the next free slot writes what belongs to the script. -/
def Evaluates (m : Emit Operand) : Prop :=
  ∀ ⦃c : Compilation⦄ ⦃σ : Script⦄ ⦃A : String⦄ ⦃k : Nat⦄ ⦃F : List (String × Nat)⦄
    ⦃pre : List String⦄ ⦃s : String⦄ ⦃a : Block⦄ ⦃i : Nat⦄ ⦃slot : String⦄ ⦃rest : List String⦄,
    c.Ready σ ((A, k) :: F) pre s → c.target.block? A = some a → a.free k = slot :: rest →
    a.firstUnfilled? k = some (i, slot) → Evaluated σ A k i F c (m c)

/-- A value in its slot: the scope stands after the slot. -/
theorem Evaluates.operand {env : Env} {content : Content} {calls : List Tree} {m : Emit Operand}
    (h : Evaluates m) (hm : Emits env m content calls) (span : Span)
    (hr : c.Ready σ ((A, k) :: F) pre s) (hA : c.target.block? A = some a)
    (hfree : a.free k = slot :: rest) (hi : a.firstUnfilled? k = some (i, slot))
    (htakes : a.Takes slot) :
    c.Writes σ (Emit.operand span m c).2 ∧ ∀ v, (Emit.operand span m c).1 = some v →
      ∃ ids, Sited (Emit.operand span m c).2.target σ ((A, i + 1) :: F) ids := by
  obtain ⟨cs, k', hruns, hcalm, -, hok⟩ := hm hr.good hr.sited hA hfree
  obtain ⟨hw, hindex⟩ := h hr hA hfree hi
  simp only [Emit.operand]
  cases hres : m c with
  | mk r c₁ =>
    rw [hres] at hruns hcalm hok hw hindex
    cases r with
    | none =>
      refine ⟨?_, fun v hv => by simp only at hv; split at hv <;> cases hv⟩
      simp only
      split
      · exact hw.then (.refl _) (.report c₁ _ _) hruns.sited hruns.sited fun _ => id
      · exact hw
    | some v =>
      obtain ⟨⟨a', ha', hslot⟩, hyields, -⟩ := hok v rfl
      obtain ⟨ids, hsited⟩ := hindex v rfl
      have hbound : v.slotValue.Bound c₁.target :=
        Ready.bound (hr.tidy.returns.of_tables hcalm.tables) (hyields.known v (by simp))
      have hassign : c₁.target.Enlarged (fun _ => False) (c₁.target.assign v) →
          ∀ {k' : Nat}, Sited (c₁.target.assign v) σ ((A, k') :: F) (pre ++ cs ++ [s]) →
            c.Writes σ (c₁.setTarget (c₁.target.assign v)) := by
        intro he k' hs
        rw [← target_setTarget c₁ (c₁.target.assign v)] at he hs
        exact hw.then he (.setTarget c₁ _) hruns.sited hs fun _ => id
      by_cases hblock : ∃ id, v = .block id
      · obtain ⟨id, rfl⟩ := hblock
        refine ⟨hassign (.refl _) hruns.sited, fun w hw => ?_⟩
        rw [target_setTarget]
        exact ⟨ids, hsited⟩
      · have hv : ∀ id, v ≠ .block id := fun id he => hblock ⟨id, he⟩
        obtain ⟨hin, rfl⟩ : a'.inputs = a.inputs ∧ k' = k := by
          rcases v with value | ref | id | ⟨f, result⟩
          · exact hslot
          · exact hslot
          · exact absurd rfl (hv id)
          · exact hslot
        obtain ⟨k'', hs, -⟩ := hruns.sited.assign ha'
          ((Block.free_eq_of_inputs hin k').trans hfree) hv
        obtain ⟨outer, hscopes⟩ := hruns.sited.exists_scopes
        have hi' : a'.firstUnfilled? k' = some (i, slot) :=
          (Block.firstUnfilled?_congr hin k').trans hi
        have hk'' : k'' = i + 1 := hs.index_eq (Target.scopes_assign hscopes ha' hi' hv)
        subst hk''
        refine ⟨hassign (.assign hbound fun id name scopes b hplace hb => ?_) hs, fun w hw => ?_⟩
        · rw [hscopes, Scopes.placeValue, Scopes.nextSlot?_eq ha' hi'] at hplace
          cases hplace
          obtain rfl := Option.mem_unique ha' hb
          exact htakes.of_inputs hin
        rw [target_setTarget]
        exact ⟨_, hs⟩

/-- The state after an operand is ready for the next one. -/
theorem Evaluates.next {e : Expr} (h : Evaluates (expression e)) (hr : c.Ready σ ((A, k) :: F) pre s)
    (hA : c.target.block? A = some a) (hfree : a.free k = slot :: rest) (htakes : a.Takes slot)
    {v : Operand} {c' : Compilation} (hv : Emit.operand e.span (expression e) c = (some v, c')) :
    ∃ cs k' a', Runs σ (pre ++ [s]) (pre ++ cs ++ [s]) ((A, k') :: F) (· = A) c c' ∧ Calm c c' ∧
      c.Writes σ c' ∧ c'.Ready σ ((A, k') :: F) (pre ++ cs) s ∧ c'.target.block? A = some a' ∧
      a'.free k' = rest ∧ a'.slotKinds = a.slotKinds := by
  obtain ⟨i, input, hi, -⟩ := Block.firstUnfilled?_of_free hfree
  have hfree' : a.free k = [slot] ++ rest := hfree
  obtain ⟨cs, k', hruns, hcalm, -, hok⟩ := (expression_emits .unknown e).operand e.span hr.good
    hr.sited hA hfree' rfl
  have hw := (h.operand (expression_emits .unknown e) e.span hr hA hfree hi htakes).1
  rw [hv] at hruns hcalm hok hw
  obtain ⟨-, ⟨a', ha', -, hfree'⟩, -⟩ := hok v rfl
  obtain ⟨a'', ha'', hk⟩ := hw.old hA
  obtain rfl := Option.mem_unique ha' ha''
  exact ⟨cs, k', a', hruns, hcalm, hw, hr.later hruns.good hruns.sited hcalm.tables hw, ha', hfree',
    hk.slotKinds⟩

theorem expressions_composes {es : List Expr} (h : ∀ e ∈ es, Evaluates (expression e)) :
    Composes (expressions es) es.length := by
  induction es with
  | nil =>
    intro c σ A k F pre s a names rest hr hA hfree htakes hlen
    exact .refl σ c
  | cons e es ih =>
    intro c σ A k F pre s a names rest hr hA hfree htakes hlen
    obtain ⟨slot, names, rfl⟩ := List.exists_cons_of_length_eq_add_one hlen
    rw [List.forall_mem_cons] at htakes
    have he : Evaluates (expression e) := h e List.mem_cons_self
    rw [List.cons_append] at hfree
    obtain ⟨i, input, hi, -⟩ := Block.firstUnfilled?_of_free hfree
    have hw := (he.operand (expression_emits .unknown e) e.span hr hA hfree hi htakes.1).1
    rw [expressions, bind_apply]
    cases hv : Emit.operand e.span (expression e) c with
    | mk r c₁ =>
      rw [hv] at hw
      cases r with
      | none => exact hw
      | some v =>
        obtain ⟨cs, k', a', hruns, hcalm, -, hr', ha', hfree', hkinds⟩ :=
          he.next hr hA hfree htakes.1 hv
        have hes := ih (fun e' he' => h e' (List.mem_cons_of_mem e he'))
        have hw' := hes hr' ha' hfree' (fun name hm => (htakes.2 name hm).of_kinds hkinds)
          (Nat.succ.inj hlen)
        obtain ⟨cs', k'', hruns', hcalm', -⟩ := expressions_fills .unknown es hr'.good hr'.sited ha'
          hfree' (by rw [List.length_map]; exact Nat.succ.inj hlen)
        have hsub : ∀ x ∈ pre ++ cs ++ [s], x ∈ pre ++ cs ++ cs' ++ [s] := by
          intro x hx
          simp only [List.mem_append] at hx ⊢
          tauto
        have hall := hw.trans hw' hcalm'.rest hr'.sited hruns'.sited hsub
        simp only
        rw [bind_apply]
        cases hres : expressions es c₁ with
        | mk r' c₂ =>
          rw [hres] at hall
          cases r' <;> exact hall

end Emit
end ScriptBlocks
