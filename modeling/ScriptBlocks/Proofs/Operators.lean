import ScriptBlocks.Compile.Expression
import ScriptBlocks.Proofs.Emission

/-!
# Operators

An operator is a block whose slots take its operands. Each operator leaves behind what reads as
its translation, with slots of the right types.
-/
namespace ScriptBlocks

variable {t : Target} {b : Block} {first second : String} {S : String → Prop} {i : Inference}
variable {β : Type} {type : ValueType}

/-- The opcodes of comparisons. -/
inductive Opcode.Compares : Opcode → Prop
  | equals : Opcode.Compares .equals
  | less : Opcode.Compares .less
  | greater : Opcode.Compares .greater

abbrev Block.comparison (opcode : Opcode) (id : String) (a b : SlotValue) : Block :=
  .pair id opcode .boolean .text "OPERAND1" "OPERAND2" a b

namespace Opcode.Compares

variable {opcode : Opcode}

theorem inner (h : opcode.Compares) : opcode.startsScript = false := by
  cases h <;> rfl

/-- A comparison asks nothing of the types of its operands. -/
theorem wellTyped (h : opcode.Compares) (hb : b.opcode = opcode) : b.WellTyped t := by
  cases h <;> simp [Block.WellTyped, hb]

end Opcode.Compares

/-- A block before its operands are compiled. -/
structure Shape (make : String → Block) (start : Nat) (names : List String) (opcode : Opcode)
    (fields : List (String × Field)) (mutation : Option Mutation) : Prop where
  id_eq : ∀ n, (make n).id = n
  next : ∀ n, (make n).next = none
  parent : ∀ n, (make n).parent = none
  argument : ∀ n, (make n).argument = none
  children : ∀ n, (make n).children = []
  free : ∀ n, (make n).free start = names
  opcode_eq : ∀ n, (make n).opcode = opcode
  fields_eq : ∀ n, (make n).fields.entries = fields
  mutation_eq : ∀ n, (make n).mutation = mutation
  inner : opcode.startsScript = false

/-- A block gives a value, whose type is settled. -/
def Block.Valued (b : Block) : Prop :=
  b.inferred ≠ .unresolved ∧ b.inferred ≠ .void

theorem Block.valued_of (type : ValueType) (h : b.inferred = type)
    (ht : type ≠ .unresolved ∧ type ≠ .void) : b.Valued := by
  rw [Valued, h]
  exact ht

/-- The slots of a block by name. -/
def Block.slots (b : Block) : List (String × SlotValue) :=
  b.inputs.entries.map fun e => (e.1, e.2.value)

namespace Block

theorem slots_fill (b : Block) (slot : String) (value : SlotValue) :
    (b.fill slot value).slots = b.slots.map fun e => if e.1 = slot then (e.1, value) else e := by
  rw [slots, fill, Table.entries_modify, slots, List.map_map, List.map_map]
  refine List.map_congr_left fun e _ => ?_
  simp only [Function.comp_apply]
  split <;> rfl

theorem slotHas_of_mem {name : String} {value : SlotValue} {type : ValueType}
    (hm : (name, value) ∈ b.slots) (ht : type ≠ .unresolved) (hv : value.HasType t type) :
    b.SlotHas t name type := by
  obtain ⟨⟨n, input⟩, he, heq⟩ := List.mem_map.1 hm
  cases heq
  exact ⟨ht, input, Table.get?_eq_some_iff.2 he, hv⟩

theorem pair_entries (id : String) (opcode : Opcode) (inferred : ValueType) (kind : SlotKind)
    (h : first ≠ second) (a b : SlotValue) :
    (pair id opcode inferred kind first second a b).inputs.entries =
      [(first, ⟨kind, a⟩), (second, ⟨kind, b⟩)] := by
  simp [pair, withSlots, Table.ofEntries, Table.insert, Table.empty, Entries.insert, h]

theorem pair_fillAll_slots (id : String) (opcode : Opcode) (inferred : ValueType) (kind : SlotKind)
    (h : first ≠ second) (l r : Operand) :
    ((pair id opcode inferred kind first second .empty .empty).fillAll [first, second]
      [l, r]).slots = [(first, l.slotValue), (second, r.slotValue)] := by
  simp only [fillAll, List.zip_cons_cons, List.zip_nil_right, List.foldl_cons, List.foldl_nil,
    slots_fill]
  simp [slots, pair_entries _ _ _ _ h, h, h.symm]

theorem fillAll_one (b : Block) (name : String) (v : Operand) :
    (b.fillAll [name] [v]).slots =
      b.slots.map fun e => if e.1 = name then (e.1, v.slotValue) else e := by
  simp only [fillAll, List.zip_cons_cons, List.zip_nil_right, List.foldl_cons, List.foldl_nil,
    slots_fill]

end Block

namespace Shape

variable {make : String → Block} {start : Nat} {names : List String} {opcode : Opcode}
variable {fields : List (String × Field)} {mutation : Option Mutation}

theorem fits {σ : Script} {ids : List String} {A : String}
    (h : Shape make start names opcode fields mutation) :
    Sited.Fits t σ ids A (make (t.freshId "block")) where
  id_eq := h.id_eq _
  next := h.next _
  nodup := by rw [h.children]; exact List.nodup_nil
  child := by rw [h.children]; simp

/-- The view of a block whose slots have been filled. -/
theorem tree_at {env : Env} {slots : List (String × Content)}
    (h : Shape make start names opcode fields mutation) {n : String} (hb : t.block? n = some b)
    (hface : b.face = (make n).face) (hslots : SlotsAt (env.look t) S b.slots slots) :
    (Tree.node opcode fields mutation slots).At (env.look t) S n := by
  refine ⟨env.view b, by simp [Env.look, hb], ?_, ?_, ?_, hslots⟩
  · rw [Env.view_opcode hface]
    simp [Env.view, h.argument, h.opcode_eq]
  · rw [← h.fields_eq n]
    exact congrArg Table.entries (congrArg Block.fields hface :)
  · rw [← h.mutation_eq n]
    exact (congrArg Block.mutation hface :)

theorem not_starts (h : Shape make start names opcode fields mutation) (n : String) :
    ¬ (make n).Starts := by
  intro hs
  have ho := hs.2
  rw [h.opcode_eq, h.inner] at ho
  cases ho

theorem pair {opcode : Opcode} (ho : opcode.startsScript = false) (inferred : ValueType)
    (kind : SlotKind) (h : first ≠ second) :
    Shape (fun id => Block.pair id opcode inferred kind first second .empty .empty) 0
      [first, second] opcode [] none where
  id_eq _ := rfl
  next _ := rfl
  parent _ := rfl
  argument _ := rfl
  children n := by
    simp [Block.children, Table.values, Block.pair_entries n opcode inferred kind h, Input.block?]
  free n := by
    simp [Block.free, Block.pair_entries n opcode inferred kind h, Input.isFilled]
  opcode_eq _ := rfl
  fields_eq _ := rfl
  mutation_eq _ := rfl
  inner := ho

theorem comparison {opcode : Opcode} (h : opcode.Compares) :
    Shape (Block.comparison opcode · .empty .empty) 0 ["OPERAND1", "OPERAND2"] opcode [] none :=
  pair h.inner _ _ (by decide)

theorem pair_slotsAt (id : String) (opcode : Opcode) (inferred : ValueType) (kind : SlotKind)
    (h : first ≠ second) {look : String → Option View} {vs : List Operand} {left right : Content}
    (hv : List.Forall₂ (fun (op : Operand) (content : Content) => content.At look S op.slotValue)
      vs [left, right]) :
    SlotsAt look S ((Block.pair id opcode inferred kind first second .empty .empty).fillAll
      [first, second] vs).slots [(first, left), (second, right)] := by
  obtain ⟨l, _, hl, hv', rfl⟩ := List.forall₂_cons_right_iff.1 hv
  obtain ⟨r, _, hr, hv'', rfl⟩ := List.forall₂_cons_right_iff.1 hv'
  rw [List.forall₂_nil_right_iff.1 hv'', Block.pair_fillAll_slots id opcode inferred kind h]
  exact ⟨rfl, hl, rfl, hr, trivial⟩

theorem negation : Shape (Block.negation · .empty) 0 ["OPERAND"] .not [] none :=
  ⟨fun _ => rfl, fun _ => rfl, fun _ => rfl, fun _ => rfl, fun _ => rfl, fun _ => rfl,
    fun _ => rfl, fun _ => rfl, fun _ => rfl, rfl⟩

theorem join (symbol : String) :
    Shape (Block.join · (.payload (.text symbol)) .empty) 1 ["STRING2"] .join [] none where
  id_eq _ := rfl
  next _ := rfl
  parent _ := rfl
  argument _ := rfl
  children n := by
    simp [Block.children, Table.values, Block.join,
      Block.pair_entries n .join .string .text (by decide : "STRING1" ≠ "STRING2"), Input.block?]
  free n := by
    simp [Block.free, Block.join,
      Block.pair_entries n .join .string .text (by decide : "STRING1" ≠ "STRING2"), Input.isFilled]
  opcode_eq _ := rfl
  fields_eq _ := rfl
  mutation_eq _ := rfl
  inner := rfl

end Shape

/-- The slots of `A` are `inputs`, and those in `rest` come next. -/
def Target.Anchored (t : Target) (A : String) (inputs : Table Input) (k : Nat)
    (rest : List String) : Prop :=
  ∃ a, t.block? A = some a ∧ a.inputs = inputs ∧ a.free k = rest

theorem Inference.Advance.anchored {O C : String → Prop} {i' : Inference} {A : String}
    {inputs : Table Input} {k : Nat} {rest : List String} (h : Advance O C i i')
    (ha : i.target.Anchored A inputs k rest) (hO : ¬ O A) : i'.target.Anchored A inputs k rest := by
  obtain ⟨a, hA, hin, hfree⟩ := ha
  obtain ⟨a', hA', hk⟩ := h.old hA
  exact ⟨a', hA', (hk.inputs hO).trans hin, (Block.free_eq_of_inputs (hk.inputs hO) k).trans hfree⟩

namespace Emit

open Compilation

variable {c : Compilation} {σ : Script} {A slot : String} {k : Nat} {F : List (String × Nat)}
variable {ids rest : List String} {a : Block}

/-- Placing a block in the next free slot. -/
theorem place_input {make : String → Block} (hg : c.inference.Good)
    (hs : Sited c.target σ ((A, k) :: F) ids) (hA : c.target.block? A = some a)
    (hfree : a.free k = slot :: rest)
    (hb : Sited.Fits c.target σ ids A (make (c.target.freshId "block")))
    (harg : ∀ n, (make n).argument = none ∧ ¬ (make n).Starts) :
    ∃ n k' c', Emit.place make c = (some n, c') ∧ c.target.block? n = none ∧
      (∀ x b, c'.target.block? x = some b → c.target.block? x = none → x = n) ∧
      c'.target.block? n = some (Target.under A (make n)) ∧
      c'.target.Anchored A (a.fill slot (.block n)).inputs k' rest ∧
      Sited c'.target σ ((A, k') :: F) ids ∧ c'.inference.Good ∧
      Inference.Advance (· = A) (· ∈ (make n).children) c.inference c'.inference ∧ Calm c c' := by
  obtain ⟨k', hs', hr, honly, hn, hanchor⟩ := hs.place_input hA hfree hb
  have hid := hb.id_eq
  rw [hid] at honly hn hanchor
  refine ⟨c.target.freshId "block", k',
    c.setTarget (c.target.draw.addBlock (make (c.target.freshId "block"))), rfl, hs.fresh_block,
    ?_, ?_, ?_, ?_, ?_, ?_, .setTarget hr.tables fun x b hx hxn => ?_⟩
  · rw [target_setTarget]
    exact honly
  · rw [target_setTarget]
    exact hn
  · rw [target_setTarget]
    exact hanchor
  · rw [target_setTarget]
    exact hs'
  · rw [inference_setTarget]
    exact Inference.Good.rewired hg hr
  · rw [inference_setTarget]
    exact Inference.Advance.ofRewired hr c.function
  · rw [honly x b hx hxn, hn] at hx
    cases hx
    exact harg _

variable {α : Type} {env : Env} {contents : List Content} {calls : List Tree} {pre : List String}
variable {s : String}

/-- An operator stands in its slot, and its own slots are filled. -/
structure Operator (env : Env) (b₀ : Block) (names : List String) (contents : List Content)
    (calls : List Tree) (σ : Script) (pre cs : List String) (s A slot : String) (a : Block)
    (rest : List String) (F : List (String × Nat)) (k : Nat) (n : String) (ops : List Operand)
    (c c' : Compilation) : Prop where
  runs : Runs σ (pre ++ [s]) (pre ++ cs ++ [s]) ((A, k) :: F) (· = A) c c'
  calm : Calm c c'
  base : ∀ x ∈ σ.base, (c.target.block? x).isSome
  old : c.target.block? A = some a
  inner : Inner c (pre ++ cs ++ [s]) n
  anchor : c'.target.Anchored A (a.fill slot (.block n)).inputs k rest
  block : ∃ b, c'.target.block? n = some b ∧ b.face = b₀.face ∧
    b.inputs = (b₀.fillAll names ops).inputs ∧ b.next = none ∧ b.parent = some A ∧ b.Valued
  yields : Yields env contents calls (pre ++ cs ++ [s]) cs ops c c'
  typed : Typed (· = n) c c'

section

variable {make : String → Block} {start : Nat} {names cs : List String} {opcode : Opcode}
variable {fields : List (String × Field)} {mutation : Option Mutation} {m : Emit α}
variable {ops : α → List Operand} {n : String} {vs : List Operand} {b₀ : Block} {c' : Compilation}

/-- Placing an operator and compiling its operands. -/
theorem operator_core {K : String → α → Emit β}
    (hshape : Shape make start names opcode fields mutation) (hvalue : ∀ n, (make n).Valued)
    (hF : Fills env m ops contents calls) (hlen : names.length = contents.length)
    (hg : c.inference.Good) (hs : Sited c.target σ ((A, k) :: F) (pre ++ [s]))
    (hA : c.target.block? A = some a) (hfree : a.free k = slot :: rest) :
    ∃ cs k' c', Runs σ (pre ++ [s]) (pre ++ cs ++ [s]) ((A, k') :: F) (· = A) c c' ∧ Calm c c' ∧
      ((c'.project.success = false ∧
          (place make >>= fun n => within (.inputs n start) m >>= K n) c = (none, c')) ∨
        ∃ n r, (place make >>= fun n => within (.inputs n start) m >>= K n) c = K n r c' ∧
          Operator env (make n) names contents calls σ pre cs s A slot a rest F k' n (ops r) c c' ∧
          ∀ b, c'.target.block? n = some b → b.inferred = (make n).inferred) := by
  obtain ⟨n, k₁, c₁, hplace, hnew, honly, hn, hanchor, hs₁, hg₁, hadv₁, hcalm₁⟩ :=
    place_input hg hs hA hfree hshape.fits fun n => ⟨hshape.argument n, hshape.not_starts n⟩
  have hruns₁ : Runs σ (pre ++ [s]) (pre ++ [s]) ((A, k₁) :: F) (· = A) c c₁ := by
    refine ⟨hs₁, hg₁, hadv₁.mono (fun _ _ _ => id) ?_, fun _ => .inl⟩
    simp [hshape.children]
  have hnA : n ≠ A := ne_of_found hnew hA
  have hnids : n ∉ σ.base.toList ++ (pre ++ [s]) := by
    intro hm
    obtain ⟨b, hb⟩ := hs.exists_block hm
    simp [hnew] at hb
  have hfreeₙ : (Target.under A (make n)).free start = names ++ [] := by
    rw [List.append_nil]
    exact (Block.free_eq_of_inputs rfl start).trans (hshape.free n)
  obtain ⟨cs, c₂, r, hwithin, hruns₂, hcalm₂, hloud₂, hok₂⟩ := hF.within hg₁ hs₁ hn hfreeₙ hlen
  obtain ⟨b₂', hb₂', hkept⟩ := hruns₂.advance.old hn
  have hruns : Runs σ (pre ++ [s]) (pre ++ cs ++ [s]) ((A, k₁) :: F) (· = A) c c₂ :=
    hruns₁.trans hruns₂ fun x b hx hor => hor.elim id fun he => by
      simp [he, hnew] at hx
  have hcalm := hcalm₁.trans hcalm₂ hruns₂.advance
  refine ⟨cs, k₁, c₂, hruns, hcalm, ?_⟩
  cases r with
  | none => exact .inl ⟨hloud₂ rfl, by simp only [bind_apply, hplace, hwithin]⟩
  | some r =>
    obtain ⟨-, ⟨b₂, hb₂, hin₂⟩, hy, ht⟩ := hok₂ r rfl
    obtain rfl := Option.mem_unique hb₂ hb₂'
    refine .inr ⟨n, r, by simp only [bind_apply, hplace, hwithin], ⟨hruns, hcalm, hs.base_isSome, hA,
      ⟨hnew, ?_⟩, hruns₂.advance.anchored hanchor (Ne.symm hnA), ?_,
      hy.since hcalm₁ hruns₁.advance, ?_⟩, fun b hb => ?_⟩
    · intro hm
      obtain hm | hnone := hruns₂.new_ids n hm
      · exact hnids (List.mem_append_right _ hm)
      · simp [hn] at hnone
    · refine ⟨b₂, hb₂, hkept.face, ?_, (hkept.next hnids).trans (hshape.next n), hkept.parent hnids,
        hkept.valued (hvalue n)⟩
      rw [hin₂]
      exact Block.fillAll_inputs_congr (show (Target.under A (make n)).inputs = (make n).inputs from rfl)
        names (ops r)
    · refine Typed.trans (P := (· = n)) ?_ ht hcalm₁ hcalm₂ hruns₂.good hruns₂.advance
        (fun _ => id) (fun _ => False.elim) fun x hx _ => hx
      intro _ x b hx hxn hne
      exact absurd (honly x b hx hxn) hne
    · obtain rfl := Option.mem_unique hb hb₂
      exact hkept.inferred (hvalue n).1

/-- Settling types leaves an operator as it is. -/
theorem Operator.quiet {r : Option β × Compilation}
    (h : Operator env b₀ names contents calls σ pre cs s A slot a rest F k n vs c c')
    (hq : Quietly c' r) :
    Operator env b₀ names contents calls σ pre cs s A slot a rest F k n vs c r.2 := by
  have hruns : Runs σ (pre ++ cs ++ [s]) (pre ++ cs ++ [s]) ((A, k) :: F) (fun _ => False) c' r.2 :=
    hq.runs h.runs.sited
  refine ⟨h.runs.trans hruns fun _ _ _ hor => hor.elim id False.elim,
    h.calm.trans hq.calm hruns.advance, h.base, h.old, h.inner,
    hruns.advance.anchored h.anchor id, ?_, h.yields.quiet hq, h.typed.quiet h.calm hq⟩
  obtain ⟨b, hb, hface, hin, hnext, hpar, hvalue⟩ := h.block
  obtain ⟨b', hb', hk⟩ := hq.quiet.old hb
  exact ⟨b', hb', hk.face.trans hface, (hk.inputs id).trans hin, (hk.next id).trans hnext,
    (hk.parent id).trans hpar, hk.valued hvalue⟩

/-- The type of an operator may be changed once its operands are there. -/
theorem Operator.retype
    (h : Operator env b₀ names contents calls σ pre cs s A slot a rest F k n vs c c')
    (hnone : b₀.argument = none) (hu : type ≠ .unresolved) (hv : type ≠ .void) :
    Operator env b₀ names contents calls σ pre cs s A slot a rest F k n vs c
      (c'.setTarget (c'.target.modifyBlock n ({ · with inferred := type }))) := by
  obtain ⟨b, hb, hface, hin, hnext, hpar, -⟩ := h.block
  have hold := h.old
  have hbnone : b.argument = none := (congrArg Block.argument hface :).trans hnone
  have hlookup (x : String) :=
    Target.block?_modifyBlock c'.target n x ({ · with inferred := type })
  have hother : ∀ x, x ≠ n → (c'.target.modifyBlock n ({ · with inferred := type })).block? x =
      c'.target.block? x := fun x hx => by rw [hlookup, if_neg (Ne.symm hx)]
  have hself : (c'.target.modifyBlock n ({ · with inferred := type })).block? n =
      some { b with inferred := type } := by rw [hlookup, if_pos rfl, hb]; rfl
  have hsome : ∀ x bx, (c'.target.modifyBlock n ({ · with inferred := type })).block? x = some bx →
      ∃ bx', c'.target.block? x = some bx' ∧ bx.argument = bx'.argument ∧
        bx.opcode = bx'.opcode := by
    intro x bx hx
    by_cases hxn : x = n
    · subst hxn
      rw [hself] at hx
      cases hx
      exact ⟨b, hb, rfl, rfl⟩
    · exact ⟨bx, hother x hxn ▸ hx, rfl, rfl⟩
  have hlook : env.look (c'.target.modifyBlock n ({ · with inferred := type })) =
      env.look c'.target := by
    funext x
    by_cases hxn : x = n
    · subst hxn
      simp [Env.look, hself, hb, Env.view]
    · simp [Env.look, hother x hxn]
  have hnA : n ≠ A := ne_of_found h.inner.1 hold
  have hcalm : Calm c (c'.setTarget (c'.target.modifyBlock n ({ · with inferred := type }))) := by
    refine ⟨h.calm.rest.trans (.setTarget c' _), ?_, h.calm.function, fun {x bx a} hx hxn ha => ?_,
      fun {x bx} hx hxn hst => ?_⟩
    · rw [target_setTarget]
      exact h.calm.tables
    · rw [target_setTarget] at hx
      obtain ⟨bx', hbx', harg, -⟩ := hsome x bx hx
      exact h.calm.marked hbx' hxn (harg ▸ ha)
    · rw [target_setTarget] at hx
      obtain ⟨bx', hbx', harg, ho⟩ := hsome x bx hx
      exact h.calm.inner hbx' hxn ⟨harg ▸ hst.1, ho ▸ hst.2⟩
  refine ⟨h.runs.retype h.inner.1 hb hbnone type, hcalm, h.base, h.old, h.inner, ?_, ?_,
    ⟨fun op hop => ?_, ?_, ?_⟩, ?_⟩
  · rw [target_setTarget, Target.Anchored, hother A (Ne.symm hnA)]
    exact h.anchor
  · rw [target_setTarget]
    exact ⟨_, hself, hface, hin, hnext, hpar, hu, hv⟩
  · have hk := h.yields.known op hop
    rw [inference_setTarget]
    rcases op with value | ref | id | ⟨f, result⟩
    · trivial
    · exact hk
    · obtain ⟨bi, hbi, hm⟩ := hk
      by_cases hin : id = n
      · subst hin
        exact ⟨_, hself, fun a ha => by simp [hbnone] at ha, fun _ => ⟨hu, hv⟩⟩
      · exact ⟨bi, (hother id hin).trans hbi, hm⟩
    · exact hk
  · rw [target_setTarget, hlook]
    exact h.yields.values
  · rw [target_setTarget, hlook]
    exact h.yields.calls
  · intro hsane x bx hx hxn hne
    rw [target_setTarget] at hx ⊢
    rw [hother x hne] at hx
    refine (h.typed hsane x bx hx hxn hne).mono rfl rfl (.inl rfl) (.of_tables rfl) ?_
    -- only the anchor holds the operator, and it is older
    intro y by₀ hy hby hi
    have hyn : y ≠ n := by
      rintro rfl
      have hlinks := Target.links_eq_some hx
      obtain ⟨ly, hly, hp⟩ := h.runs.sited.sound.linked.down hlinks
        (Links.mem_refs.2 (.inr (Links.mem_children.1 (Block.links_children bx ▸ hy))))
      rw [Target.links_eq_some hb] at hly
      cases hly
      rw [show b.links.parent = some A from hpar] at hp
      cases hp
      simp [hold] at hxn
    exact ⟨by₀, (hother y hyn).trans hby, rfl⟩

/-- An operator reads as its tree. -/
theorem Operator.result {slots : List (String × Content)}
    (h : Operator env (make n) names contents calls σ pre cs s A slot a rest F k n vs c c')
    (hshape : Shape make start names opcode fields mutation)
    (hslots : ∀ {look S n vs}, List.Forall₂
      (fun (op : Operand) (content : Content) => content.At look S op.slotValue) vs contents →
        SlotsAt look S ((make n).fillAll names vs).slots slots)
    (hwell : c'.target.Sane → ∀ b : Block, b.opcode = opcode →
      b.slots = ((make n).fillAll names vs).slots → b.WellTyped c'.target) :
    Yields env [.script [.node opcode fields mutation slots]] calls (pre ++ cs ++ [s]) cs
      [.block n] c c' ∧ Typed (fun _ => False) c c' := by
  obtain ⟨b, hb, hface, hin, hnext, -, hvalue⟩ := h.block
  have hslots' : b.slots = ((make n).fillAll names vs).slots := by
    rw [Block.slots, hin]
    rfl
  have hnone : (make n).argument = none := hshape.argument n
  have hnone' : b.argument = none := (congrArg Block.argument hface :).trans hnone
  have hopcode : b.opcode = opcode :=
    (Block.opcode_of_face hface hnone).trans (hshape.opcode_eq n)
  refine ⟨⟨?_, fun hcov => ?_, h.yields.calls⟩, ?_⟩
  · intro op hop
    obtain rfl := List.mem_singleton.1 hop
    exact ⟨b, hb, by simp [hnone'], fun _ => hvalue⟩
  · refine .cons ⟨h.inner, hshape.tree_at hb hface ?_, env.view b, by simp [Env.look, hb], ?_⟩ .nil
    · rw [hslots']
      exact hslots (h.yields.values hcov)
    · rw [show (env.view b).next = none from hnext]
      trivial
  · intro hsane x bx hx hxn _
    by_cases hxid : x = n
    · subst hxid
      obtain rfl := Option.mem_unique hx hb
      exact hwell (h.calm.sane hsane) bx hopcode hslots'
    · exact h.typed hsane x bx hx hxn hxid

/-- An operator with its operands in its free slots, followed by steps that only settle types. -/
theorem operator_emits {slots : List (String × Content)} {K : String → α → Emit Operand}
    (hshape : Shape make start names opcode fields mutation) (hvalue : ∀ n, (make n).Valued)
    (hF : Fills env m ops contents calls) (hlen : names.length = contents.length)
    (hslots : ∀ {look S n vs}, List.Forall₂
      (fun (op : Operand) (content : Content) => content.At look S op.slotValue) vs contents →
        SlotsAt look S ((make n).fillAll names vs).slots slots)
    (hK : ∀ {n r c}, c.inference.Good → (∀ op ∈ ops r, c.inference.Known op) →
      Quietly c (K n r c) ∧ ∀ v c', K n r c = (some v, c') → v = .block n ∧ (c'.target.Sane →
        ∀ b : Block, b.opcode = opcode → b.slots = ((make n).fillAll names (ops r)).slots →
          b.WellTyped c'.target)) :
    Emits env (place make >>= fun n => within (.inputs n start) m >>= K n)
      (.script [.node opcode fields mutation slots]) calls := by
  intro c σ A k F pre s a slot rest hg hs hA hfree
  obtain ⟨cs, k', c', hruns, hcalm, ⟨hloud, he⟩ | ⟨n, r, he, hop, -⟩⟩ :=
    operator_core (K := K) hshape hvalue hF hlen hg hs hA hfree
  · rw [he]
    exact ⟨cs, k', hruns, hcalm, fun _ => hloud, by simp⟩
  · rw [he]
    obtain ⟨hq, hv⟩ := hK (n := n) (r := r) hruns.good hop.yields.known
    have hop' := hop.quiet hq
    refine ⟨cs, k', hop'.runs, hop'.calm, hq.loud, fun v hv₁ => ?_⟩
    obtain ⟨rfl, hwell⟩ := hv v (K n r c').2 (by rw [← hv₁])
    obtain ⟨hy, ht⟩ := hop'.result hshape hslots hwell
    exact ⟨hop'.anchor, hy, ht⟩

end

theorem bind_eq_some {m : Emit α} {f : α → Emit β} {c c' : Compilation} {v : β}
    (h : (m >>= f) c = (some v, c')) : ∃ x c₁, m c = (some x, c₁) ∧ f x c₁ = (some v, c') := by
  rw [bind_apply] at h
  cases hm : m c with
  | mk r c₁ =>
    rw [hm] at h
    cases r with
    | none => cases h
    | some x => exact ⟨x, c₁, rfl, h⟩

section

variable {left right : Part} {l r : Content} {calls' : List Tree}

/-- Two operands in the slots of their operator. -/
theorem pair_fills (hl : Emits env left.emit l calls) (hr : Emits env right.emit r calls') :
    Fills env (do let x ← left.operand; let y ← right.operand; pure (x, y)) (fun p => [p.1, p.2])
      [l, r] (calls ++ calls') :=
  (hl.operand left.span).append (hr.operand right.span) fun _ _ => rfl

theorem bind_of_eq {m : Emit α} {f : α → Emit β} {c c' : Compilation} {x : α}
    (h : m c = (some x, c')) : (m >>= f) c = f x c' := by
  rw [bind_apply, h]

theorem bind_of_none {m : Emit α} {f : α → Emit β} {c c' : Compilation} (h : m c = (none, c')) :
    (m >>= f) c = (none, c') := by
  rw [bind_apply, h]

/-- A warning does not stop compilation. -/
theorem warnDivisionByZero_quietly {c : Compilation} (hg : c.inference.Good) (op : ArithmeticOp)
    (divisor : Operand) (span : Span) :
    ∃ c', warnDivisionByZero op divisor span c = (some (), c') ∧
      Quietly c ((some (), c') : Option Unit × Compilation) := by
  unfold warnDivisionByZero
  split
  · split
    · exact ⟨_, rfl, .report hg .divisionByZero span⟩
    · exact ⟨c, rfl, .pure hg ()⟩
  · exact ⟨c, rfl, .pure hg ()⟩

/-- The check that ends most operators. -/
theorem expectType_then {c : Compilation} (hg : c.inference.Good) (hv : type.IsValue)
    (ops : List Operand) (span : Span) (value : Operand) :
    Quietly c ((do expectType type ops span; pure value : Emit Operand) c) ∧
      ∀ v c', (do expectType type ops span; pure value : Emit Operand) c = (some v, c') →
        v = value ∧ ∀ op ∈ ops, c.inference.Known op →
          c'.inference.Known op ∧ c'.inference.Has op type := by
  obtain ⟨hq, hhas⟩ := Quietly.expectType hg hv ops span
  refine ⟨hq.bind fun _ c₁ h₁ => .pure (by rw [h₁] at hq; exact hq.good) value, ?_⟩
  intro v c' h
  obtain ⟨_, c₁, h₁, h₂⟩ := bind_eq_some h
  cases h₂
  rw [h₁] at hq
  exact ⟨rfl, fun op hop hk => ⟨hq.quiet.known hk, hhas _ h₁ op hop hk⟩⟩

/-- Two slots of one type. -/
theorem pair_slotHas {type : ValueType} {l r : Operand} (hs : i.target.Sane)
    (ht : type ≠ .unresolved) (hhas : ∀ op ∈ [l, r], i.Known op ∧ i.Has op type)
    (hb : b.slots = [(first, l.slotValue), (second, r.slotValue)]) :
    b.SlotHas i.target first type ∧ b.SlotHas i.target second type := by
  obtain ⟨hkl, hl⟩ := hhas l (by simp)
  obtain ⟨hkr, hr⟩ := hhas r (by simp)
  exact ⟨Block.slotHas_of_mem (by rw [hb]; simp) ht (hl.slotValue hs hkl),
    Block.slotHas_of_mem (by rw [hb]; simp) ht (hr.slotValue hs hkr)⟩

theorem arithmetic_emits (hl : Emits env left.emit l calls) (hr : Emits env right.emit r calls')
    (op : ArithmeticOp) (opSpan : Span) :
    Emits env (arithmetic op opSpan left right) (.script [.arithmetic op l r])
      (calls ++ calls') := by
  have hne : "NUM1" ≠ "NUM2" := by decide
  refine operator_emits
    (K := fun id p => do
      warnDivisionByZero op p.2 right.span
      expectType .number [p.1, p.2] opSpan
      pure (.block id))
    (.pair (by rfl : (Opcode.arithmetic op).startsScript = false) _ _ hne)
    (fun _ => Block.valued_of .number rfl (by decide)) (pair_fills hl hr) rfl (Shape.pair_slotsAt _ _ _ _ hne) ?_
  intro n p c hg hk
  obtain ⟨c₁, h₁, hq₁⟩ := warnDivisionByZero_quietly hg op p.2 right.span
  obtain ⟨hq, hv⟩ := expectType_then hq₁.good (by decide : ValueType.number.IsValue)
    [p.1, p.2] opSpan (.block n)
  rw [bind_of_eq h₁]
  refine ⟨hq₁.trans hq, fun v c' h => ?_⟩
  obtain ⟨rfl, hhas⟩ := hv v c' h
  refine ⟨rfl, fun hs b ho hb => ?_⟩
  rw [Block.pair_fillAll_slots _ _ _ _ (by decide)] at hb
  simp only [Block.WellTyped, ho]
  exact pair_slotHas hs (by decide) (fun op hop => hhas op hop (hq₁.quiet.known (hk op hop))) hb

theorem logic_emits (hl : Emits env left.emit l calls) (hr : Emits env right.emit r calls')
    (op : LogicOp) (opSpan : Span) :
    Emits env (logic op opSpan left right) (.script [.relation (.logic op) l r])
      (calls ++ calls') := by
  have hne : "OPERAND1" ≠ "OPERAND2" := by decide
  refine operator_emits
    (K := fun id p => do
      expectType .boolean [p.1, p.2] opSpan
      pure (.block id))
    (.pair (by rfl : (Opcode.logic op).startsScript = false) _ _ hne)
    (fun _ => Block.valued_of .boolean rfl (by decide)) (pair_fills hl hr) rfl
    (Shape.pair_slotsAt _ _ _ _ hne) ?_
  intro n p c hg hk
  obtain ⟨hq, hv⟩ := expectType_then hg (by decide : ValueType.boolean.IsValue)
    [p.1, p.2] opSpan (.block n)
  refine ⟨hq, fun v c' h => ?_⟩
  obtain ⟨rfl, hhas⟩ := hv v c' h
  refine ⟨rfl, fun hs b ho hb => ?_⟩
  rw [Block.pair_fillAll_slots _ _ _ _ (by decide)] at hb
  simp only [Block.WellTyped, ho]
  exact pair_slotHas hs (by decide) (fun op hop => hhas op hop (hk op hop)) hb

theorem hintType_quietly {c : Compilation} (hg : c.inference.Good) (hv : type ≠ .void)
    (ops : List Operand) (value : Operand) :
    Quietly c ((do hintType type ops; pure value : Emit Operand) c) ∧
      ∀ v c', (do hintType type ops; pure value : Emit Operand) c = (some v, c') → v = value := by
  have hq := Quietly.hintType hg hv ops
  refine ⟨hq.bind fun _ c₁ h₁ => .pure (by rw [h₁] at hq; exact hq.good) value, ?_⟩
  intro v c' h
  obtain ⟨_, c₁, h₁, h₂⟩ := bind_eq_some h
  cases h₂
  rfl

theorem hintEqual_quietly {c : Compilation} (hg : c.inference.Good) {l r : Operand}
    (hk : ∀ op ∈ [l, r], c.inference.Known op) :
    ∃ c', hintEqual l r c = (some (), c') ∧
      Quietly c ((some (), c') : Option Unit × Compilation) := by
  have hq₁ := Quietly.hintType hg (hg.expected_ne_void (hk r (by simp))) [l]
  have hq₂ := Quietly.hintType hq₁.good (hg.expected_ne_void (hk l (by simp))) [r]
  exact ⟨_, rfl, hq₁.trans hq₂⟩

theorem comparison_emits {opcode : Opcode} (ho : opcode.Compares)
    (hl : Emits env left.emit l calls) (hr : Emits env right.emit r calls')
    {K : String → Operand × Operand → Emit Operand}
    (hK : ∀ {n p c}, c.inference.Good → (∀ op ∈ [p.1, p.2], c.inference.Known op) →
      Quietly c (K n p c) ∧ ∀ v c', K n p c = (some v, c') → v = .block n) :
    Emits env (do
      let id ← place (Block.comparison opcode · .empty .empty)
      let p ← operands id left right
      K id p) (.script [.relation opcode l r]) (calls ++ calls') := by
  refine operator_emits (.comparison ho) (fun _ => Block.valued_of .boolean rfl (by decide))
    (pair_fills hl hr) rfl (Shape.pair_slotsAt _ _ _ _ (by decide)) ?_
  intro n p c hg hk
  obtain ⟨hq, hv⟩ := hK (n := n) (p := p) hg hk
  exact ⟨hq, fun v c' h => ⟨hv v c' h, fun _ _ hb _ => ho.wellTyped hb⟩⟩

theorem strict_emits {opcode : Opcode} (ho : opcode.Compares) (hl : Emits env left.emit l calls)
    (hr : Emits env right.emit r calls') :
    Emits env (strict (Block.comparison opcode) left right) (.script [.relation opcode l r])
      (calls ++ calls') :=
  comparison_emits (K := fun id p => do hintType .number [p.1, p.2]; pure (.block id)) ho hl hr
    fun hg _ => hintType_quietly hg (by decide) ..

theorem equality_emits (hl : Emits env left.emit l calls)
    (hr : Emits env right.emit r calls') :
    Emits env (equality left right) (.script [.relation .equals l r]) (calls ++ calls') := by
  refine comparison_emits (K := fun id p => do hintEqual p.1 p.2; pure (.block id)) .equals hl hr ?_
  intro n p c hg hk
  obtain ⟨c', h', hq⟩ := hintEqual_quietly hg hk
  rw [bind_of_eq h']
  refine ⟨hq.trans (.pure hq.good (Operand.block n)), ?_⟩
  rintro v _ ⟨⟩
  rfl

end

section

variable {part : Part} {content : Content}

theorem negation_emits (h : Emits env part.emit content calls) (opSpan : Span) :
    Emits env (negation opSpan part) (.script [.negation content]) calls := by
  refine operator_emits
    (K := fun id v => do
      expectType .boolean [v] opSpan
      pure (.block id))
    .negation (fun _ => Block.valued_of .boolean rfl (by decide)) (h.operand part.span) rfl
    (fun {look S n vs} hv => ?_) ?_
  · obtain ⟨v, _, hc, hv', rfl⟩ := List.forall₂_cons_right_iff.1 hv
    rw [List.forall₂_nil_right_iff.1 hv', Block.fillAll_one]
    exact ⟨rfl, hc, trivial⟩
  · intro n v c hg hk
    obtain ⟨hq, hv⟩ := expectType_then hg (by decide : ValueType.boolean.IsValue)
      [v] opSpan (.block n)
    refine ⟨hq, fun w c' h => ?_⟩
    obtain ⟨rfl, hhas⟩ := hv w c' h
    refine ⟨rfl, fun hs b ho hb => ?_⟩
    obtain ⟨hkv, hv⟩ := hhas v (by simp) (hk v (by simp))
    rw [Block.fillAll_one] at hb
    simp only [Block.WellTyped, ho]
    exact Block.slotHas_of_mem (by rw [hb]; exact List.mem_singleton.2 rfl)
      (by decide) (hv.slotValue hs hkv)

theorem join_slots (n symbol : String) (v : Operand) :
    ((Block.join n (.payload (.text symbol)) .empty).fillAll ["STRING2"] [v]).slots =
      [("STRING1", .payload (.text symbol)), ("STRING2", v.slotValue)] := by
  rw [Block.fillAll_one]
  simp [Block.slots, Block.join,
    Block.pair_entries n .join .string .text (by decide : "STRING1" ≠ "STRING2")]

theorem has_retype {c : Compilation} {v : Operand} (h : c.inference.Has v type) (n : String) :
    (c.setTarget (c.target.modifyBlock n ({ · with inferred := type }))).inference.Has v type := by
  rw [inference_setTarget]
  rcases v with value | ref | id | ⟨f, result⟩
  · exact h
  · exact h
  · obtain ⟨b, hb, hi⟩ := h
    by_cases hid : n = id
    · subst hid
      exact ⟨_, Target.block?_modifyBlock_self _ _ hb, rfl⟩
    · exact ⟨b, (Target.block?_modifyBlock_of_ne _ _ hid).trans hb, hi⟩
  · exact h

/-- A sign gives a number once its operand is known to be one. -/
theorem sign_emits (h : Emits env part.emit content calls) (symbol : String) :
    Emits env (sign symbol part) (.script [.sign symbol content]) calls := by
  intro c σ A k F pre s a slot rest hg hs hA hfree
  let K : String → Operand → Emit Operand := fun id v => do
    expectType .number [v] part.span
    modifyTarget (·.modifyBlock id ({ · with inferred := .number }))
    pure (.block id)
  obtain ⟨cs, k', c', hruns, hcalm, ⟨hloud, he⟩ | ⟨n, v, he, hop, -⟩⟩ :=
    operator_core (K := K) (Shape.join symbol) (fun _ => Block.valued_of .string rfl (by decide))
      (h.operand part.span) rfl hg hs hA hfree
  · have he' : sign symbol part c = (none, c') := he
    rw [he']
    exact ⟨cs, k', hruns, hcalm, fun _ => hloud, by simp⟩
  · have he' : sign symbol part c = K n v c' := he
    rw [he']
    obtain ⟨hq, hhas⟩ := Quietly.expectType hruns.good (by decide : ValueType.number.IsValue) [v]
      part.span
    cases hc : expectType .number [v] part.span c' with
    | mk r c₁ =>
      rw [hc] at hq
      have hop₁ := hop.quiet hq
      cases r with
      | none =>
        have hK : K n v c' = (none, c₁) := by simp only [K, bind_apply, hc]
        rw [hK]
        exact ⟨cs, k', hop₁.runs, hop₁.calm, fun _ => hq.loud rfl, by simp⟩
      | some u =>
        have hK : K n v c' = (some (.block n),
            c₁.setTarget (c₁.target.modifyBlock n ({ · with inferred := .number }))) := by
          simp only [K, bind_apply, hc]
          rfl
        rw [hK]
        have hop₂ := hop₁.retype rfl (by decide : ValueType.number ≠ .unresolved) (by decide)
        refine ⟨cs, k', hop₂.runs, hop₂.calm, by simp, ?_⟩
        rintro w ⟨⟩
        refine ⟨hop₂.anchor, hop₂.result (Shape.join symbol) (fun {look S n vs} hv => ?_)
          fun hsane b ho hb => ?_⟩
        · obtain ⟨v, _, hc, hv', rfl⟩ := List.forall₂_cons_right_iff.1 hv
          rw [List.forall₂_nil_right_iff.1 hv', join_slots]
          exact ⟨rfl, rfl, rfl, hc, trivial⟩
        · rw [join_slots] at hb
          simp only [Block.WellTyped, ho]
          have hv := hhas c₁ hc v (by simp) (hop.yields.known v (by simp))
          exact Block.slotHas_of_mem (by rw [hb]; simp) (by decide)
            ((has_retype hv n).slotValue hsane (hop₂.yields.known v (by simp)))

end

end Emit
end ScriptBlocks
