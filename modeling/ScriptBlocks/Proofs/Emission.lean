import Mathlib.Data.List.Forall2
import ScriptBlocks.Proofs.Steps
import ScriptBlocks.Proofs.Translation

/-!
# What an operand leaves behind

Compiling the operands of an operator fills its slots, splices calls in before the current
statement and adds blocks below the operator. `Yields` says that what is there afterwards reads as
the translation, and `Fills` is the specification of the steps that do it.
-/
namespace ScriptBlocks

variable {P : String → Prop} {ids : List String} {ops : List Operand}

namespace Env

/-- What is read of a block. The shape of a reporter is taken from the environment, since the
type of its argument may still be unresolved. -/
def view (env : Env) (b : Block) : View where
  opcode :=
    match b.argument with
    | some a => Block.reporterOpcode ((env.argumentType a).getD .unresolved)
    | none => b.opcode
  fields := b.fields.entries
  mutation := b.mutation
  slots := b.inputs.entries.map fun e => (e.1, e.2.value)
  next := b.next

def look (env : Env) (t : Target) : String → Option View :=
  fun x => (t.block? x).map env.view

variable {env : Env} {O C T : Prop} {b b' : Block}

theorem view_opcode (h : b'.face = b.face) : (env.view b').opcode = (env.view b).opcode := by
  have ha : b'.argument = b.argument := (congrArg Block.argument h :)
  simp only [view, ha]
  cases hb : b.argument with
  | some a => rfl
  | none =>
    have ho := congrArg Block.opcode h
    simpa [Block.face, ha, hb] using ho

theorem view_sameBlock (h : Block.Kept O C T b b') (hO : ¬ O) :
    (env.view b).SameBlock (env.view b') := by
  refine ⟨view_opcode h.face, ?_, ?_, ?_⟩
  · exact congrArg Table.entries (congrArg Block.fields h.face :)
  · exact (congrArg Block.mutation h.face :)
  · simp only [view, h.inputs hO]

theorem view_congr (hface : b'.face = b.face) (hin : b'.inputs = b.inputs)
    (hnext : b'.next = b.next) : env.view b' = env.view b := by
  have ho : (env.view b').opcode = (env.view b).opcode := view_opcode hface
  have hf : b'.fields = b.fields := (congrArg Block.fields hface :)
  have hm : b'.mutation = b.mutation := (congrArg Block.mutation hface :)
  simp only [view] at ho ⊢
  rw [ho, hf, hm, hin, hnext]

theorem view_eq (h : Block.Kept O C T b b') (hO : ¬ O) (hC : ¬ C) : env.view b' = env.view b :=
  view_congr h.face (h.inputs hO) (h.next hC)

/-- The environment gives the names that are known their meaning. -/
structure Covers (env : Env) (i : Inference) : Prop where
  vars : ∀ {x v}, i.target.builtVariable? x = some v →
    env.argumentType x = none ∧ env.variableRef x = some v.ref
  arguments : ∀ {s x}, i.function = some s → x ∈ s.arguments.keys → (env.argumentType x).isSome
  procedures : ∀ {f p}, i.target.functionNamed? f = some p → env.procedure f = some p
  result : ∀ {s ref}, i.function = some s → s.returnVariable = some ref → env.result = some ref

theorem Covers.congr {i i' : Inference} (h : env.Covers i)
    (htables : i'.target.tables = i.target.tables) (hf : i'.function = i.function) :
    env.Covers i' where
  vars {x v} hx := by
    have hvars : i'.target.vars = i.target.vars := (congrArg Target.vars htables :)
    refine h.vars ?_
    simp only [Target.builtVariable?, Target.variableNamed?, hvars] at hx ⊢
    exact hx
  arguments hs hx := h.arguments (hf ▸ hs) hx
  procedures {f p} hp := by
    have hfunctions : i'.target.functions = i.target.functions :=
      (congrArg Target.functions htables :)
    refine h.procedures ?_
    simp only [Target.functionNamed?, hfunctions] at hp ⊢
    exact hp
  result hs := h.result (hf ▸ hs)

end Env

namespace Compilation

variable {c c' c'' : Compilation}

theorem Calm.vars_eq (h : Calm c c') : c'.target.vars = c.target.vars :=
  (congrArg Target.vars h.tables :)

theorem Calm.functions_eq (h : Calm c c') : c'.target.functions = c.target.functions :=
  (congrArg Target.functions h.tables :)

theorem Calm.covers (h : Calm c c') {env : Env} (hc : env.Covers c.inference) :
    env.Covers c'.inference where
  vars {x v} hx := by
    refine hc.vars ?_
    simp only [inference_target, Target.builtVariable?, Target.variableNamed?, h.vars_eq] at hx ⊢
    exact hx
  arguments {s' x} hs hx := by
    obtain ⟨s, hs₀, hf⟩ := h.function.exists_of_some hs
    exact hc.arguments hs₀ (hf.1.keys ▸ hx)
  procedures {f p} hf := by
    refine hc.procedures ?_
    simp only [inference_target, Target.functionNamed?, h.functions_eq] at hf ⊢
    exact hf
  result {s' ref} hs hr := by
    obtain ⟨s, hs₀, hf⟩ := h.function.exists_of_some hs
    exact hc.result hs₀ (hf.2.2 ▸ hr)

theorem Calm.sane (h : Calm c c') (hs : c.target.Sane) : c'.target.Sane where
  results {f p} hf hv := by
    simp only [Target.functionNamed?, Target.variableNamed?, h.functions_eq, h.vars_eq] at hf ⊢
    exact hs.results hf hv
  returns {f p} hf := by
    simp only [Target.functionNamed?, h.functions_eq] at hf
    exact hs.returns hf

/-- Blocks that have come since `c` and stand in no chain of statements. -/
def Inner (c : Compilation) (ids : List String) (x : String) : Prop :=
  c.target.block? x = none ∧ x ∉ ids

/-- The blocks that have come since `c` are well typed, apart from those in `P`. -/
def Typed (P : String → Prop) (c c' : Compilation) : Prop :=
  c.target.Sane → ∀ x b, c'.target.block? x = some b → c.target.block? x = none → ¬ P x →
    b.WellTyped c'.target

/-- Operands that read as contents, and calls before them that read as trees. -/
structure Yields (env : Env) (contents : List Content) (calls : List Tree) (ids cs : List String)
    (operands : List Operand) (c c' : Compilation) : Prop where
  known : ∀ op ∈ operands, c'.inference.Known op
  values : env.Covers c.inference → List.Forall₂
    (fun (op : Operand) content => content.At (env.look c'.target) (Inner c ids) op.slotValue)
    operands contents
  calls : env.Covers c.inference → List.Forall₂
    (fun x tree => c.target.block? x = none ∧ tree.At (env.look c'.target) (Inner c ids) x) cs calls

section

variable {O C : String → Prop}

theorem known_later (h : Calm c c') (ha : Inference.Advance O C c.inference c'.inference)
    {op : Operand} (hk : c.inference.Known op) : c'.inference.Known op := by
  rcases op with value | ref | id | ⟨f, result⟩
  · trivial
  · obtain ⟨v, hv, hr⟩ := hk
    refine ⟨v, ?_, hr⟩
    simp only [inference_target, Target.builtVariable?, Target.variableNamed?, h.vars_eq] at hv ⊢
    exact hv
  · obtain ⟨b, hb, hm, hi⟩ := hk
    obtain ⟨b', hb', hkept⟩ := ha.old hb
    exact ⟨b', hb', fun a hba => h.tracks (hm a (hkept.argument ▸ hba)), fun hba =>
      hkept.valued (hi (hkept.argument ▸ hba))⟩
  · obtain ⟨p, hp, hr⟩ := hk
    refine ⟨p, ?_, hr⟩
    simp only [inference_target, Target.functionNamed?, h.functions_eq] at hp ⊢
    exact hp

/-- A well-typed block stays so while its slots do not change. -/
theorem wellTyped_later {x : String} {b b' : Block} (hgood : c'.inference.Good)
    (ha : Inference.Advance O C c.inference c'.inference) (hgrows : c.target.Grows c'.target)
    (htracks : ∀ {a x}, c.inference.Tracks a x → c'.inference.Tracks a x)
    (hx : c.target.block? x = some b) (hx' : c'.target.block? x = some b') (hO : ¬ O x)
    (hw : b.WellTyped c.target) : b'.WellTyped c'.target := by
  obtain ⟨b'', hb'', hk⟩ := ha.old hx
  obtain rfl := Option.mem_unique hx' hb''
  refine hw.mono hk.face (hk.inputs hO) ?_ hgrows fun y by₁ _ hy hi => ?_
  · by_cases ht : c.inference.Tracked x
    · obtain ⟨a, ht⟩ := ht
      obtain ⟨s, p, hs, hp, hmem⟩ := htracks ht
      obtain ⟨b₁, hb₁, -, -, ho⟩ := hgood.tracked hs hp hmem
      obtain rfl := Option.mem_unique hx' hb₁
      exact .inr ⟨p.type, ho⟩
    · exact .inl (hk.opcode ht)
  · obtain ⟨by₂, hy₂, hk₂⟩ := ha.old hy
    exact ⟨by₂, hy₂, hk₂.inferred hi⟩

/-- Well-typed blocks stay so while their slots do not change. -/
theorem Typed.trans {Q R : String → Prop} (h : Typed P c c') (h' : Typed Q c' c'')
    (hcalm : Calm c c') (hcalm' : Calm c' c'') (hgood : c''.inference.Good)
    (ha : Inference.Advance O C c'.inference c''.inference) (hP : ∀ x, P x → R x)
    (hQ : ∀ x, Q x → R x) (hO : ∀ x, O x → c.target.block? x = none → R x) : Typed R c c'' := by
  intro hs x b hb hx hR
  cases hx' : c'.target.block? x with
  | none => exact h' (hcalm.sane hs) x b hb hx' fun hq => hR (hQ x hq)
  | some b' =>
    exact wellTyped_later hgood ha (.of_tables hcalm'.tables) hcalm'.tracks hx' hb
      (fun ho => hR (hO x ho hx)) (h hs x b' hx' hx fun hp => hR (hP x hp))

theorem Typed.of_old (h : ∀ x b, c'.target.block? x = some b → c.target.block? x ≠ none) :
    Typed P c c' :=
  fun _ x b hb hx => absurd hx (h x b hb)

theorem Typed.mono {Q : String → Prop} (h : Typed P c c') (hPQ : ∀ x, P x → Q x) : Typed Q c c' :=
  fun hs x b hb hx hQ => h hs x b hb hx fun hP => hQ (hPQ x hP)

theorem Typed.refl (P : String → Prop) (c : Compilation) : Typed P c c :=
  .of_old fun x b hb => by simp [hb]

/-- Opening or closing a scope. -/
theorem rescope (c : Compilation) {t : Target} (hb : t.blocks = c.target.blocks)
    (ht : t.tables = c.target.tables) :
    Calm c (c.setTarget t) ∧ ∀ P, Typed P c (c.setTarget t) := by
  have hold : ∀ x b, t.block? x = some b → c.target.block? x ≠ none := by
    intro x b hx
    rw [Target.block?, hb] at hx
    simp [show c.target.block? x = some b from hx]
  exact ⟨.setTarget ht fun x b hx hn => absurd hn (hold x b hx),
    fun P => .of_old fun x b hx => hold x b (by rwa [target_setTarget] at hx)⟩

theorem block?_none_of_later (ha : Inference.Advance O C c.inference c'.inference) {x : String}
    (hx : c'.target.block? x = none) : c.target.block? x = none := by
  cases hb : c.target.block? x with
  | none => rfl
  | some b =>
    obtain ⟨b', hb', -⟩ := ha.old hb
    simp [show c'.target.block? x = some b' from hb'] at hx

/-- What has come since a later state has come since an earlier one. -/
theorem Yields.since {env : Env} {contents : List Content} {calls : List Tree} {cs : List String}
    (h : Yields env contents calls ids cs ops c' c'') (hcalm : Calm c c')
    (ha : Inference.Advance O C c.inference c'.inference) :
    Yields env contents calls ids cs ops c c'' := by
  have hS : ∀ y v, Inner c' ids y → env.look c''.target y = some v →
      Inner c ids y ∧ env.look c''.target y = some v :=
    fun y v hy hv => ⟨⟨block?_none_of_later ha hy.1, hy.2⟩, hv⟩
  refine ⟨h.known, fun hcov => ?_, fun hcov => ?_⟩
  · exact (h.values (hcalm.covers hcov)).imp fun op content hat => hat.mono hS _ _
  · refine (h.calls (hcalm.covers hcov)).imp ?_
    rintro x tree ⟨hnew, hat⟩
    exact ⟨block?_none_of_later ha hnew, hat.mono hS (fun v hv => ⟨v, hv, .rfl⟩) tree⟩

/-- Reading goes on to work while nothing below the operands changes. -/
theorem Yields.advance {env : Env} {contents : List Content} {calls : List Tree}
    {ids' cs : List String} (h : Yields env contents calls ids cs ops c c')
    (ha : Inference.Advance O C c'.inference c''.inference) (hcalm : Calm c' c'')
    (hO : ∀ x, O x → (c.target.block? x).isSome)
    (hC : ∀ x, C x → (c.target.block? x).isSome ∨ x ∈ ids)
    (hids : ∀ x ∈ ids', (c.target.block? x).isSome ∨ x ∈ ids ∨ c'.target.block? x = none) :
    Yields env contents calls ids' cs ops c c'' := by
  have hold : ∀ {y}, c.target.block? y = none → ¬ (c.target.block? y).isSome := by
    intro y hy
    simp [hy]
  -- new blocks outside the chain keep their whole view
  have hS : ∀ y v, Inner c ids y → env.look c'.target y = some v →
      Inner c ids' y ∧ env.look c''.target y = some v := by
    rintro y v ⟨hnew, hout⟩ hv
    simp only [Env.look, Option.map_eq_some_iff] at hv
    obtain ⟨b, hb, rfl⟩ := hv
    obtain ⟨b', hb', hk⟩ := ha.old hb
    refine ⟨⟨hnew, fun hm => ?_⟩, ?_⟩
    · obtain hsome | hm | hn := hids y hm
      · exact hold hnew hsome
      · exact hout hm
      · simp [hb] at hn
    · simp only [Env.look, Option.map_eq_some_iff]
      exact ⟨b', hb', Env.view_eq hk (fun ho => hold hnew (hO y ho)) fun hc =>
        (hC y hc).elim (hold hnew) hout⟩
  refine ⟨fun op hop => known_later hcalm ha (h.known op hop), fun hcov => ?_, fun hcov => ?_⟩
  · exact (h.values hcov).imp fun op content hat => hat.mono hS _ _
  · refine (h.calls hcov).imp ?_
    rintro x tree ⟨hnew, hat⟩
    refine ⟨hnew, hat.mono hS (fun v hv => ?_) tree⟩
    simp only [Env.look, Option.map_eq_some_iff] at hv
    obtain ⟨b, hb, rfl⟩ := hv
    obtain ⟨b', hb', hk⟩ := ha.old hb
    refine ⟨env.view b', by simp [Env.look, show c''.target.block? x = some b' from hb'], ?_⟩
    exact Env.view_sameBlock hk fun ho => hold hnew (hO x ho)

/-- Reading goes on to work when the script grows elsewhere. -/
theorem Yields.later {env : Env} {contents : List Content} {calls : List Tree} {σ : Script}
    {ids' cs : List String} {inputs : List (String × Nat)}
    (h : Yields env contents calls ids cs ops c c') (hr : Runs σ ids ids' inputs O c' c'')
    (hcalm : Calm c' c'') (hbase : ∀ x ∈ σ.base, (c.target.block? x).isSome)
    (hO : ∀ x, O x → (c.target.block? x).isSome) : Yields env contents calls ids' cs ops c c'' := by
  refine h.advance hr.advance hcalm hO (fun x hx => ?_) fun x hx => .inr (hr.new_ids x hx)
  rcases List.mem_append.1 hx with hx | hx
  · exact .inl (hbase x (by simpa using hx))
  · exact .inr hx

/-- Settling types changes nothing that is read. -/
theorem Yields.quiet {env : Env} {contents : List Content} {calls : List Tree} {cs : List String}
    {α : Type} {r : Option α × Compilation} (h : Yields env contents calls ids cs ops c c')
    (hq : Quietly c' r) : Yields env contents calls ids cs ops c r.2 :=
  h.advance (hq.quiet.advance (O := fun _ => False) (C := fun _ => False)) hq.calm
    (fun _ => False.elim) (fun _ => False.elim) fun _ hx => .inr (.inl hx)

theorem Typed.quiet {α : Type} {r : Option α × Compilation} (h : Typed P c c') (hcalm : Calm c c')
    (hq : Quietly c' r) : Typed P c r.2 := by
  refine h.trans (Q := fun _ => False) (.of_old fun x b hx hxn => ?_) hcalm hq.calm hq.good
    (hq.quiet.advance (O := fun _ => False) (C := fun _ => False)) (fun _ => id)
    (fun _ => False.elim) fun _ => False.elim
  simp [show r.2.target.block? x = none from hq.quiet.none hxn] at hx

end

end Compilation

namespace Block

/-- Operands go into slots, one after the other. -/
def fillAll (b : Block) (names : List String) (ops : List Operand) : Block :=
  (names.zip ops).foldl (fun b e => b.fill e.1 e.2.slotValue) b

theorem fillAll_append {names names' : List String} {ops' : List Operand} (b : Block)
    (h : names.length = ops.length) :
    b.fillAll (names ++ names') (ops ++ ops') = (b.fillAll names ops).fillAll names' ops' := by
  rw [fillAll, List.zip_append h, List.foldl_append]
  rfl

theorem fillAll_inputs_congr {b b' : Block} (h : b'.inputs = b.inputs) (names : List String)
    (ops : List Operand) : (b'.fillAll names ops).inputs = (b.fillAll names ops).inputs := by
  simp only [fillAll]
  generalize names.zip ops = es
  induction es generalizing b b' with
  | nil => exact h
  | cons e es ih =>
    refine ih ?_
    simp only [fill, h]

end Block

namespace Emit

open Compilation

variable {α β γ : Type} {env : Env} {contents contents' : List Content} {calls calls' : List Tree}
variable {content : Content}

/-- A step that compiles operands into the next free slots of an operator: it fills them with what
reads as `contents` and splices in what reads as `calls`, or it reports an error. -/
def Fills (env : Env) (m : Emit α) (ops : α → List Operand) (contents : List Content)
    (calls : List Tree) : Prop :=
  ∀ ⦃c : Compilation⦄ ⦃σ : Script⦄ ⦃A : String⦄ ⦃k : Nat⦄ ⦃F : List (String × Nat)⦄
    ⦃pre : List String⦄ ⦃s : String⦄ ⦃a : Block⦄ ⦃names rest : List String⦄,
    c.inference.Good → Sited c.target σ ((A, k) :: F) (pre ++ [s]) →
    c.target.block? A = some a → a.free k = names ++ rest → names.length = contents.length →
    ∃ cs k', Runs σ (pre ++ [s]) (pre ++ cs ++ [s]) ((A, k') :: F) (· = A) c (m c).2 ∧
      Calm c (m c).2 ∧ ((m c).1 = none → (m c).2.project.success = false) ∧
      ∀ r, (m c).1 = some r → (ops r).length = contents.length ∧
        (∃ a', (m c).2.target.block? A = some a' ∧
          a'.inputs = (a.fillAll names (ops r)).inputs ∧ a'.free k' = rest) ∧
        Yields env contents calls (pre ++ cs ++ [s]) cs (ops r) c (m c).2 ∧
        Typed (fun _ => False) c (m c).2

/-- The outcome of compiling an expression for the next free slot of an operator. A block has been
placed there already; the slot is still free when the result is another value. -/
abbrev Emitted (env : Env) (content : Content) (calls : List Tree) (σ : Script) (A : String)
    (k : Nat) (F : List (String × Nat)) (pre : List String) (s : String) (a : Block) (slot : String)
    (rest : List String) (c : Compilation) (r : Option Operand × Compilation) : Prop :=
  ∃ cs k', Runs σ (pre ++ [s]) (pre ++ cs ++ [s]) ((A, k') :: F) (· = A) c r.2 ∧
    Calm c r.2 ∧ (r.1 = none → r.2.project.success = false) ∧
    ∀ v, r.1 = some v →
      (∃ a', r.2.target.block? A = some a' ∧
        match v with
        | .block n => a'.inputs = (a.fill slot (.block n)).inputs ∧ a'.free k' = rest
        | _ => a'.inputs = a.inputs ∧ k' = k) ∧
      Yields env [content] calls (pre ++ cs ++ [s]) cs [v] c r.2 ∧
      Typed (fun _ => False) c r.2

/-- A step that compiles an expression wherever there is a free slot for it. -/
def Emits (env : Env) (m : Emit Operand) (content : Content) (calls : List Tree) : Prop :=
  ∀ ⦃c : Compilation⦄ ⦃σ : Script⦄ ⦃A : String⦄ ⦃k : Nat⦄ ⦃F : List (String × Nat)⦄
    ⦃pre : List String⦄ ⦃s : String⦄ ⦃a : Block⦄ ⦃slot : String⦄ ⦃rest : List String⦄,
    c.inference.Good → Sited c.target σ ((A, k) :: F) (pre ++ [s]) →
    c.target.block? A = some a → a.free k = slot :: rest →
    Emitted env content calls σ A k F pre s a slot rest c (m c)

theorem Fills.nil (env : Env) : Fills env (pure [] : Emit (List Operand)) id [] [] := by
  intro c σ A k F pre s a names rest hg hs hA hfree hlen
  obtain rfl : names = [] := List.length_eq_zero_iff.1 hlen
  have hq : Quietly c ((pure [] : Emit (List Operand)) c) := .pure hg []
  refine ⟨[], k, by simpa using hq.runs hs, hq.calm, hq.loud, ?_⟩
  rintro r ⟨⟩
  exact ⟨rfl, ⟨a, hA, rfl, hfree⟩, ⟨by simp, fun _ => .nil, fun _ => .nil⟩, .refl _ c⟩

/-- Operands one after the other. -/
theorem Fills.append {m : Emit α} {m' : Emit β} {ops : α → List Operand}
    {ops' : β → List Operand} {ops'' : γ → List Operand} {pair : α → β → γ}
    (h : Fills env m ops contents calls) (h' : Fills env m' ops' contents' calls')
    (hpair : ∀ x y, ops'' (pair x y) = ops x ++ ops' y) :
    Fills env (do let x ← m; let y ← m'; pure (pair x y)) ops'' (contents ++ contents')
      (calls ++ calls') := by
  intro c σ A k F pre s a names rest hg hs hA hfree hlen
  rw [List.length_append] at hlen
  obtain ⟨first, second, rfl, hfirst⟩ : ∃ first second, names = first ++ second ∧
      first.length = contents.length :=
    ⟨names.take contents.length, names.drop contents.length, (List.take_append_drop ..).symm, by
      simp; omega⟩
  have hsecond : second.length = contents'.length := by
    rw [List.length_append] at hlen
    omega
  rw [List.append_assoc] at hfree
  obtain ⟨cs, k₁, hruns, hcalm, hloud, hok⟩ := h hg hs hA hfree hfirst
  rw [bind_apply]
  cases hm : m c with
  | mk r c₁ =>
    rw [hm] at hruns hcalm hloud hok
    cases r with
    | none => exact ⟨cs, k₁, hruns, hcalm, fun _ => hloud rfl, by simp⟩
    | some x =>
      obtain ⟨hlen₁, ⟨a₁, ha₁, hin₁, hfree₁⟩, hy₁, ht₁⟩ := hok x rfl
      obtain ⟨cs', k₂, hruns', hcalm', hloud', hok'⟩ :=
        h' hruns.good hruns.sited ha₁ hfree₁ hsecond
      simp only [bind_apply]
      have hassoc : pre ++ cs ++ cs' ++ [s] = pre ++ (cs ++ cs') ++ [s] := by simp
      have hall : Runs σ (pre ++ [s]) (pre ++ (cs ++ cs') ++ [s]) ((A, k₂) :: F) (· = A) c
          (m' c₁).2 := by
        rw [← hassoc]
        exact hruns.trans hruns' fun x b _ hx => hx.elim id id
      have hcalms := hcalm.trans hcalm' hruns'.advance
      cases hm' : m' c₁ with
      | mk r' c₂ =>
        rw [hm'] at hruns' hcalm' hloud' hok' hall hcalms
        cases r' with
        | none => exact ⟨cs ++ cs', k₂, hall, hcalms, fun _ => hloud' rfl, by simp⟩
        | some y =>
          obtain ⟨hlen₂, ⟨a₂, ha₂, hin₂, hfree₂⟩, hy₂, ht₂⟩ := hok' y rfl
          refine ⟨cs ++ cs', k₂, hall, hcalms, by simp [pure_apply], ?_⟩
          rintro r ⟨⟩
          have hAold : ∀ x, x = A → (c.target.block? x).isSome := by
            rintro x rfl
            simp [hA]
          have hy₁' := hy₁.later hruns' hcalm' hs.base_isSome hAold
          rw [hpair, ← hassoc]
          have hy₂' := hy₂.since hcalm hruns.advance
          refine ⟨by simp [hlen₁, hlen₂], ⟨a₂, ha₂, ?_, hfree₂⟩, ⟨?_, ?_, ?_⟩, ?_⟩
          · rw [hin₂, Block.fillAll_append a (hfirst.trans hlen₁.symm),
              Block.fillAll_inputs_congr hin₁]
          · intro op hop
            rcases List.mem_append.1 hop with hop | hop
            · exact hy₁'.known op hop
            · exact hy₂.known op hop
          · intro hcov
            exact List.rel_append (hy₁'.values hcov) (hy₂'.values hcov)
          · intro hcov
            exact List.rel_append (hy₁'.calls hcov) (hy₂'.calls hcov)
          · refine ht₁.trans ht₂ hcalm hcalm' hruns'.good hruns'.advance (fun _ => id) (fun _ => id) ?_
            rintro x rfl hx
            simp [hA] at hx

/-- An expression in a slot: a value that is no block is written there afterwards. -/
theorem Emits.operand {m : Emit Operand} (h : Emits env m content calls) (span : Span) :
    Fills env (Emit.operand span m) (fun v => [v]) [content] calls := by
  intro c σ A k F pre s a names rest hg hs hA hfree hlen
  obtain ⟨slot, rfl⟩ := List.length_eq_one_iff.1 hlen
  obtain ⟨cs, k₁, hruns, hcalm, hloud, hok⟩ := h hg hs hA hfree
  have hAold : ∀ x, x = A → (c.target.block? x).isSome := by
    rintro x rfl
    simp [hA]
  cases hm : m c with
  | mk r c₁ =>
    rw [hm] at hruns hcalm hloud hok
    cases r with
    | none =>
      have hfail : ∃ c₂, Emit.operand span m c = (none, c₂) ∧
          Quietly c₁ ((none, c₂) : Option Operand × Compilation) := by
        simp only [Emit.operand, hm]
        split
        next =>
          exact ⟨_, rfl, .refl _, hruns.good, .report c₁ _ _, fun _ => success_report rfl c₁ _⟩
        next => exact ⟨_, rfl, .refl _, hruns.good, .refl c₁, hloud⟩
      obtain ⟨c₂, he, hq⟩ := hfail
      rw [he]
      refine ⟨cs, k₁, hruns.trans (hq.runs hruns.sited) fun x b _ hx => hx.elim id id,
        hcalm.trans hq.calm (hq.quiet.advance (O := fun _ => False) (C := fun _ => False)), hq.loud,
        by simp⟩
    | some v =>
      obtain ⟨⟨a₁, ha₁, hin₁⟩, hy, ht⟩ := hok v rfl
      have he : Emit.operand span m c = (some v, c₁.setTarget (c₁.target.assign v)) := by
        simp only [Emit.operand, hm]
      rw [he]
      by_cases hv : ∃ n, v = .block n
      · obtain ⟨n, rfl⟩ := hv
        have hsame : c₁.setTarget (c₁.target.assign (.block n)) = c₁ := c₁.setTarget_target
        rw [hsame]
        refine ⟨cs, k₁, hruns, hcalm, by simp, ?_⟩
        rintro r ⟨⟩
        exact ⟨rfl, ⟨a₁, ha₁, hin₁.1, hin₁.2⟩, hy, ht⟩
      · obtain ⟨hin, rfl⟩ : a₁.inputs = a.inputs ∧ k₁ = k := by
          rcases v with value | ref | n | ⟨f, result⟩
          · exact hin₁
          · exact hin₁
          · exact absurd ⟨n, rfl⟩ hv
          · exact hin₁
        have hfree₁ : a₁.free k₁ = slot :: rest := by
          rw [Block.free_eq_of_inputs hin]
          exact hfree
        obtain ⟨k₂, hs₂, hr₂, hnone, a₂, ha₂, hin₂, hfree₂⟩ :=
          hruns.sited.assign ha₁ hfree₁ fun n hn => hv ⟨n, hn⟩
        have hruns₂ : Runs σ (pre ++ cs ++ [s]) (pre ++ cs ++ [s]) ((A, k₂) :: F) (· = A) c₁
            (c₁.setTarget (c₁.target.assign v)) :=
          .ofRewired hruns.good hr₂ hs₂ (fun _ _ _ => False.elim) fun _ => .inl
        have hnew : ∀ x b, (c₁.target.assign v).block? x = some b → c₁.target.block? x ≠ none := by
          intro x b hb hx
          simp [hnone x hx] at hb
        have hcalm₂ : Calm c₁ (c₁.setTarget (c₁.target.assign v)) :=
          .setTarget hr₂.tables fun x b hb hx => absurd hx (hnew x b hb)
        refine ⟨cs, k₂, hruns.trans hruns₂ fun x b _ hx => hx.elim id id,
          hcalm.trans hcalm₂ hruns₂.advance, by simp, ?_⟩
        rintro r ⟨⟩
        refine ⟨rfl, ⟨a₂, by rw [target_setTarget]; exact ha₂, ?_, hfree₂⟩,
          hy.later hruns₂ hcalm₂ hs.base_isSome hAold, ?_⟩
        · rw [hin₂]
          simp only [Block.fillAll, List.zip_cons_cons, List.zip_nil_right, List.foldl_cons,
            List.foldl_nil, Block.fill, hin]
        · refine ht.trans (Q := fun _ => False) ?_ hcalm hcalm₂ hruns₂.good hruns₂.advance
            (fun _ => id) (fun _ => id) ?_
          · intro _ x b hb hx
            rw [target_setTarget] at hb
            exact absurd hx (hnew x b hb)
          · rintro x rfl hx
            simp [hA] at hx

section

variable {c c₁ : Compilation} {σ : Script} {inputs : List (String × Nat)} {pre cs : List String}
variable {s n : String} {start : Nat} {b : Block}

/-- Opening the scope of an operator. -/
theorem open_inputs (hg : c.inference.Good) (hs : Sited c.target σ inputs (pre ++ [s])) :
    Runs σ (pre ++ [s]) (pre ++ [s]) ((n, start) :: inputs) (· = n) c
      (c.setTarget (c.target.enter (.inputs n start))) := by
  have hr : Rewired (· = n) (fun _ => False) c.target (c.target.enter (.inputs n start)) :=
    .of_blocks rfl rfl rfl
  exact .ofRewired hg hr (hs.enter_inputs n start) (fun _ _ _ => False.elim) fun _ => .inl

/-- Closing the scope of an operator after steps inside it. -/
theorem close_inputs {k : Nat} (hg : c.inference.Good)
    (hs : Sited c.target σ inputs (pre ++ [s])) (hb : c.target.block? n = some b)
    (hruns : Runs σ (pre ++ [s]) (pre ++ cs ++ [s]) ((n, k) :: inputs) (· = n)
      (c.setTarget (c.target.enter (.inputs n start))) c₁)
    (hcalm : Calm (c.setTarget (c.target.enter (.inputs n start))) c₁) :
    Runs σ (pre ++ [s]) (pre ++ cs ++ [s]) inputs (· = n) c (c₁.setTarget c₁.target.exit.2) ∧
      Calm c (c₁.setTarget c₁.target.exit.2) ∧ SameRest c₁ (c₁.setTarget c₁.target.exit.2) ∧
      (∀ {contents calls ops}, Yields env contents calls (pre ++ cs ++ [s]) cs ops
          (c.setTarget (c.target.enter (.inputs n start))) c₁ →
        Yields env contents calls (pre ++ cs ++ [s]) cs ops c (c₁.setTarget c₁.target.exit.2)) ∧
      ∀ {P}, Typed P (c.setTarget (c.target.enter (.inputs n start))) c₁ →
        Typed P c (c₁.setTarget c₁.target.exit.2) := by
  have hruns₀ : Runs σ (pre ++ [s]) (pre ++ [s]) ((n, start) :: inputs) (· = n) c _ :=
    open_inputs hg hs
  obtain ⟨hcalm₀, htyped₀⟩ := rescope c (t := c.target.enter (.inputs n start)) rfl rfl
  have hr₁ : Rewired (fun _ => False) (fun _ => False) c₁.target c₁.target.exit.2 :=
    .of_blocks rfl rfl rfl
  have hruns₁ : Runs σ (pre ++ cs ++ [s]) (pre ++ cs ++ [s]) inputs (fun _ => False) c₁
      (c₁.setTarget c₁.target.exit.2) :=
    .ofRewired hruns.good hr₁ hruns.sited.exit_inputs (fun _ _ _ => False.elim) fun _ => .inl
  obtain ⟨hcalm₁, htyped₁⟩ := rescope c₁ (t := c₁.target.exit.2) rfl rfl
  have hcalm₂ := hcalm.trans hcalm₁ hruns₁.advance
  have hruns₂ : Runs σ (pre ++ [s]) (pre ++ cs ++ [s]) inputs (· = n)
      (c.setTarget (c.target.enter (.inputs n start))) (c₁.setTarget c₁.target.exit.2) :=
    hruns.trans hruns₁ fun _ _ _ hx => hx.elim id False.elim
  refine ⟨hruns₀.trans hruns₂ fun _ _ _ hx => hx.elim id id, hcalm₀.trans hcalm₂ hruns₂.advance,
    hcalm₁.rest, fun hy => ?_, fun {P} ht => ?_⟩
  · have hbase := hruns₀.sited.base_isSome
    exact (hy.later hruns₁ hcalm₁ hbase fun _ => False.elim).since hcalm₀ hruns₀.advance
  · have ht₁ := ht.trans (htyped₁ P) hcalm hcalm₁ hruns₁.good hruns₁.advance (fun _ => id)
      (fun _ => id) fun _ => False.elim
    refine (htyped₀ P).trans ht₁ hcalm₀ hcalm₂ hruns₂.good hruns₂.advance (fun _ => id)
      (fun _ => id) ?_
    rintro x rfl hx
    simp [hb] at hx

/-- Operands are compiled inside the scope of their operator. -/
theorem Fills.within {m : Emit α} {ops : α → List Operand} {names rest : List String}
    (h : Fills env m ops contents calls) (hg : c.inference.Good)
    (hs : Sited c.target σ inputs (pre ++ [s])) (hb : c.target.block? n = some b)
    (hfree : b.free start = names ++ rest) (hlen : names.length = contents.length) :
    ∃ cs c' r, Emit.within (.inputs n start) m c = (r, c') ∧
      Runs σ (pre ++ [s]) (pre ++ cs ++ [s]) inputs (· = n) c c' ∧ Calm c c' ∧
      (r = none → c'.project.success = false) ∧
      ∀ x, r = some x → (ops x).length = contents.length ∧
        (∃ b', c'.target.block? n = some b' ∧ b'.inputs = (b.fillAll names (ops x)).inputs) ∧
        Yields env contents calls (pre ++ cs ++ [s]) cs (ops x) c c' ∧
        Typed (fun _ => False) c c' := by
  have hruns₀ : Runs σ (pre ++ [s]) (pre ++ [s]) ((n, start) :: inputs) (· = n) c _ :=
    open_inputs hg hs
  obtain ⟨cs, k, hruns, hcalm, hloud, hok⟩ := h hruns₀.good hruns₀.sited
    (by rw [target_setTarget]; exact hb) hfree hlen
  cases hm : m (c.setTarget (c.target.enter (.inputs n start))) with
  | mk r c₁ =>
    rw [hm] at hruns hcalm hloud hok
    have he : Emit.within (.inputs n start) m c = (r, c₁.setTarget c₁.target.exit.2) := by
      simp only [Emit.within, hm]
    obtain ⟨hruns', hcalm', hrest, hyields, htyped⟩ := close_inputs hg hs hb hruns hcalm
    refine ⟨cs, _, r, he, hruns', hcalm', fun hr => hrest.success_false (hloud hr), ?_⟩
    rintro x rfl
    obtain ⟨hlen', ⟨b', hb', hin, -⟩, hy, ht⟩ := hok x rfl
    exact ⟨hlen', ⟨b', by rw [target_setTarget]; exact hb', hin⟩, hyields hy, htyped ht⟩

end

end Emit
end ScriptBlocks
