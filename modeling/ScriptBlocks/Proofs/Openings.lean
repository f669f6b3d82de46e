import ScriptBlocks.Proofs.Operands

/-!
# What operators and calls write

`Opened` says what has been done when the operands of a block come: the block is written, and the
scope for its slots is open. It also says how compilation ends after operands. An operator places its
block in a slot before, a call is spliced into the script afterwards; in between nothing else is
loose. So a whole expression writes nothing but blocks with a parent and blocks of the script.
-/
namespace ScriptBlocks

variable {inferred : ValueType} {f : String} {β : Type} {l r : Operand}
variable {kind : SlotKind} {first second : String} {p : Procedure}

/-- Blocks with other opcodes refer to a variable or to a function. -/
def Opcode.isPlain : Opcode → Bool
  | .setVariable | .prototype | .call => false
  | _ => true

theorem Opcode.Compares.isPlain {opcode : Opcode} (h : opcode.Compares) : opcode.isPlain = true := by
  cases h <;> rfl

namespace Block.Scripted

variable {t : Target} {b : Block}

/-- A block of a script that neither sets a variable nor calls a function. -/
theorem plain (hp : b.position = none) (ht : b.topLevel = false) (ho : b.opcode.isPlain = true)
    (hb : ∀ e ∈ b.inputs.entries, e.2.Apt t) : b.Scripted t := by
  have hne : ∀ opcode : Opcode, opcode.isPlain = false → b.opcode ≠ opcode :=
    fun opcode h he => by simp [he, h] at ho
  exact ⟨hp, ht, hne _ rfl, hb, fun h => absurd h (hne _ rfl), fun h => absurd h (hne _ rfl)⟩

theorem pair {opcode : Opcode} {v v' : SlotValue} (ho : opcode.isPlain = true)
    (hkind : kind ≠ .substack) (h : first ≠ second) (hv : v.Bound t) (hv' : v'.Bound t)
    (id : String) : (Block.pair id opcode inferred kind first second v v').Scripted t := by
  refine plain rfl rfl ho fun e he => ?_
  rw [pair_entries id opcode inferred kind h] at he
  rcases List.mem_pair.1 he with rfl | rfl
  · exact .of_kind hv hkind
  · exact .of_kind hv' hkind

theorem negation {value : SlotValue} (hv : value.Bound t) (id : String) :
    (Block.negation id value).Scripted t := by
  refine plain rfl rfl rfl fun e he => ?_
  obtain rfl : e = ("OPERAND", ⟨.boolean, value⟩) := List.mem_singleton.1 he
  exact .of_kind hv (by simp)

theorem reporter (id argument : String) (type : ValueType) :
    (Block.reporter id argument type false).Scripted t :=
  plain rfl rfl rfl fun e he => by cases he

theorem setVariable {ref : VariableRef} (href : t.Declares ref) (id : String) :
    (Block.setVariable id ref .empty).Scripted t where
  position := rfl
  topLevel := rfl
  opcode := by simp [Block.setVariable, withSlots]
  apt := by
    intro e he
    obtain rfl : e = ("VALUE", ⟨.text, .empty⟩) := List.mem_singleton.1 he
    exact .of_not_payload (by simp)
  assigns _ := ⟨ref, rfl, href⟩
  calls h := by cases h

theorem callBlock (hp : t.functionNamed? f = some p) (hnodup : p.slotNames.Nodup) (id : String) :
    (p.callBlock id).Scripted t where
  position := rfl
  topLevel := rfl
  opcode := by simp [Procedure.callBlock]
  apt := by
    intro e he
    rw [Procedure.callBlock_entries hnodup] at he
    obtain ⟨a, -, rfl⟩ := List.mem_map.1 he
    exact .of_not_payload (by simp)
  assigns h := by cases h
  calls _ := ⟨f, p, hp, rfl, rfl⟩

end Block.Scripted

namespace Block.Takes

theorem pair (hkind : kind ≠ .substack) (h : first ≠ second) (id : String) (opcode : Opcode)
    (inferred : ValueType) (v v' : SlotValue) (slot : String) :
    (Block.pair id opcode inferred kind first second v v').Takes slot := by
  rw [Takes, slotKinds, pair_entries id opcode inferred kind h]
  simp [hkind.symm]

theorem negation (id : String) (value : SlotValue) (slot : String) :
    (Block.negation id value).Takes slot := by
  have hkinds : (Block.negation id value).slotKinds = [("OPERAND", .boolean)] := rfl
  simp [Takes, hkinds]

theorem setVariable (id : String) (ref : VariableRef) (slot : String) :
    (Block.setVariable id ref .empty).Takes slot := by
  have hkinds : (Block.setVariable id ref .empty).slotKinds = [("VALUE", .text)] := rfl
  simp [Takes, hkinds]

theorem callBlock (hnodup : p.slotNames.Nodup) (id slot : String) :
    (p.callBlock id).Takes slot := by
  rw [Takes, slotKinds, Procedure.callBlock_entries hnodup, List.map_map, List.mem_map]
  rintro ⟨a, -, ha⟩
  have hkind : (if a.type = .boolean then SlotKind.boolean else .text) = .substack :=
    (Prod.mk.inj ha).2
  split at hkind <;> cases hkind

end Block.Takes

namespace Emit

open Compilation

variable {α : Type} {c c' c₀ c₁ c₂ : Compilation} {σ : Script} {A slot s n : String}
variable {k k' i j start : Nat} {F front inputs : List (String × Nat)}
variable {pre cs ids ids' names rest loose : List String} {a b : Block} {values : List Operand}
variable {make : String → Block} {opcode : Opcode} {fields : List (String × Field)}
variable {mutation : Option Mutation} {O L : String → Prop} {frame : Frame α}

/-- Closing scopes changes nothing else. -/
theorem leave_eq (hs : Sited c.target σ (front ++ inputs) ids) :
    ∃ t, leave front.length c = c.setTarget t ∧ t.blocks = c.target.blocks ∧
      t.drawn = c.target.drawn ∧ t.scripts = c.target.scripts ∧ t.tables = c.target.tables ∧
      Sited t σ inputs ids := by
  induction front generalizing c with
  | nil => exact ⟨c.target, (setTarget_target c).symm, rfl, rfl, rfl, rfl, hs⟩
  | cons e front ih =>
    have hs' : Sited (c.setTarget c.target.exit.2).target σ (front ++ inputs) ids := by
      rw [target_setTarget]
      exact hs.exit_inputs
    obtain ⟨t, ht, hb, hd, hscripts, htables, hsited⟩ := ih hs'
    rw [target_setTarget] at hb hd hscripts htables
    refine ⟨t, ?_, hb, hd, hscripts, htables, hsited⟩
    rw [List.length_cons, leave, ht, setTarget_setTarget]

theorem leave_runs (hr : Runs σ ids ids' (front ++ inputs) O c c') :
    Runs σ ids ids' inputs O c (leave front.length c') ∧
      Runs σ ids' ids' inputs (fun _ => False) c' (leave front.length c') ∧
      Calm c' (leave front.length c') ∧ (∀ P, Typed P c' (leave front.length c')) ∧
      c'.target.Enlarged (fun _ => False) (leave front.length c').target := by
  obtain ⟨t, ht, hb, hd, hscripts, htables, hsited⟩ := leave_eq hr.sited
  rw [ht]
  obtain ⟨hcalm, htyped⟩ := rescope c' hb htables
  have hrewired : Rewired (fun _ => False) (fun _ => False) c'.target t := .of_blocks hb hd htables
  have hruns : Runs σ ids' ids' inputs (fun _ => False) c' (c'.setTarget t) :=
    .ofRewired hr.good hrewired hsited (fun _ _ _ => False.elim) fun _ => .inl
  refine ⟨hr.trans hruns fun _ _ _ hx => hx.elim (fun h => h) False.elim, hruns, hcalm, htyped, ?_⟩
  rw [target_setTarget]
  exact .of_blocks hb htables hscripts (Nat.le_of_eq hd.symm)

/-- The operands of the block `n` have been compiled, and the scopes for them are closed. -/
structure Operated (σ : Script) (n : String) (names : List String) (inputs : List (String × Nat))
    (pre cs : List String) (s : String) (values : List Operand) (c₁ c₂ : Compilation) : Prop where
  runs : Runs σ (pre ++ [s]) (pre ++ cs ++ [s]) inputs (· = n) c₁ c₂
  calm : Calm c₁ c₂
  typed : Typed (fun _ => False) c₁ c₂
  writes : c₁.Writes σ c₂
  length : values.length = names.length
  known : ∀ v ∈ values, c₂.inference.Known v
  filled : ∀ b, c₁.target.block? n = some b → ∃ b', c₂.target.block? n = some b' ∧
    b'.inputs = (b.fillAll names values).inputs

/-- How compilation ends after operands. The blocks in `loose` have found their place. -/
structure Ended (σ : Script) (loose : List String) (inputs : List (String × Nat))
    (ids : List String) (c : Compilation) (r : Option α × Compilation) : Prop where
  rest : SameRest c r.2
  writes : c.Writes σ r.2
  loud : r.1 = none → r.2.project.success = false
  sited : ∃ ids', Sited r.2.target σ inputs ids' ∧ (∀ x ∈ ids, x ∈ ids') ∧
    (r.1.isSome → ∀ x ∈ loose, x ∈ ids')

/-- The block `n` takes operands into its slots `names` next. The scope for them and those in `more`
are closed afterwards, and `inputs` stay open. -/
structure Opened (σ : Script) (loose : List String) (n : String) (start : Nat)
    (names : List String) (more inputs : List (String × Nat)) (pre : List String) (s : String)
    (frame : Frame α) (c c₁ : Compilation) : Prop where
  scopes : frame.scopes = more.length + 1
  ready : c₁.Ready σ ((n, start) :: (more ++ inputs)) pre s
  rest : SameRest c c₁
  enlarged : c.target.Enlarged (· ∈ loose) c₁.target
  block : ∃ b rest, c₁.target.block? n = some b ∧ b.free start = names ++ rest ∧
    ∀ name ∈ names, b.Takes name
  ends : ∀ {cs values c₂}, Operated σ n names inputs pre cs s values c₁ c₂ →
    Ended σ loose inputs (pre ++ cs ++ [s]) c₂ (frame.close values c₂)

/-- Operands leave the scopes to be closed, and blocks of the script are in it as before. -/
theorem mem_spliced {x : String} (hx : x ∈ pre ++ [s]) : x ∈ pre ++ cs ++ [s] := by
  simp only [List.mem_append] at hx ⊢
  tauto

section

variable {more : List (String × Nat)} {es : List Expr} {opening : Emit (Frame α)}

/-- The operands of a block, up to the end of their scopes. -/
theorem Opened.operate (h : Opened σ loose n start names more inputs pre s frame c c₁)
    (hes : ∀ e ∈ es, Evaluates (expression e)) (hlen : names.length = es.length) :
    ∃ cs c', (expressions es c₁).2 = c' ∧
      Runs σ (pre ++ [s]) (pre ++ cs ++ [s]) inputs (· = n) c₁ (leave frame.scopes c') ∧
      c₁.Writes σ (leave frame.scopes c') ∧ SameRest c₁ (leave frame.scopes c') ∧
      ((expressions es c₁).1 = none → (leave frame.scopes c').project.success = false) ∧
      ∀ values, (expressions es c₁).1 = some values →
        Operated σ n names inputs pre cs s values c₁ (leave frame.scopes c') := by
  obtain ⟨b, rest, hb, hfree, htakes⟩ := h.block
  obtain ⟨cs, k', hruns, hcalm, hloud, hok⟩ := expressions_fills .unknown es h.ready.good
    h.ready.sited hb hfree (by rw [List.length_map, hlen])
  have hw := expressions_composes hes h.ready hb hfree htakes hlen
  have hfront : Runs σ (pre ++ [s]) (pre ++ cs ++ [s]) (((n, k') :: more) ++ inputs) (· = n) c₁
    (expressions es c₁).2 := hruns
  obtain ⟨hruns', hleft, hcalm', htyped', henlarged⟩ := leave_runs hfront
  rw [h.scopes]
  have hw' : c₁.Writes σ (leave (more.length + 1) (expressions es c₁).2) :=
    hw.then henlarged hcalm'.rest hruns.sited hleft.sited fun _ => id
  refine ⟨cs, _, rfl, hruns', hw', hcalm.rest.trans hcalm'.rest,
    fun hnone => hcalm'.rest.success_false (hloud hnone), fun values hvalues => ?_⟩
  obtain ⟨hlength, ⟨b', hb', hin, -⟩, hyields, ht⟩ := hok values hvalues
  obtain ⟨b₂, hb₂, hk⟩ := hleft.advance.old hb'
  refine ⟨hruns', hcalm.trans hcalm' hleft.advance, ?_, hw', ?_, ?_, ?_⟩
  · exact ht.trans (htyped' _) hcalm hcalm' hleft.good hleft.advance (fun _ => id) (fun _ => id)
      fun _ => False.elim
  · rw [List.length_map] at hlength
    exact hlength.trans hlen.symm
  · exact fun v hv => known_later hcalm' hleft.advance (hyields.known v hv)
  · intro b₁ hb₁
    obtain rfl := Option.mem_unique hb hb₁
    exact ⟨b₂, hb₂, (hk.inputs fun h => h).trans hin⟩

/-- Operands between their opening and their end. -/
theorem Opened.around (h : Opened σ loose n start names more inputs pre s frame c c₁)
    (hopen : opening c = (some frame, c₁)) (hes : ∀ e ∈ es, Evaluates (expression e))
    (hlen : names.length = es.length) :
    c.Writes σ (Emit.around opening (expressions es) c).2 ∧
      ∃ ids, Sited (Emit.around opening (expressions es) c).2.target σ inputs ids := by
  obtain ⟨cs, c', hc', hruns, hw, hrest, hloud, hok⟩ := h.operate hes hlen
  simp only [Emit.around, hopen]
  cases hres : expressions es c₁ with
  | mk r c₂ =>
    rw [hres] at hc' hloud hok
    obtain rfl : c₂ = c' := hc'
    cases r with
    | none =>
      refine ⟨?_, _, hruns.sited⟩
      exact .of_loose ((h.enlarged.mono fun _ _ _ _ _ _ => trivial).trans
        (hw.mono fun _ _ _ _ _ _ => trivial)) fun hs => by simp [hloud rfl] at hs
    | some values =>
      obtain ⟨hrest', hw', hloud', ids', hsited, hids, hloose⟩ := h.ends (hok values rfl)
      refine ⟨?_, ids', hsited⟩
      have hall : c₁.Writes σ (frame.close values (leave frame.scopes c₂)).2 :=
        hw.trans hw' hrest' hruns.sited hsited hids
      refine (h.enlarged.mono fun x _ _ _ _ hx => ?_).trans hall
      cases hout : (frame.close values (leave frame.scopes c₂)).1 with
      | none => exact .inl (hloud' hout)
      | some v => exact .inr ⟨inputs, ids', hsited, hloose (by simp [hout]) x hx⟩

end

/-! ### Ends -/

/-- Types are settled at the end. -/
theorem Ended.quiet {r : Option α × Compilation} (hs : Sited c.target σ inputs ids)
    (hq : Quietly c r) : Ended σ [] inputs ids c r where
  rest := hq.rest
  writes := .of_enlarged (hq.quiet.enlarged hq.good)
  loud := hq.loud
  sited := ⟨ids, (hq.runs (O := fun _ => False) hs).sited, fun _ => id, fun _ _ hx => by simp at hx⟩

/-- Types are settled before the end. -/
theorem Ended.bind {m : Emit β} {f : β → Emit α} (hs : Sited c.target σ inputs ids)
    (hq : Quietly c (m c))
    (hf : ∀ x c', m c = (some x, c') → Quietly c ((some x, c') : Option β × Compilation) →
      c.target.Enlarged (fun _ => False) c'.target → Ended σ loose inputs ids c' (f x c')) :
    Ended σ loose inputs ids c ((m >>= f) c) := by
  have hruns := hq.runs (O := fun _ => False) hs
  rw [bind_apply]
  cases hres : m c with
  | mk r c' =>
    rw [hres] at hq hruns
    have henlarged : c.target.Enlarged (fun _ => False) c'.target := hq.quiet.enlarged hq.good
    cases r with
    | none =>
      exact ⟨hq.rest, .of_enlarged henlarged, fun _ => hq.loud rfl, ids, hruns.sited, fun _ => id,
        fun h => by simp at h⟩
    | some x =>
      obtain ⟨hrest, hw, hloud, ids', hsited, hids, hloose⟩ :=
        hf x c' hres hq henlarged
      exact ⟨hq.rest.trans hrest,
        (Writes.of_enlarged henlarged).trans hw hrest hruns.sited hsited hids, hloud, ids', hsited,
        hids, hloose⟩

/-- The scope for operands is opened last. -/
theorem Opened.of_written {more : List (String × Nat)} (hscopes : frame.scopes = more.length + 1)
    (hr : c₀.Ready σ (more ++ inputs) pre s) (hrest : SameRest c c₀)
    (he : c.target.Enlarged (· ∈ loose) c₀.target) (hb : c₀.target.block? n = some b)
    (hfree : b.free start = names ++ rest) (htakes : ∀ name ∈ names, b.Takes name)
    (hends : ∀ {cs values c₂}, Operated σ n names inputs pre cs s values
        (c₀.setTarget (c₀.target.enter (.inputs n start))) c₂ →
      Ended σ loose inputs (pre ++ cs ++ [s]) c₂ (frame.close values c₂)) :
    Opened σ loose n start names more inputs pre s frame c
      (c₀.setTarget (c₀.target.enter (.inputs n start))) where
  scopes := hscopes
  ready := hr.enter n start
  rest := hrest.trans (.setTarget c₀ _)
  enlarged := by
    rw [target_setTarget]
    exact he.trans (.of_blocks rfl rfl rfl (Nat.le_refl _))
  block := by
    rw [target_setTarget]
    exact ⟨b, rest, hb, hfree, htakes⟩
  ends := hends

/-! ### Blocks in slots -/

/-- A block without operands has been written. -/
theorem register_enlarged (hs : Sited c.target σ inputs ids)
    (hshape : Shape make start names opcode fields mutation) (hb : (make n).Scripted c.target)
    (h : register make c = (some n, c')) : c.target.Enlarged (· = n) c'.target := by
  have h' : (some (c.target.freshId "block"),
      c.setTarget (c.target.draw.register (make (c.target.freshId "block")))) = (some n, c') := h
  cases h'
  rw [target_setTarget]
  have hdraw : c.target.Enlarged (· = c.target.freshId "block") c.target.draw :=
    .of_blocks rfl rfl rfl (Nat.le_succ _)
  refine hdraw.trans (.register ?_ ?_ (hdraw.scripted hb) ?_ ?_)
  · rw [hshape.id_eq]
    exact hs.fresh_block
  · exact ⟨_, hshape.id_eq _⟩
  · exact fun _ => hshape.id_eq _
  · simp [hshape.children]

/-- A block has been placed in the slot at `i`. -/
theorem place_enlarged (hs : Sited c.target σ ((A, k) :: F) ids) (hA : c.target.block? A = some a)
    (hi : a.firstUnfilled? k = some (i, slot)) (hid : ∀ n, (make n).id = n)
    (hb : (make n).Scripted c.target)
    (hchild : ∀ y ∈ (make n).children, ∀ m, c.target.block? y = some m → m.topLevel = false)
    (h : place make c = (some n, c')) (hn : c'.target.block? n = some (Target.under A (make n)))
    (hs' : Sited c'.target σ ((A, j) :: F) ids) :
    j = i + 1 ∧ c.target.Enlarged L c'.target := by
  have h' : (some (c.target.freshId "block"),
      c.setTarget (c.target.draw.addBlock (make (c.target.freshId "block")))) = (some n, c') := h
  cases h'
  rw [target_setTarget] at hn hs' ⊢
  obtain ⟨outer, hscopes⟩ := hs.exists_scopes
  refine ⟨hs'.index_eq (Target.scopes_addBlock (t := c.target.draw) hscopes hA hi _), ?_⟩
  have hdraw : c.target.Enlarged L c.target.draw := .of_blocks rfl rfl rfl (Nat.le_succ _)
  refine hdraw.trans (.addBlock hs.scopes_ne_nil ?_ ⟨_, hid _⟩ (hdraw.scripted hb) hchild ?_)
  · rw [hid]
    exact hs.fresh_block
  · intro b' hb' hparent
    rw [hid, hn] at hb'
    cases hb'
    cases hparent

/-- A step that gives no other value than this. -/
def Gives (m : Emit α) (v : α) : Prop :=
  ∀ ⦃c w c'⦄, m c = (some w, c') → w = v

theorem Gives.pure (v : α) : Gives (Pure.pure v) v := by
  rintro c w c' ⟨⟩
  rfl

theorem Gives.bind {m : Emit β} {f : β → Emit α} {v : α} (h : ∀ x, Gives (f x) v) :
    Gives (m >>= f) v := by
  intro c w c' hw
  obtain ⟨x, c₁, -, hx⟩ := bind_eq_some hw
  exact h x hx

theorem Gives.one {f : Operand → Emit α} {v : α} (h : ∀ x, Gives (f x) v) (values : List Operand) :
    Gives ((Frame.one f).close values) v := by
  obtain _ | ⟨x, _ | ⟨y, values⟩⟩ := values
  · rintro c w c' ⟨⟩
  · exact h x
  · rintro c w c' ⟨⟩

theorem Gives.two {f : Operand → Operand → Emit α} {v : α} (h : ∀ l r, Gives (f l r) v)
    (values : List Operand) : Gives ((Frame.two f).close values) v := by
  obtain _ | ⟨l, _ | ⟨r, _ | ⟨y, values⟩⟩⟩ := values
  · rintro c w c' ⟨⟩
  · rintro c w c' ⟨⟩
  · exact h l r
  · rintro c w c' ⟨⟩

/-- What an operator or a call does before its operands, for the slot at `i`. -/
def Opens (opening : Emit (Frame Operand)) (count : Nat) : Prop :=
  ∀ ⦃c : Compilation⦄ ⦃σ : Script⦄ ⦃A : String⦄ ⦃k : Nat⦄ ⦃F : List (String × Nat)⦄
    ⦃pre : List String⦄ ⦃s : String⦄ ⦃a : Block⦄ ⦃i : Nat⦄ ⦃slot : String⦄ ⦃rest : List String⦄,
    c.Ready σ ((A, k) :: F) pre s → c.target.block? A = some a → a.free k = slot :: rest →
    a.firstUnfilled? k = some (i, slot) →
    (∃ c', opening c = (none, c') ∧ c'.target = c.target) ∨
    ∃ frame c₁ loose n start names v, opening c = (some frame, c₁) ∧ names.length = count ∧
      Opened σ loose n start names [] ((A, v.indexAfter k i) :: F) pre s frame c c₁ ∧
      ∀ values, Gives (frame.close values) v

theorem Opens.evaluates {opening : Emit (Frame Operand)} {es : List Expr}
    (h : Opens opening es.length) (hes : ∀ e ∈ es, Evaluates (expression e)) :
    Evaluates (around opening (expressions es)) := by
  intro c σ A k F pre s a i slot rest hr hA hfree hi
  obtain ⟨c', hopen, htarget⟩ | ⟨frame, c₁, loose, n, start, names, v, hopen, hlen, hopened, hv⟩ :=
    h hr hA hfree hi
  · simp only [around, hopen]
    refine ⟨.of_enlarged ?_, by simp⟩
    rw [htarget]
    exact .refl _
  · obtain ⟨hw, ids, hsited⟩ := hopened.around hopen hes hlen
    refine ⟨hw, fun w hres => ⟨ids, ?_⟩⟩
    suffices hw : w = v by rw [hw]; exact hsited
    simp only [around, hopen] at hres
    cases hexpr : expressions es c₁ with
    | mk r c₂ =>
      rw [hexpr] at hres
      cases r with
      | none => cases hres
      | some values => exact hv values (Prod.ext hres rfl)

/-! ### Operators -/

/-- An operator in its slot, whose end settles types. -/
theorem placing_opens {frame : String → Frame Operand}
    (hshape : Shape make start names opcode fields mutation) (hb : ∀ t n, (make n).Scripted t)
    (htakes : ∀ n slot, (make n).Takes slot) (hscopes : ∀ n, (frame n).scopes = 1)
    (hvalue : ∀ n values, Gives ((frame n).close values) (.block n))
    (hends : ∀ {n c σ inputs ids values}, c.inference.Good → Sited c.target σ inputs ids →
      values.length = names.length → (∀ v ∈ values, c.inference.Known v) →
      Ended σ [] inputs ids c ((frame n).close values c)) :
    Opens (placing make start frame) names.length := by
  intro c σ A k F pre s a i slot rest hr hA hfree hi
  obtain ⟨n, k', c₀, hplace, -, -, hn, -, hsited, hgood, -, hcalm⟩ := place_input hr.good hr.sited
    hA hfree hshape.fits fun n => ⟨hshape.argument n, hshape.not_starts n⟩
  obtain ⟨rfl, he⟩ := place_enlarged (L := (· ∈ [])) hr.sited hA hi hshape.id_eq (hb _ n)
    (by simp [hshape.children]) hplace hn hsited
  exact .inr ⟨frame n, _, [], n, start, names, .block n, bind_of_eq hplace, rfl,
    .of_written (hscopes n) (hr.later hgood hsited hcalm.tables he) hcalm.rest he hn
      (((Block.free_eq_of_inputs rfl start).trans (hshape.free n)).trans (List.append_nil _).symm)
      (fun name _ => htakes n name)
      fun ho => hends ho.runs.good ho.runs.sited ho.length ho.known, hvalue n⟩

theorem unaryOpening_not_opens (opSpan span : Span) :
    Opens (unaryOpening .not opSpan span) 1 := by
  refine placing_opens .negation (fun t n => .negation (.of_ne fun _ => by simp) n)
    (fun n slot => .negation n .empty slot) (fun _ => rfl)
    (fun _ => .one fun _ => .bind fun _ => .pure _) fun hg hs hlen hk => ?_
  obtain ⟨x, rfl⟩ := List.length_eq_one_iff.1 hlen
  exact .quiet hs (expectType_then hg (by decide) [x] opSpan _).1

/-- The operator of a sign gets the type of a number last. -/
theorem Ended.retype (hs : Sited c.target σ inputs ids) (n : String) (type : ValueType) (v : α) :
    Ended σ [] inputs ids c
      (some v, c.setTarget (c.target.modifyBlock n ({ · with inferred := type }))) := by
  have hlinks : (c.target.modifyBlock n ({ · with inferred := type })).links = c.target.links := by
    funext x
    simp only [Target.links, Target.block?_modifyBlock]
    split
    · rw [Option.map_map]
      rfl
    · rfl
  refine ⟨.setTarget c _, .of_enlarged ?_, by simp, ids, ?_, fun _ => id,
    fun _ _ hx => by simp at hx⟩
  · rw [target_setTarget]
    exact .modifyBlock n fun b _ => .of_eq rfl rfl (.inl rfl) rfl rfl id rfl
  · rw [target_setTarget]
    exact hs.of_links hlinks rfl (Nat.le_refl _)

theorem signOpening_opens (symbol : String) (span : Span) : Opens (signOpening symbol span) 1 := by
  refine placing_opens (.join symbol) (fun t n => .pair rfl (by simp) (by decide)
    (.of_ne fun _ => by simp) (.of_ne fun _ => by simp) n)
    (fun n slot => .pair (by simp) (by decide) n _ _ _ _ slot) (fun _ => rfl)
    (fun _ => .one fun _ => .bind fun _ => .bind fun _ => .pure _) fun hg hs hlen hk => ?_
  obtain ⟨x, rfl⟩ := List.length_eq_one_iff.1 hlen
  exact .bind hs (Quietly.expectType hg (by decide) [x] span).1
    fun _ _ _ hq _ => .retype (hq.runs (O := fun _ => False) hs).sited _ _ _

theorem unaryOpening_opens (op : UnaryOp) (opSpan span : Span) :
    Opens (unaryOpening op opSpan span) 1 := by
  cases op with
  | not => exact unaryOpening_not_opens opSpan span
  | plus => exact signOpening_opens "+" span
  | minus => exact signOpening_opens "-" span

/-- An operator with two operands that go into its slots. -/
theorem pairing_opens {opcode : Opcode} {close : String → Operand → Operand → Emit Operand}
    (hinner : opcode.startsScript = false) (ho : opcode.isPlain = true) (hkind : kind ≠ .substack)
    (hne : first ≠ second) (hvalue : ∀ n l r, Gives (close n l r) (.block n))
    (hquiet : ∀ {n c l r}, c.inference.Good → (∀ v ∈ [l, r], c.inference.Known v) →
      Quietly c (close n l r c)) :
    Opens (placing (Block.pair · opcode inferred kind first second .empty .empty) 0
      fun id => .two (close id)) 2 := by
  refine placing_opens (.pair hinner inferred kind hne) (fun t n => .pair ho hkind hne
    (.of_ne fun _ => by simp) (.of_ne fun _ => by simp) n)
    (fun n slot => .pair hkind hne n _ _ _ _ slot) (fun _ => rfl)
    (fun n => .two (hvalue n)) fun hg hs hlen hk => ?_
  obtain ⟨l, r, rfl⟩ := List.length_eq_two.1 hlen
  exact .quiet hs (hquiet hg hk)

theorem arithmeticOpening_opens (op : ArithmeticOp) (opSpan right : Span) :
    Opens (binaryOpening (.arithmetic op) opSpan right) 2 := by
  refine pairing_opens rfl rfl (by simp) (by decide)
    (fun _ _ _ => .bind fun _ => .bind fun _ => .pure _) fun {n c l r} hg hk => ?_
  obtain ⟨c₁, hwarn, hq⟩ := warnDivisionByZero_quietly hg op r right
  refine Quietly.bind (by rw [hwarn]; exact hq) fun _ c' hc' => ?_
  rw [hwarn] at hc'
  cases hc'
  exact (expectType_then hq.good (by decide) [l, r] opSpan _).1

theorem logicOpening_opens (op : LogicOp) (opSpan right : Span) :
    Opens (binaryOpening (.logic op) opSpan right) 2 :=
  pairing_opens rfl rfl (by simp) (by decide) (fun _ _ _ => .bind fun _ => .pure _)
    fun hg _ => (expectType_then hg (by decide) _ opSpan _).1

/-- The end of an equality, also of one below a negation. -/
theorem hintEqual_then (hg : c.inference.Good) (hk : ∀ v ∈ [l, r], c.inference.Known v)
    (value : Operand) : Quietly c ((do hintEqual l r; pure value : Emit Operand) c) := by
  obtain ⟨c', hc', hq⟩ := hintEqual_quietly hg hk
  rw [bind_of_eq hc']
  exact ⟨hq.quiet, hq.good, hq.rest, by simp [pure_apply]⟩

theorem equalityOpening_opens (opSpan right : Span) :
    Opens (binaryOpening (.comparison .equal) opSpan right) 2 :=
  pairing_opens rfl rfl (by simp) (by decide) (fun _ _ _ => .bind fun _ => .pure _)
    fun hg hk => hintEqual_then hg hk _

theorem strictOpening_opens {opcode : Opcode} (ho : opcode.Compares) :
    Opens (strictOpening (Block.comparison opcode)) 2 :=
  pairing_opens ho.inner ho.isPlain (by simp) (by decide) (fun _ _ _ => .bind fun _ => .pure _)
    fun hg _ => (hintType_quietly hg (by decide) _ _).1

/-- The operands go into a block below the one in the slot. -/
theorem inequalityOpening_opens : Opens inequalityOpening 2 := by
  intro c σ A k F pre s a i slot rest hr hA hfree hi
  have hshape := Shape.comparison .equals
  have hempty : ∀ t : Target, SlotValue.Bound t .empty := fun t => .of_ne fun _ => by simp
  obtain ⟨q, c₁, hregister, hqnew, -, hq, -, hruns₁, hcalm₁⟩ := register_new hshape hr.good hr.sited
  obtain ⟨n, k', c₀, hplace, hnnew, -, hn, -, hruns₂, hcalm₂, hadv₂⟩ :=
    place_holder (.negation q) hr.sited hA hfree hruns₁ hcalm₁ fun x hx => by
      obtain rfl := List.mem_singleton.1 hx
      exact ⟨hqnew, _, hq, rfl, Shape.refs_eq_nil hshape _⟩
  have he₁ : c.target.Enlarged (· = q) c₁.target := register_enlarged hr.sited hshape
    (.pair rfl (by simp) relation_ne (hempty _) (hempty _) q) hregister
  obtain ⟨a₁, hA₁, hkA⟩ := hruns₁.advance.old hA
  obtain ⟨rfl, he₂⟩ := place_enlarged (L := (· = q)) hruns₁.sited hA₁
    ((Block.firstUnfilled?_congr (hkA.inputs id) k).trans hi) (Holder.negation q).id_eq
    (.negation (.of_ne fun _ => by simp) n) (fun y hy m hm => by
      rw [(Holder.negation q).children] at hy
      obtain rfl := List.mem_singleton.1 hy
      rw [hq] at hm
      cases hm
      rfl) hplace hn hruns₂.sited
  -- the equality has been taken into the slot of the negation
  obtain ⟨bq, hbq, hparent⟩ := Target.exists_child hruns₂.sited.sound.linked hn (y := q)
    (by rw [show (Target.under A (Block.negation n (.block q))).children = [q] from rfl]; simp)
  have he : c.target.Enlarged (· ∈ []) c₀.target := (he₁.trans he₂).mono fun x b hx _ hnone hxq => by
    subst hxq
    rw [hbq] at hx
    cases hx
    simp [hparent] at hnone
  obtain ⟨bq', hbq', hkq⟩ := hadv₂.old hq
  have hqA : q ≠ A := ne_of_found hqnew hA
  refine .inr ⟨_, _, [], q, 0, ["OPERAND1", "OPERAND2"], .block n,
    (bind_of_eq hregister).trans (bind_of_eq hplace), rfl,
    .of_written rfl (hr.later hruns₂.good hruns₂.sited hcalm₂.tables he) hcalm₂.rest he hbq'
      (((Block.free_eq_of_inputs (hkq.inputs hqA) 0).trans (hshape.free q)).trans
        (List.append_nil _).symm)
      (fun name _ => (Block.Takes.pair (by simp) relation_ne q _ _ _ _ name).of_inputs
        (hkq.inputs hqA)) fun ho => ?_,
    .two fun _ _ => .bind fun _ => .pure _⟩
  obtain ⟨l, r, rfl⟩ := List.length_eq_two.1 ho.length
  exact .quiet ho.runs.sited (hintEqual_then ho.runs.good ho.known _)

/-- The operands of the first comparison are copied into the second. -/
theorem mirrored_ended {opcode : Opcode} {q w : String} (hc : opcode.Compares)
    (he : Either opcode σ (pre ++ [s]) A slot a rest F k n q w c c₀) (hret : c₀.target.Returns)
    (ho : Operated σ q ["OPERAND1", "OPERAND2"] ((A, k) :: F) pre cs s [l, r]
      (c₀.setTarget (c₀.target.enter (.inputs q 0))) c₂) :
    Ended σ [] ((A, k) :: F) (pre ++ cs ++ [s]) c₂ ((do
      hintType .number [l, r]
      let t ← target
      copySlots w (((t.block? q).map (·.inputs.entries)).getD [])
      pure (.block n) : Emit Operand) c₂) := by
  refine .bind ho.runs.sited (Quietly.hintType ho.runs.good (by decide) [l, r])
    fun _ c' _ hquiet henlarged => ?_
  obtain ⟨-, -, hqw⟩ := he.distinct
  have htarget : ∀ x, (c₀.setTarget (c₀.target.enter (.inputs q 0))).target.block? x =
      c₀.target.block? x := by
    intro x
    rw [target_setTarget]
    rfl
  -- what the two comparisons hold
  obtain ⟨bq₀, hbq₀, -, hqin₀⟩ := he.first
  obtain ⟨bq₂, hbq₂, hqin₂⟩ := ho.filled bq₀ ((htarget q).trans hbq₀)
  have hadv : Inference.Advance (fun _ => False) (fun _ => False) c₂.inference c'.inference :=
    hquiet.quiet.advance
  obtain ⟨bq, hbq, hkq⟩ := hadv.old hbq₂
  have hqin : bq.inputs = (bq₀.fillAll ["OPERAND1", "OPERAND2"] [l, r]).inputs :=
    (hkq.inputs id).trans hqin₂
  have hruns : Runs σ (pre ++ [s]) (pre ++ cs ++ [s]) ((A, k) :: F) (fun x => x = q ∨ x = w)
      (c₀.setTarget (c₀.target.enter (.inputs q 0))) c' :=
    ho.runs.trans (hquiet.runs (O := fun _ => False) ho.runs.sited)
      fun _ _ _ hx => .inl (hx.elim (fun h => h) False.elim)
  obtain ⟨bw₀, hbw₀, -, hwin₀⟩ := he.second
  obtain ⟨bw₂, hbw₂, hkw₂⟩ := ho.runs.advance.old ((htarget w).trans hbw₀)
  obtain ⟨bw, hbw, hkw⟩ := hadv.old hbw₂
  have hwin : bw.inputs = (Block.equals w .empty .empty).inputs :=
    (hkw.inputs id).trans ((hkw₂.inputs hqw.symm).trans hwin₀)
  have hcopying : Copying σ (pre ++ [s]) (pre ++ cs ++ [s]) ((A, k) :: F) (fun x => x = q ∨ x = w) w
      (c₀.setTarget (c₀.target.enter (.inputs q 0))) c' :=
    ⟨by rw [target_setTarget]; exact (he.runs.sited.enter_inputs q 0).sound, fun _ => mem_spliced, hruns,
      ho.calm.trans hquiet.calm (hquiet.runs (O := fun _ => False) ho.runs.sited).advance,
      ho.typed.quiet ho.calm hquiet, by rw [htarget, hbw₀]; rfl, .inr rfl⟩
  obtain ⟨kind, kind', c₃, hentries, hcopy, hcopied⟩ := he.copy hc hcopying htarget hbq
    (hqin.trans (Block.fillAll_inputs_congr hqin₀ _ _)) hbw hwin
  have hgrown : (c₀.setTarget (c₀.target.enter (.inputs q 0))).target.Enlarged (fun _ => True)
      c'.target :=
    (ho.writes.mono fun _ _ _ _ _ _ => trivial).trans (henlarged.mono fun _ _ _ _ _ _ => trivial)
  have hbound : ∀ e ∈ bq.inputs.entries, e.2.value.Bound c'.target := by
    have hreturns : c₂.target.Returns := by
      refine Target.Returns.of_tables ?_ ho.calm.tables
      rw [target_setTarget]
      exact hret
    have hvalue : ∀ v ∈ [l, r], v.slotValue.Bound c'.target := fun v hv =>
      (Ready.bound hreturns (ho.known v hv)).mono henlarged.declares
    intro e hmem
    rw [hentries] at hmem
    rcases List.mem_pair.1 hmem with rfl | rfl
    · exact hvalue l (by simp)
    · exact hvalue r (by simp)
  have hlast : (do
      let t ← target
      copySlots w (((t.block? q).map (·.inputs.entries)).getD [])
      pure (.block n) : Emit Operand) c' = (some (.block n), c₃) := by
    rw [bind_of_eq (show target c' = (some c'.target, c') from rfl)]
    exact bind_of_eq hcopy
  rw [hlast]
  refine ⟨hcopied.calm_last.rest, .of_enlarged (hcopied.enlarged hgrown hbound fun slot => ?_), by simp,
    _, hcopied.runs.sited, fun _ => id, fun _ _ hx => by simp at hx⟩
  exact (Block.Takes.pair (by simp) relation_ne w .equals .boolean .empty .empty slot).of_inputs hwin

/-- A comparison that allows equality has two others in its slots, the first for the operands. -/
theorem inclusiveOpening_opens {opcode : Opcode} (ho : opcode.Compares) :
    Opens (inclusiveOpening (Block.comparison opcode)) 2 := by
  intro c σ A k F pre s a i slot rest hr hA hfree hi
  have hempty : ∀ t : Target, SlotValue.Bound t .empty := fun t => .of_ne fun _ => by simp
  -- the three blocks one after the other
  obtain ⟨n, q, w, k', c₁, c₂, c₃, heither, hq₁, hw₁, hn₁⟩ :=
    either_placed ho hr.good hr.sited hA hfree
  have hshape := Shape.comparison ho
  have hshape' := Shape.comparison .equals
  obtain ⟨_, _, hq₂, -, -, hq, -, hruns₁, -⟩ := register_new hshape hr.good hr.sited
  cases hq₂.symm.trans hq₁
  obtain ⟨_, _, hw₂, -, -, hw, -, hruns₂, -⟩ := register_new hshape' hruns₁.good hruns₁.sited
  cases hw₂.symm.trans hw₁
  have he₁ : c.target.Enlarged (· = q) c₁.target := register_enlarged hr.sited hshape
    (.pair ho.isPlain (by simp) relation_ne (hempty _) (hempty _) q) hq₁
  have he₂ : c₁.target.Enlarged (· = w) c₂.target := register_enlarged hruns₁.sited hshape'
    (.pair rfl (by simp) relation_ne (hempty _) (hempty _) w) hw₁
  obtain ⟨a₁, hA₁, hk₁⟩ := hruns₁.advance.old hA
  obtain ⟨a₂, hA₂, hk₂⟩ := hruns₂.advance.old hA₁
  obtain ⟨rfl, he₃⟩ := place_enlarged (L := fun _ => False) hruns₂.sited hA₂
    ((Block.firstUnfilled?_congr ((hk₂.inputs id).trans (hk₁.inputs id)) k).trans hi)
    (Holder.either heither.distinct.2.2).id_eq
    (.pair rfl (by simp) relation_ne (.of_ne fun _ => by simp) (.of_ne fun _ => by simp) n)
    (fun y hy m hm => by
      rw [(Holder.either heither.distinct.2.2).children] at hy
      rcases List.mem_pair.1 hy with rfl | rfl
      · exact he₂.topLevel (fun b hb => by rw [hq] at hb; cases hb; rfl) m hm
      · rw [hw] at hm
        cases hm
        rfl) hn₁ heither.holder heither.runs.sited
  have hparent : ∀ x, x = q ∨ x = w → ∃ b, c₃.target.block? x = some b ∧ b.parent = some n :=
    fun x hx => Target.exists_child heither.runs.sited.sound.linked heither.holder (by
      rw [show (Target.under A (Block.logic n .or (.block q) (.block w))).children = [q, w] from
        (Holder.either heither.distinct.2.2).children n]
      exact List.mem_pair.2 hx)
  have he : c.target.Enlarged (· ∈ []) c₃.target := by
    have hall : c.target.Enlarged (fun x => x = q ∨ x = w) c₃.target :=
      ((he₁.mono fun _ _ _ _ _ => .inl).trans (he₂.mono fun _ _ _ _ _ => .inr)).trans
        (he₃.mono fun _ _ _ _ _ => False.elim)
    refine hall.mono fun x b hx _ hnone hxq => ?_
    obtain ⟨b', hb', hp⟩ := hparent x hxq
    rw [hb'] at hx
    cases hx
    simp [hp] at hnone
  obtain ⟨bq, hbq, -, hqin⟩ := heither.first
  have hr₀ := hr.later heither.runs.good heither.runs.sited heither.calm.tables he
  refine .inr ⟨_, _, [], q, 0, ["OPERAND1", "OPERAND2"], .block n,
    (bind_of_eq hq₁).trans ((bind_of_eq hw₁).trans (bind_of_eq hn₁)), rfl,
    .of_written rfl hr₀ heither.calm.rest he hbq
      (((Block.free_eq_of_inputs hqin 0).trans (hshape.free q)).trans (List.append_nil _).symm)
      (fun name _ => (Block.Takes.pair (by simp) relation_ne q _ _ _ _ name).of_inputs hqin)
      fun hop => ?_,
    .two fun _ _ => .bind fun _ => .bind fun _ => .bind fun _ => .pure _⟩
  obtain ⟨l, r, rfl⟩ := List.length_eq_two.1 hop.length
  exact mirrored_ended ho heither hr₀.tidy.returns hop

theorem binaryOpening_opens (op : BinaryOp) (opSpan right : Span) :
    Opens (binaryOpening op opSpan right) 2 := by
  cases op with
  | arithmetic op => exact arithmeticOpening_opens op opSpan right
  | logic op => exact logicOpening_opens op opSpan right
  | comparison op =>
    cases op with
    | equal => exact equalityOpening_opens opSpan right
    | notEqual => exact inequalityOpening_opens
    | less => exact strictOpening_opens .less
    | greater => exact strictOpening_opens .greater
    | lessOrEqual => exact inclusiveOpening_opens .less
    | greaterOrEqual => exact inclusiveOpening_opens .greater

/-! ### Calls -/

/-- A call is spliced in before the statement when its arguments are there. -/
theorem spliced_ended (hr : c₀.Ready σ inputs pre s)
    (hn₀ : c₀.target.block? n = some (p.callBlock n)) (hout : n ∉ σ.base.toList ++ (pre ++ [s]))
    (hheads : ∀ {anchor y}, .sequence anchor (some y) ∈ σ.outer → y ≠ n)
    (hvalue : ∀ a ∈ p.arguments.values, a.type.IsValue) {spans : List Span}
    (hspans : spans.length = p.arguments.size) (ho : Operated σ n p.slotNames inputs pre cs s values
      (c₀.setTarget (c₀.target.enter (.inputs n 0))) c₂) :
    Ended σ [n] inputs (pre ++ cs ++ [s]) c₂ ((do
      expectArguments values p.arguments.values spans
      modifyTarget (runBefore · n)
      pure (.call f p.returnVariable) : Emit Operand) c₂) := by
  have hlength : p.arguments.values.length = p.arguments.size := by simp [Table.values, Table.size]
  refine .bind ho.runs.sited (expectArguments_quietly ho.runs.good hvalue ?_ ?_).1
    fun _ c' _ hquiet henlarged => ?_
  · rw [ho.length, Procedure.length_slotNames, hlength]
  · rw [hspans, hlength]
  have htarget : (c₀.setTarget (c₀.target.enter (.inputs n 0))).target.block? n =
      some (p.callBlock n) := by
    rw [target_setTarget]
    exact hn₀
  have hruns' := hquiet.runs (O := fun _ => False) ho.runs.sited
  -- the block of the call is still loose
  have hout' : n ∉ σ.base.toList ++ (pre ++ cs ++ [s]) := by
    intro hm
    rcases List.mem_append.1 hm with hm | hm
    · exact hout (List.mem_append_left _ hm)
    · obtain hm | hnone := ho.runs.new_ids n hm
      · exact hout (List.mem_append_right _ hm)
      · rw [htarget] at hnone
        cases hnone
  obtain ⟨b₂, hb₂, hk₂⟩ := ho.runs.advance.old htarget
  obtain ⟨b, hb, hk⟩ := hruns'.advance.old hb₂
  have hparent : b.parent = none := (hk.parent hout').trans (hk₂.parent hout)
  have hnext : b.next = none := (hk.next hout').trans (hk₂.next hout)
  obtain ⟨hs', -, -⟩ := hruns'.sited.insertBefore hb hparent hnext hout' hheads
  have hgrown : (c₀.setTarget (c₀.target.enter (.inputs n 0))).target.Enlarged (fun _ => True)
      c'.target :=
    (ho.writes.mono fun _ _ _ _ _ _ => trivial).trans (henlarged.mono fun _ _ _ _ _ => False.elim)
  obtain ⟨b', hb', hlasts⟩ := hgrown.old htarget
  obtain rfl := Option.mem_unique hb hb'
  have hready : c'.Ready σ inputs (pre ++ cs) s := (hr.enter n 0).later hquiet.good hruns'.sited
    (hquiet.calm.tables.trans ho.calm.tables) hgrown
  obtain ⟨bs, hbs, hposition, htop⟩ := hready.statement
  have hlast : (do
      modifyTarget (runBefore · n)
      pure (.call f p.returnVariable) : Emit Operand) c' =
        (some (.call f p.returnVariable), c'.setTarget (c'.target.insertBefore s n)) := by
    simp only [bind_apply, modifyTarget, modify, runBefore, currentStatement_eq hruns'.sited,
      pure_apply]
  rw [hlast]
  refine ⟨.setTarget c' _, .of_enlarged ?_, by simp, pre ++ cs ++ [n, s], ?_, ?_, ?_⟩
  · rw [target_setTarget]
    exact .insertBefore hbs hposition htop hb (hlasts.position.trans rfl) (hlasts.topLevel.trans rfl)
      hparent
  · rw [target_setTarget]
    exact hs'
  · intro x hx
    simp only [List.mem_append, List.mem_cons] at hx ⊢
    tauto
  · intro _ x hx
    obtain rfl := List.mem_singleton.1 hx
    simp

theorem callOpening_opens (f : String) (span : Span) (spans : List Span) :
    Opens (callOpening f span spans) spans.length := by
  intro c σ A k F pre s a i slot rest hr hA hfree hi
  obtain ⟨p, hcallee, hp, hsize⟩ | ⟨problem, hp, hcallee⟩ := callee_eq c f spans.length span
  swap
  · refine .inl ⟨(fail problem span c : Option Operand × _).2, ?_, rfl⟩
    simp only [callOpening, bind_apply, hcallee]
    rfl
  by_cases hvoid : p.returnType = .void
  · refine .inl ⟨(fail (.typeMismatch "value" "void") span c : Option Operand × _).2, ?_, rfl⟩
    simp only [callOpening, bind_of_eq hcallee, if_pos hvoid]
    rfl
  · have hnodup : p.slotNames.Nodup := (hr.good.tables.procs hp).1
    have hq := Quietly.log hr.good (.calling f)
    have hlogged : (c.log (.calling f)).Ready σ ((A, k) :: F) pre s :=
      ⟨hq.good, hr.sited, hr.statement, hr.tidy⟩
    have hshape := Procedure.callBlock_shape hnodup
    obtain ⟨n, c₀, hregister, hnew, hout, hn, -, hruns, hcalm⟩ :=
      register_new hshape hlogged.good hlogged.sited
    have he : c.target.Enlarged (· ∈ [n]) c₀.target :=
      (register_enlarged hlogged.sited hshape (.callBlock hp hnodup n) hregister).mono
        fun x _ _ _ _ hx => List.mem_singleton.2 hx
    have hr₀ : c₀.Ready σ ((A, k) :: F) pre s :=
      hlogged.later hruns.good hruns.sited hcalm.tables he
    let frame : Frame Operand := ⟨1, fun values => do
      expectArguments values p.arguments.values spans
      modifyTarget (runBefore · n)
      pure (.call f p.returnVariable)⟩
    have hopen : callOpening f span spans c =
        (some frame, c₀.setTarget (c₀.target.enter (.inputs n 0))) := by
      simp only [callOpening, bind_of_eq hcallee, if_neg hvoid]
      rw [bind_of_eq (show Emit.log (.calling f) c = (some (), c.log (.calling f)) from rfl)]
      exact bind_of_eq hregister
    refine .inr ⟨frame, _, [n], n, 0, p.slotNames, .call f p.returnVariable, hopen, ?_,
      .of_written rfl hr₀ (hq.rest.trans hcalm.rest) he hn
        ((hshape.free n).trans (List.append_nil _).symm) (fun name _ => .callBlock hnodup n name)
        fun ho => spliced_ended hr₀ hn hout ?_ ?_ hsize.symm ho,
      fun _ => .bind fun _ => .bind fun _ => .pure _⟩
    · rw [Procedure.length_slotNames, hsize]
    · intro anchor y hy hyn
      obtain ⟨⟨b, hb⟩, -⟩ := hlogged.sited.apart hy
      rw [hyn] at hb
      simp [hnew] at hb
    · exact fun a ha => hr.good.tables.arguments hp ha

/-! ### Expressions -/

/-- A step that changes the target in no way writes nothing. -/
theorem Evaluated.of_target {r : Option Operand × Compilation} (hr : c.Ready σ ((A, k) :: F) pre s)
    (ht : r.2.target = c.target) (hv : ∀ v, r.1 = some v → v.indexAfter k i = k) :
    Evaluated σ A k i F c r where
  writes := .of_enlarged (by rw [ht]; exact .refl _)
  index v hres := ⟨pre ++ [s], by rw [hv v hres, ht]; exact hr.sited⟩

theorem name_evaluates (x : String) (span : Span) : Evaluates (name x span) := by
  intro c σ A k F pre s a i slot rest hr hA hfree hi
  cases hv : c.target.builtVariable? x with
  | some v =>
    have he : name x span c = (some (.variable v.ref), c) := by
      simp only [name_eq_place, bind_apply, get, hv, pure_apply]
    rw [he]
    exact .of_target hr rfl (by rintro _ ⟨⟩; rfl)
  | none =>
    cases hf : c.function.bind (·.argumentType? x) with
    | none =>
      have he : name x span c = fail (.unknownName x) span c := by
        simp only [name_eq_place, bind_apply, get, hv, hf]
      rw [he]
      exact .of_target hr rfl (by rintro _ ⟨⟩)
    | some type =>
      let make : String → Block := (Block.reporter · x type false)
      have hchildren : ∀ n, (make n).children = [] := fun n => by
        simp [make, Block.reporter, Block.children, Table.values, Table.empty]
      obtain ⟨k', hs', -, -, hn, -⟩ := hr.sited.place_input hA hfree
        (b := make (c.target.freshId "block")) ⟨rfl, rfl, by simp [hchildren], by simp [hchildren]⟩
      obtain ⟨c₁, hplace, hc₁⟩ : ∃ c₁, place make c = (some (c.target.freshId "block"), c₁) ∧
          c₁.target = c.target.draw.addBlock (make (c.target.freshId "block")) :=
        ⟨_, rfl, target_setTarget _ _⟩
      rw [← hc₁] at hs' hn
      obtain ⟨rfl, hw⟩ := place_enlarged (L := fun _ => False) hr.sited hA hi (fun _ => rfl)
        (.reporter _ x type) (by simp [hchildren]) hplace hn hs'
      have he : name x span c = (some (.block (c.target.freshId "block")),
          { c₁ with function := c₁.function.map (·.track x (c.target.freshId "block")) }) := by
        simp only [name_eq_place, bind_of_eq (show get c = (some c, c) from rfl), hv, hf]
        exact bind_of_eq hplace
      rw [he]
      exact ⟨.of_enlarged hw, by rintro _ ⟨⟩; exact ⟨_, hs'⟩⟩

theorem opening_opens {e : Expr} (h : e.isComposite = true) :
    Opens e.opening e.operands.length := by
  cases e with
  | literal value span => cases h
  | name x span => cases h
  | paren inner span => cases h
  | unary op opSpan e span => exact unaryOpening_opens op opSpan e.span
  | binary op opSpan left right span => exact binaryOpening_opens op opSpan right.span
  | call f arguments span =>
    have hopens := callOpening_opens f span (arguments.map Expr.span)
    rwa [List.length_map] at hopens

/-- Every expression writes what belongs to the script, and the scope of its slot comes to stand
after one slot. -/
theorem expression_evaluates (e : Expr) : Evaluates (expression e) := by
  have hcomposite : e.isComposite = true → Evaluates (expression e) := by
    intro h
    rw [expression_eq h]
    exact (opening_opens h).evaluates fun e' he =>
      have := Evaluation.sizeOf_lt_of_mem_operands he
      expression_evaluates e'
  cases e with
  | literal value span =>
    intro c σ A k F pre s a i slot rest hr hA hfree hi
    rw [expression]
    exact .of_target hr rfl (by rintro _ ⟨⟩; rfl)
  | name x span =>
    rw [expression]
    exact name_evaluates x span
  | paren inner span =>
    rw [expression]
    exact expression_evaluates inner
  | unary op opSpan e span => exact hcomposite rfl
  | binary op opSpan left right span => exact hcomposite rfl
  | call f arguments span => exact hcomposite rfl
termination_by sizeOf e

end Emit
end ScriptBlocks
