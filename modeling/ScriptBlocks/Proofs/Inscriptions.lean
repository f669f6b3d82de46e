import ScriptBlocks.Proofs.Openings
import ScriptBlocks.Proofs.Scripts
import ScriptBlocks.Proofs.Variables

/-!
# What statements write

A statement places its block at the end of the script at hand and compiles operands into the slots
of the block. The body of a conditional is a script of its own until its first block gets the
conditional as its parent. So statements too write nothing but blocks with a parent and blocks of
the script, as long as there are no errors.
-/
namespace ScriptBlocks

variable {ref : VariableRef} {X : String → Prop} {v : Variable} {sig : Signature} {env : Env}
variable {trees : List Tree}

/-- Blocks that follow another have a parent. -/
theorem Chain.exists_parent {g : LinkMap} {p x : String} {ids : List String} {after : Option String}
    (h : Chain g (some p) ids after) (hx : x ∈ ids) : ∃ l q, g x = some l ∧ l.parent = some q := by
  induction ids generalizing p with
  | nil => simp at hx
  | cons y rest ih =>
    obtain ⟨⟨l, hl, hparent, -⟩, hrest⟩ := h
    obtain rfl | hx := List.mem_cons.1 hx
    · exact ⟨l, p, hl, hparent⟩
    · exact ih hrest hx

theorem Target.Persists.declares {t t' : Target} (h : t.Persists t') (hd : t.Declares ref) :
    t'.Declares ref := by
  obtain ⟨v, hv, rfl⟩ := hd
  obtain ⟨v', hv', hrefs, -⟩ := h.vars hv
  exact ⟨v', hv', hrefs⟩

namespace Compilation

variable {c c' : Compilation} {σ : Script} {ids new : List String} {O : String → Prop}

/-- The return variable of the function being compiled is a variable of the target. -/
def Answered (c : Compilation) : Prop :=
  ∀ ⦃s ref⦄, c.function = some s → s.returnVariable = some ref → c.target.Declares ref

/-- Only a `return` gives a function its variable. -/
theorem Answered.steady (h : c.Answered) (hs : Steady X c c')
    (hd : ∀ {ref}, c.target.Declares ref → c'.target.Declares ref) : c'.Answered := by
  intro s' ref hs' href
  have hf := hs.function
  rw [hs', Option.map_some] at hf
  obtain ⟨s, hfs, hout⟩ := Option.map_eq_some_iff.1 hf.symm
  have hvar : s.returnVariable = s'.returnVariable := (congrArg Prod.snd hout :)
  exact hd (h hfs (hvar.trans href))

/-- A statement can be compiled at the end of the script. -/
structure Poised (σ : Script) (ids : List String) (c : Compilation) : Prop where
  good : c.inference.Good
  sited : Sited c.target σ [] ids
  tidy : c.target.Tidy
  answered : c.Answered

/-- Contexts and the depth of branches play no role. -/
theorem Poised.of_eq (h : c.Poised σ ids) {d : Compilation} (hp : d.project = c.project)
    (hf : d.function = c.function) : d.Poised σ ids := by
  obtain ⟨project, function, depth, contexts⟩ := d
  cases hp
  cases hf
  exact ⟨h.good, h.sited, h.tidy, h.answered⟩

/-- The state after a statement. -/
theorem Poised.later (h : c.Poised σ ids) (he : Extended σ ids new O c c') (hw : c.Writes σ c')
    (ha : c'.Answered) : c'.Poised σ (ids ++ new) where
  good := he.runs.good
  sited := he.runs.sited
  tidy := h.tidy.later hw he.persists.functions
  answered := ha

/-- A step that changes neither blocks nor names. -/
theorem Poised.quiet (h : c.Poised σ ids) {α : Type} {r : Option α × Compilation}
    (hq : Quietly c r) (ht : r.2.target = c.target) (hf : r.2.function = c.function) :
    r.2.Poised σ ids where
  good := hq.good
  sited := by rw [ht]; exact h.sited
  tidy := by rw [ht]; exact h.tidy
  answered := by
    intro s ref hs href
    rw [ht]
    exact h.answered (hf ▸ hs) href

/-- A variable has been created. -/
theorem Poised.created (hp : c.Poised σ ids) (x : String) {r : VariableRef × Target}
    (hr : c.target.createVariable x .unresolved = r) :
    (c.setTarget r.2).Poised σ ids ∧
      c.target.Enlarged (fun _ => False) (c.setTarget r.2).target ∧
      (c.setTarget r.2).target.Declares r.1 := by
  obtain ⟨henlarged, hdeclares⟩ := Target.createVariable_enlarged (t := c.target)
    (L := fun _ => False) hp.good.tables x .unresolved
  have he : Extended σ ids [] (fun _ => False) c (c.setTarget r.2) := by
    rw [← hr]
    exact .createVariable hp.good hp.sited x
  rw [hr, ← target_setTarget c r.2] at henlarged hdeclares
  have hs := he.runs.sited
  rw [List.append_nil] at hs
  exact ⟨⟨he.runs.good, hs, hp.tidy.later henlarged he.persists.functions,
    fun sig ref hf href => henlarged.declares (hp.answered hf href)⟩, henlarged, hdeclares⟩

end Compilation

namespace Emit

open Compilation

variable {α : Type} {c c' c₀ c₁ c₂ : Compilation} {σ : Script} {ids pre names rest : List String}
variable {s n : String} {start : Nat} {make : String → Block} {opcode : Opcode}
variable {fields : List (String × Field)} {mutation : Option Mutation} {frame : Frame α}
variable {inputs : List (String × Nat)}

/-! ### Openings -/

/-- What a statement does before its operands are compiled. -/
def Prepares (opening : Emit (Frame α)) (count : Nat) : Prop :=
  ∀ ⦃c : Compilation⦄ ⦃σ : Script⦄ ⦃ids : List String⦄, c.Poised σ ids →
    (∃ c', opening c = (none, c') ∧ c.Writes σ c') ∨
    ∃ frame c₁ s n start names more, opening c = (some frame, c₁) ∧ names.length = count ∧
      Opened σ [s] n start names more [] ids s frame c c₁

theorem Prepares.writes {opening : Emit (Frame α)} {count : Nat} (h : Prepares opening count)
    {es : List Expr} (hes : es.length = count) (hp : c.Poised σ ids) :
    c.Writes σ (around opening (expressions es) c).2 := by
  obtain ⟨c', hopen, hw⟩ | ⟨frame, c₁, s, n, start, names, more, hopen, hlen, hopened⟩ := h hp
  · simp only [around, hopen]
    exact hw
  · exact (hopened.around hopen (fun e _ => expression_evaluates e) (hlen.trans hes.symm)).1

/-- The block of a statement is placed at the end of the script. -/
theorem place_ready (hg : c.inference.Good) (hs : Sited c.target σ [] ids)
    (hshape : Shape make start names opcode fields mutation)
    (hb : ∀ n, (make n).Scripted c.target) :
    ∃ n c₀ b, place make c = (some n, c₀) ∧ Sited c₀.target σ [] (ids ++ [n]) ∧
      (c.target.Tidy → c₀.Ready σ [] ids n) ∧ Calm c c₀ ∧
      c.target.Enlarged (· ∈ [n]) c₀.target ∧ c₀.target.block? n = some b ∧
      b.inputs = (make n).inputs := by
  obtain ⟨n, c₀, hplace, hplaced⟩ := place_next hshape hg hs
  obtain ⟨b, hbn, -, hin⟩ := hplaced.block
  have he : c.target.Enlarged (· ∈ [n]) c₀.target := by
    have hplace' : (some (c.target.freshId "block"), c.setTarget
      (c.target.draw.addBlock (make (c.target.freshId "block")))) = (some n, c₀) := hplace
    cases hplace'
    have hdraw : c.target.Enlarged (· ∈ [c.target.freshId "block"]) c.target.draw :=
      .of_blocks rfl rfl rfl (Nat.le_succ _)
    rw [target_setTarget]
    refine hdraw.trans (.addBlock hs.scopes_ne_nil ?_ ⟨_, hshape.id_eq _⟩
      (hdraw.scripted (hb _)) (by simp [hshape.children]) fun _ _ _ => ?_)
    · rw [hshape.id_eq]
      exact hs.fresh_block
    · rw [hshape.id_eq]
      exact List.mem_singleton_self _
  obtain ⟨hscripted, -⟩ := he.new hbn hplaced.new
  exact ⟨n, c₀, b, hplace, hplaced.runs.sited, fun htidy => ⟨hplaced.runs.good,
    hplaced.runs.sited, ⟨b, hbn, hscripted.position, hscripted.topLevel⟩,
    htidy.later he hplaced.calm.functions_eq⟩, hplaced.calm, he, hbn, hin⟩

/-- The statement itself is in its script. -/
theorem Ended.statement {r : Option α × Compilation} (h : Ended σ [] inputs (pre ++ [s]) c r) :
    Ended σ [s] inputs (pre ++ [s]) c r where
  rest := h.rest
  writes := h.writes
  loud := h.loud
  sited := by
    obtain ⟨ids', hs, hids, -⟩ := h.sited
    refine ⟨ids', hs, hids, fun _ x hx => hids x ?_⟩
    obtain rfl := List.mem_singleton.1 hx
    simp

/-- A block takes operands into its slots. -/
theorem placing_prepares (frame : String → Frame α)
    (hshape : Shape make start (names ++ rest) opcode fields mutation)
    (hp : c.Poised σ ids) (hb : ∀ n, (make n).Scripted c.target)
    (htakes : ∀ n, ∀ name ∈ names, (make n).Takes name)
    (hscopes : ∀ n, (frame n).scopes = 1)
    (hends : ∀ {n cs values c₁ c₂},
      Signature.Continues c.function c₁.function →
      Operated σ n names [] ids cs n values c₁ c₂ →
      Ended σ [n] [] (ids ++ cs ++ [n]) c₂ ((frame n).close values c₂)) :
    ∃ n c₁, placing make start frame c = (some (frame n), c₁) ∧
      Opened σ [n] n start names [] [] ids n (frame n) c c₁ := by
  obtain ⟨n, c₀, b, hplace, -, hready, hcalm, he, hbn, hin⟩ :=
    place_ready hp.good hp.sited hshape hb
  refine ⟨n, _, bind_of_eq hplace, .of_written (hscopes n) (hready hp.tidy) hcalm.rest he hbn
    ((Block.free_eq_of_inputs hin start).trans (hshape.free n))
    (fun name hname => (htakes n name hname).of_inputs hin) fun ho => hends ?_ ho⟩
  exact hcalm.function

/-- Steps on names may come before the block. -/
theorem Opened.after {loose : List String} {more : List (String × Nat)}
    (h : Opened σ loose n start names more inputs pre s frame c' c₁) (hrest : SameRest c c')
    (he : c.target.Enlarged (fun _ => False) c'.target) :
    Opened σ loose n start names more inputs pre s frame c c₁ where
  scopes := h.scopes
  ready := h.ready
  rest := hrest.trans h.rest
  enlarged := (he.mono fun _ _ _ _ _ => False.elim).trans h.enlarged
  block := h.block
  ends := h.ends

/-- A variable gets its type at the end. -/
theorem Ended.modifyVariable (hs : Sited c.target σ inputs ids) (x : String)
    {f : Variable → Variable} (hf : ∀ v, (f v).ref = v.ref) (v : α) :
    Ended σ [] inputs ids c (some v, c.setTarget (c.target.modifyVariable x f)) where
  rest := .setTarget c _
  writes := .of_enlarged (by rw [target_setTarget]; exact Target.modifyVariable_enlarged x hf)
  loud := by simp
  sited := by
    rw [target_setTarget]
    exact ⟨ids, hs.of_links rfl rfl (Nat.le_refl _), fun _ => id, fun _ _ hx => by simp at hx⟩

theorem settleVariable_ended {v : Operand} (hg : c.inference.Good) (hk : c.inference.Known v)
    (hs : Sited c.target σ inputs ids) (x : String) (span : Span) :
    Ended σ [] inputs ids c (settleVariable x v span c) := by
  rw [settleVariable]
  refine .bind hs (.expectedType hg v) fun type₀ c₀ h₀ hq₀ _ => ?_
  obtain ⟨rfl, rfl⟩ : c.inference.expected v = type₀ ∧ c = c₀ := by
    cases h₀
    exact ⟨rfl, rfl⟩
  obtain ⟨type, c₁, h₁, hq₁, htype, hvoid⟩ :=
    declaredType_quietly hg (hg.expected_ne_void hk) x span
  refine .bind hs (by rw [h₁]; exact hq₁) fun type' c' h₁' hq _ => ?_
  cases h₁.symm.trans h₁'
  have hs₁ := (hq₁.runs (O := fun _ => False) hs).sited
  refine .bind hs₁ (Quietly.expectType hq₁.good ⟨htype, hvoid⟩ [v] span).1
    fun _ c₂ _ hq₂ _ => ?_
  obtain ⟨hrest, hw, -, hsited⟩ := Ended.modifyVariable (hq₂.runs (O := fun _ => False) hs₁).sited x
    (f := ({ · with type, built := true })) (fun _ => rfl) ()
  exact ⟨hrest.trans (.log _ (.declared x type)), hw, (fun h => by cases h), hsited⟩

theorem checkAssigned_quietly (hg : c.inference.Good) (hv : v.type.IsValue) (span : Span)
    (operand : Operand) : Quietly c (checkAssigned v span operand c) := by
  refine (Quietly.assertType hg hv [operand]).1.bind fun mismatch? c' h => ?_
  have hg' : c'.inference.Good := by
    have hq := (Quietly.assertType hg hv [operand]).1
    rw [h] at hq
    exact hq.good
  cases mismatch? with
  | none => exact .pure hg' ()
  | some mismatch => exact .fail hg' rfl span

theorem storeResult_ended {v : Operand} (hg : c.inference.Good) (hk : c.inference.Known v)
    (hf : c.function = some sig) (href : sig.returnVariable = some ref)
    (hs : Sited c.target σ [] ids) (f : String) (span : Span) :
    Ended σ [] [] ids c (storeResult f ref v span c) := by
  rw [storeResult]
  obtain ⟨c₁, h₁, hq⟩ | ⟨type, c₁, s₁, h₁, hq, hf₁, -, hvar, hne, hvoid, -, htype⟩ :=
    settleResult_cases hg hf hk f span
  · rw [bind_apply, h₁]
    exact .quiet hs hq
  rw [bind_of_eq h₁]
  have henlarged : c.target.Enlarged (fun _ => False) c₁.target := hq.quiet.enlarged hq.good
  have hs₁ : Sited c₁.target σ [] ids := (hq.runs (O := fun _ => False) hs).sited
  generalize hc₂ : { c₁ with function := some { s₁ with returnType := type } } = c₂
  have htarget₂ : c₂.target = c₁.target := by rw [← hc₂]; rfl
  have he₂ : Extended σ ids [] (fun _ => False) c₁ c₂ := by
    rw [← hc₂]
    exact .modifyResult hq.good hs₁ hf₁ hvoid htype (fun _ => id)
      fun _ => .inr (by simp [hvar, href])
  have hs₂ : Sited c₂.target σ [] ids := htarget₂ ▸ hs₁
  generalize hc₃ : c₂.setTarget (c₂.target.modifyVariable ref.name ({ · with type })) = c₃
  have he₃ : Extended σ ids [] (fun _ => False) c₂ c₃ := by
    rw [← hc₃]
    exact .modifyVariable he₂.runs.good hs₂ (fun _ => rfl) (fun _ => ⟨hne, hvoid⟩) (fun _ => id)
      (.inl fun _ => rfl)
  have henlarged₃ : c.target.Enlarged (fun _ => False) c₃.target := by
    rw [← hc₃, target_setTarget, htarget₂]
    exact henlarged.trans (Target.modifyVariable_enlarged ref.name fun _ => rfl)
  have hs₃ := he₃.runs.sited
  rw [List.append_nil] at hs₃
  obtain ⟨m, c₄, b, hplace, hs₄, -, hcalm, henlarged₄, -⟩ :=
    place_ready he₃.runs.good hs₃
      (Shape.stop "this script") fun n => .plain rfl rfl rfl (by simp [Block.stop, Table.empty])
  have hrun : (modifyTarget (·.modifyVariable ref.name ({ · with type })) >>= fun _ =>
      (place fun id => .stop id "this script") >>= fun _ => (pure () : Emit Unit)) c₂ =
        (some (), c₄) := by
    rw [bind_of_eq (show modifyTarget (·.modifyVariable ref.name ({ · with type })) c₂ =
      (some (), c₃) from hc₃ ▸ rfl), bind_of_eq hplace]
    rfl
  refine hrun ▸ ⟨hq.rest.trans (he₂.rest.trans (he₃.rest.trans hcalm.rest)), ?_, by simp,
    ids ++ [m], hs₄, fun x hx => List.mem_append_left _ hx, fun _ _ hx => by simp at hx⟩
  refine .of_loose ((henlarged₃.mono fun _ _ _ _ _ => False.elim).trans henlarged₄) fun _ x hx => ?_
  exact ⟨[], ids ++ [m], hs₄, List.mem_append_right _ hx⟩

/-- A block that sets a variable of the target. -/
theorem setting_prepares (hp : c.Poised σ ids) (href : c.target.Declares ref)
    (close : Operand → Emit Unit) (hends : ∀ {n cs v c₁ c₂},
      Signature.Continues c.function c₁.function → Operated σ n ["VALUE"] [] ids cs n [v] c₁ c₂ →
      Ended σ [] [] (ids ++ cs ++ [n]) c₂ (close v c₂)) :
    ∃ n c₁, placing (.setVariable · ref .empty) 0 (fun _ => .one close) c = (some (.one close), c₁) ∧
      Opened σ [n] n 0 ["VALUE"] [] [] ids n (.one close) c c₁ := by
  have hshape : Shape (Block.setVariable · ref .empty) 0 (["VALUE"] ++ []) .setVariable
    [("VARIABLE", ⟨ref.name, some ref.id⟩)] none := .setVariable ref
  refine placing_prepares (fun _ => .one close) hshape hp (fun n => .setVariable href n)
    (fun n name _ => .setVariable n ref name) (fun _ => rfl) fun hf ho => ?_
  obtain ⟨v, rfl⟩ := List.length_eq_one_iff.1 ho.length
  exact (hends hf ho).statement

theorem declareOpening_prepares (named : Named) (span : Span) :
    Prepares (declareOpening named span) 1 := by
  intro c σ ids hp
  have hp₁ : (c.log (.declaring named.name)).Poised σ ids :=
    hp.quiet (.log hp.good _) rfl rfl
  generalize hr : (c.log (.declaring named.name)).target.createVariable named.name .unresolved = r
  let close (operand : Operand) : Emit Unit := settleVariable named.name operand span
  have hrun : declareOpening named span c =
      let c := c.log (.declaring named.name)
      if (c.target.builtVariable? named.name).isSome || c.isArgument named.name then
        fail (.variableRedeclared named.name) named.span c
      else if isFunctionName c named.name then
        fail (.variableNamedLikeFunction named.name) named.span c
      else placing (.setVariable · r.1 .empty) 0 (fun _ => .one close) (c.setTarget r.2) := by
    rw [← hr]
    simp only [declareOpening, bind_apply, log, modify, get]
    split
    · rfl
    · split
      · rfl
      · rfl
  simp only at hrun
  split at hrun
  next => exact .inl ⟨_, hrun, .of_enlarged (.refl _)⟩
  next =>
    split at hrun
    next => exact .inl ⟨_, hrun, .of_enlarged (.refl _)⟩
    next =>
      obtain ⟨hp₂, henlarged, hdeclares⟩ := hp₁.created named.name hr
      obtain ⟨n, c₁, hopen, hopened⟩ := setting_prepares hp₂ hdeclares close fun _ ho =>
        settleVariable_ended ho.runs.good (ho.known _ (by simp)) ho.runs.sited named.name span
      exact .inr ⟨_, c₁, n, n, 0, ["VALUE"], [], hrun.trans hopen, rfl,
        hopened.after ((SameRest.log c _).trans (.setTarget _ _)) henlarged⟩

/-- The operator of a combined assignment goes into the slot of the block that sets the variable. -/
theorem combinedOpening_eq (h : v.type = .number) (id : String) (op : ArithmeticOp)
    (opSpan span : Span) (c : Compilation) : combinedOpening v id op opSpan span c = (do
      openInputs id 0
      let inner ← place fun n => .arithmetic n op (.payload (.variable v.ref)) .empty
      openInputs inner 0
      let close (operand : Operand) : Emit Unit := do
        warnDivisionByZero op operand span
        expectType .number [operand] span
      pure { Frame.one close with scopes := 2 } : Emit (Frame Unit)) c := by
  simp only [combinedOpening, h, ne_eq, not_true_eq_false, ↓reduceIte, bind_apply, onTarget,
    Target.drawBlock, openInputs, place, modifyTarget, modify, target_setTarget, setTarget_setTarget,
    pure_apply]
  rw [show (c.target.enter (.inputs id 0)).draw = c.target.draw.enter (.inputs id 0) from rfl,
    show (c.target.enter (.inputs id 0)).freshId "block" = c.target.freshId "block" from rfl]

theorem combinedOpening_opened {b : Block} (hv : c₀.target.Declares v.ref)
    (htype : v.type = .number) (hready : c₀.Ready σ [] ids n) (hrest : SameRest c c₀)
    (he : c.target.Enlarged (· ∈ [n]) c₀.target) (hb : c₀.target.block? n = some b)
    (hfree : b.free 0 = ["VALUE"]) (op : ArithmeticOp) (opSpan span : Span) :
    ∃ frame c₁ q j, combinedOpening v n op opSpan span c₀ = (some frame, c₁) ∧
      Opened σ [n] q 0 ["NUM2"] [(n, j)] [] ids n frame c c₁ := by
  have hready' := hready.enter n 0
  generalize hc' : c₀.setTarget (c₀.target.enter (.inputs n 0)) = c' at hready'
  have hb' : c'.target.block? n = some b := by
    rw [← hc', target_setTarget]
    exact hb
  have hv' : c'.target.Declares v.ref := by
    rw [← hc', target_setTarget]
    exact hv
  have hrest' : SameRest c₀ c' := hc' ▸ .setTarget c₀ _
  have he' : c.target.Enlarged (· ∈ [n]) c'.target := by
    rw [← hc', target_setTarget]
    exact he.trans (.of_blocks rfl rfl rfl (Nat.le_refl _))
  have hshape := Shape.combination op (.variable v.ref)
  obtain ⟨i, input, hi, -⟩ := Block.firstUnfilled?_of_free hfree
  obtain ⟨q, k', c₁, hplace, -, -, hq, -, hsited, hgood, -, hcalm⟩ := place_input hready'.good
    hready'.sited hb' hfree hshape.fits fun n => ⟨hshape.argument n, hshape.not_starts n⟩
  obtain ⟨rfl, he₁⟩ := place_enlarged (L := (· ∈ [n])) hready'.sited hb' hi hshape.id_eq
    (.pair rfl (by simp) (by decide) (fun ref href => by cases href; exact hv')
      (.of_ne fun _ => by simp) q) (by simp [hshape.children]) hplace hq hsited
  refine ⟨_, _, q, i + 1, (combinedOpening_eq htype n op opSpan span c₀).trans
    ((bind_of_eq (show openInputs n 0 c₀ = (some (), c') from hc' ▸ rfl)).trans (bind_of_eq hplace)),
    .of_written rfl (hready'.later hgood hsited hcalm.tables he₁)
      (hrest.trans (hrest'.trans hcalm.rest)) (he'.trans he₁) hq
      (((Block.free_eq_of_inputs rfl 0).trans (hshape.free q)).trans (List.append_nil _).symm)
      (fun name _ =>
        (Block.Takes.pair (by simp) (by decide) q (.arithmetic op) .number _ _ name).of_inputs rfl)
      fun {cs values c₂} ho => ?_⟩
  obtain ⟨operand, rfl⟩ := List.length_eq_one_iff.1 ho.length
  obtain ⟨c₃, hwarn, hwarned⟩ := warnDivisionByZero_quietly ho.runs.good op operand span
  refine Ended.statement (.quiet ho.runs.sited (.bind (by rw [hwarn]; exact hwarned)
    fun _ c' hc' => ?_))
  cases hwarn.symm.trans hc'
  exact (Quietly.expectType hwarned.good (by decide) [operand] span).1

theorem assignOpening_prepares (named : Named) (op : Option ArithmeticOp) (opSpan span : Span) :
    Prepares (assignOpening named op opSpan span) 1 := by
  intro c σ ids hp
  have hlog : Quietly c ((some (), c.log (.assigning named.name op)) : Option Unit × Compilation) :=
    .log hp.good _
  have hp₁ : (c.log (.assigning named.name op)).Poised σ ids := hp.quiet hlog rfl rfl
  cases hv : (c.log (.assigning named.name op)).target.builtVariable? named.name with
  | none =>
    have hrun : assignOpening named op opSpan span c = fail (.undefinedVariable named.name) named.span
        (c.log (.assigning named.name op)) := by
      simp only [assignOpening, bind_apply, log, modify, target, hv]
    exact .inl ⟨_, hrun, .of_enlarged (.refl _)⟩
  | some v =>
    obtain ⟨hx, hbuilt⟩ := Target.builtVariable?_eq_some.1 hv
    have hvalue : v.type.IsValue := ⟨hp.good.tables.built hx hbuilt, hp.good.tables.values hx⟩
    have hdeclares : (c.log (.assigning named.name op)).target.Declares v.ref :=
      ⟨v, by rw [show v.ref.name = named.name from hp.good.tables.names hx]; exact hx, rfl⟩
    cases op with
    | none =>
      obtain ⟨n, c₁, hopen, hopened⟩ := setting_prepares hp₁ hdeclares (checkAssigned v span)
        fun _ ho => .quiet ho.runs.sited
          (checkAssigned_quietly ho.runs.good hvalue span _)
      refine .inr ⟨_, c₁, n, n, 0, ["VALUE"], [], ?_, rfl, hopened.after hlog.rest (.refl _)⟩
      rw [← hopen]
      simp only [assignOpening, bind_apply, log, modify, target, hv, placing]
    | some op =>
      have hrun : assignOpening named (some op) opSpan span c =
          ((place fun id => .setVariable id v.ref .empty) >>= fun id =>
            combinedOpening v id op opSpan span) (c.log (.assigning named.name (some op))) := by
        simp only [assignOpening, bind_apply, log, modify, target, hv]
      obtain ⟨n, c₀, b, hplace, -, hready, hcalm, he, hb, hin⟩ := place_ready hp₁.good hp₁.sited
        (Shape.setVariable v.ref) fun n => .setVariable hdeclares n
      rw [bind_of_eq hplace] at hrun
      by_cases htype : v.type = .number
      · obtain ⟨frame, c₁, q, j, hopen, hopened⟩ := combinedOpening_opened
          (Target.declares_of_tables hcalm.tables hdeclares) htype (hready hp₁.tidy) hcalm.rest he hb
          (Block.free_eq_of_inputs hin 0) op opSpan span
        exact .inr ⟨frame, c₁, n, q, 0, ["NUM2"], [(n, j)], hrun.trans hopen, rfl,
          hopened.after hlog.rest (.refl _)⟩
      · have hfail : combinedOpening v n op opSpan span c₀ =
            fail (.wrongAssignment "number" v.type.name) opSpan c₀ := by
          simp only [combinedOpening, ne_eq, htype, not_false_eq_true, ↓reduceIte]
        refine .inl ⟨_, hrun.trans hfail, .of_loose he fun hsuccess => ?_⟩
        simp [success_report (show (Problem.wrongAssignment "number" v.type.name).isWarning = false
          from rfl)] at hsuccess

/-- The return variable of the function being compiled is found or made. -/
theorem returnVariable_declares (hp : c.Poised σ ids) (hf : c.function = some sig) :
    ∃ ref c' sig', returnVariable sig c = (some ref, c') ∧ c'.function = some sig' ∧
      sig'.name = sig.name ∧ sig'.returnVariable = some ref ∧ c'.Poised σ ids ∧ SameRest c c' ∧
      c.target.Enlarged (fun _ => False) c'.target ∧ c'.target.Declares ref := by
  cases hvar : sig.returnVariable with
  | some ref =>
    exact ⟨ref, c, sig, by simp only [returnVariable, hvar]; rfl, hf, rfl, hvar, hp, .refl c, .refl _,
      hp.answered hf hvar⟩
  | none =>
    obtain ⟨ref, c', sig', hrun, hf', hname, href, he, -⟩ := returnVariable_extended hp.good hp.sited hf
    generalize hr : c.target.createVariable (Procedure.returnVariableName sig.name c.target.name)
      .unresolved = r
    obtain ⟨hp', henlarged, hdeclares⟩ := hp.created _ hr
    have hmade : returnVariable sig c =
        (some r.1, { c.setTarget r.2 with
          function := some { sig with returnVariable := some r.1 } }) := by
      simp only [returnVariable, hvar, bind_apply, target, onTarget, hr, modify, pure_apply,
        function_setTarget, hf, Option.map_some]
    cases hmade.symm.trans hrun
    have hs := he.runs.sited
    rw [List.append_nil] at hs
    refine ⟨r.1, _, sig', hrun, hf', hname, href,
      ⟨he.runs.good, hs, hp'.tidy, fun s ref hs href => ?_⟩, he.rest, henlarged, hdeclares⟩
    cases hs
    cases href
    exact hdeclares

theorem yieldOpening_prepares (span valueSpan : Span) : Prepares (yieldOpening span valueSpan) 1 := by
  intro c σ ids hp
  cases hf : c.function with
  | none =>
    have hrun : yieldOpening span valueSpan c = fail .strayReturn span c := by
      simp only [yieldOpening, bind_apply, get, hf]
    exact .inl ⟨_, hrun, .of_enlarged (.refl _)⟩
  | some sig =>
    have hlog : Quietly c ((some (), c.log (.returning sig.name)) : Option Unit × Compilation) :=
      .log hp.good _
    obtain ⟨ref, c', sig', hreturn, hf', -, href, hp', hrest, he, hdeclares⟩ :=
      returnVariable_declares (hp.quiet hlog rfl rfl) hf
    let close (operand : Operand) : Emit Unit := storeResult sig.name ref operand valueSpan
    have hrun : yieldOpening span valueSpan c =
        placing (.setVariable · ref .empty) 0 (fun _ => .one close) c' := by
      simp only [yieldOpening, bind_apply, get, hf, log, modify, hreturn]
      rfl
    obtain ⟨n, c₁, hopen, hopened⟩ := setting_prepares hp' hdeclares close
      fun hcontinues ho => by
        obtain ⟨s₁, hf₁, -, -, hvar₁⟩ := hcontinues.exists_later hf'
        obtain ⟨s₂, hf₂, -, -, hvar₂⟩ := ho.calm.function.exists_later hf₁
        exact storeResult_ended ho.runs.good (ho.known _ (by simp)) hf₂
          (hvar₂.trans (hvar₁.trans href)) ho.runs.sited sig.name valueSpan
    exact .inr ⟨_, c₁, n, n, 0, ["VALUE"], [], hrun.trans hopen, rfl,
      hopened.after (hlog.rest.trans hrest) he⟩

theorem callStatementOpening_prepares (f : String) (span : Span) (spans : List Span) :
    Prepares (callStatementOpening f span spans) spans.length := by
  intro c σ ids hp
  obtain ⟨p, hcallee, hproc, hsize⟩ | ⟨problem, -, hcallee⟩ := callee_eq c f spans.length span
  swap
  · have hrun : callStatementOpening f span spans c =
        (none, (fail problem span c : Option (Frame Unit) × _).2) := by
      simp only [callStatementOpening, bind_apply, hcallee]
      rfl
    exact .inl ⟨_, hrun, .of_enlarged (.refl _)⟩
  have hnodup : p.slotNames.Nodup := (hp.good.tables.procs hproc).1
  have hlog : Quietly c ((some (), c.log (.calling f)) : Option Unit × Compilation) :=
    .log hp.good _
  have hp₁ : (c.log (.calling f)).Poised σ ids := hp.quiet hlog rfl rfl
  let frame : Frame Unit := ⟨1, fun values => expectArguments values p.arguments.values spans⟩
  have hrun : callStatementOpening f span spans c =
      placing p.callBlock 0 (fun _ => frame) (c.log (.calling f)) := by
    simp only [callStatementOpening, bind_apply, hcallee, log, modify]
    rfl
  have hshape := Procedure.callBlock_shape hnodup
  rw [← List.append_nil p.slotNames] at hshape
  have hlength : p.arguments.values.length = p.arguments.size := by simp [Table.values, Table.size]
  obtain ⟨n, c₁, hopen, hopened⟩ := placing_prepares (fun _ => frame) hshape hp₁
    (fun n => .callBlock hproc hnodup n) (fun n name _ => .callBlock hnodup n name) (fun _ => rfl)
    fun _ ho => by
      refine Ended.statement (.quiet ho.runs.sited (expectArguments_quietly ho.runs.good
        (fun _ ha => hp.good.tables.arguments hproc ha) ?_ ?_).1)
      · rw [ho.length, Procedure.length_slotNames, hlength]
      · rw [← hsize, hlength]
  refine .inr ⟨frame, c₁, n, n, 0, p.slotNames, [], hrun.trans hopen, ?_,
    hopened.after hlog.rest (.refl _)⟩
  rw [Procedure.length_slotNames, hsize]

theorem conditional_entries (hasElse : Bool) (n : String) :
    (conditional hasElse n).inputs.entries = ("CONDITION", ⟨.boolean, .empty⟩) ::
      (bodySlots hasElse).map fun slot => (slot, ⟨.substack, .empty⟩) := by
  cases hasElse <;> rfl

theorem conditional_scripted (t : Target) (hasElse : Bool) (n : String) :
    (conditional hasElse n).Scripted t := by
  have hempty : ∀ e ∈ (conditional hasElse n).inputs.entries, e.2.value = .empty := by
    simp [conditional_entries]
  refine .plain ?_ ?_ ?_ fun e he => .of_not_payload fun v => by simp [hempty e he]
  all_goals cases hasElse <;> rfl

theorem conditional_takes (hasElse : Bool) (n : String) :
    (conditional hasElse n).Takes "CONDITION" := by
  cases hasElse <;> simp [Block.Takes, Block.slotKinds, conditional_entries, bodySlots]

theorem branchOpening_prepares (hasElse : Bool) (span : Span) :
    Prepares (branchOpening hasElse span) 1 := by
  intro c σ ids hp
  have hlog : Quietly c ((some (), c.log .branching) : Option Unit × Compilation) :=
    .log hp.good _
  have hp₁ : (c.log .branching).Poised σ ids := hp.quiet hlog rfl rfl
  let frame (id : String) : Frame String := .one fun operand => do
    expectType .boolean [operand] span
    pure id
  have hrun : branchOpening hasElse span c =
      placing (conditional hasElse) 0 frame (c.log .branching) := by
    simp only [branchOpening, bind_apply, log, modify]
    rfl
  obtain ⟨n, c₁, hopen, hopened⟩ := placing_prepares frame (conditional_shape hasElse) hp₁
    (conditional_scripted _ hasElse) (fun n _ hname => List.mem_singleton.1 hname ▸
      conditional_takes hasElse n) (fun _ => rfl) fun _ ho => by
      obtain ⟨operand, rfl⟩ := List.length_eq_one_iff.1 ho.length
      refine Ended.statement (.bind ho.runs.sited
        (Quietly.expectType ho.runs.good (by decide) [operand] span).1
        fun _ c' _ hq _ => ?_)
      exact .quiet (hq.runs (O := fun _ => False) ho.runs.sited).sited (.pure hq.good _)
  exact .inr ⟨frame n, c₁, n, n, 0, ["CONDITION"], [], hrun.trans hopen, rfl,
    hopened.after hlog.rest (.refl _)⟩

/-! ### Statements -/

/-- A step that compiles statements writes what belongs to the script. -/
def Inscribes (plain : Bool) (run : Compilation → Compilation) : Prop :=
  ∀ ⦃c : Compilation⦄ ⦃σ : Script⦄ ⦃ids : List String⦄, c.Poised σ ids →
    (plain = true ∨ c.Inside) → ∃ new, Extended σ ids new (fun _ => False) c (run c) ∧
      c.Writes σ (run c) ∧ (run c).Answered

section

variable {plain : Bool} {run run' : Compilation → Compilation} {slot : String} {b : Block}
variable {input : Input}

theorem Inscribes.nil (plain : Bool) : Inscribes plain id :=
  fun _ _ _ hp _ => ⟨[], .refl hp.good hp.sited, .refl _ _, hp.answered⟩

/-- Statements one after the other. -/
theorem Inscribes.append (h : Inscribes plain run) (h' : Inscribes plain run') :
    Inscribes plain fun c => run' (run c) := by
  intro c σ ids hp hin
  obtain ⟨new, he, hw, ha⟩ := h hp hin
  have hp' := hp.later he hw ha
  obtain ⟨new', he', hw', ha'⟩ := h' hp' (hin.imp_right he.inside)
  refine ⟨new ++ new', he.trans he' fun _ _ _ hx => hx.elim id id, ?_, ha'⟩
  exact hw.trans hw' he'.rest he.runs.sited he'.runs.sited fun x hx => List.mem_append_left _ hx

/-- A statement in its context. -/
theorem Inscribes.inContext {m : Emit α} (h : Inscribes plain fun c => (m c).2) (span : Span) :
    Inscribes plain fun c => (Emit.inContext span m c).2 := by
  intro c σ ids hp hin
  obtain ⟨new, he, hw, ha⟩ :=
    h (hp.of_eq (d := { c with contexts := span :: c.contexts }) rfl rfl) hin
  have hx := congrArg List.tail he.rest.contexts
  exact ⟨new, he.of_eq rfl rfl rfl rfl he.rest.depth hx, hw, ha⟩

theorem Inscribes.inside (h : Inscribes plain run) : Inscribes false run :=
  fun _ _ _ hp hin => h hp (.inr (hin.resolve_left (by decide)))

/-- A statement without bodies that makes no return variable. -/
theorem Inscribes.of_steady {m : Emit α} {names : List String}
    (hc : Compiles env plain (fun c => (m c).2) trees names)
    (hw : ∀ {c : Compilation} {σ ids}, c.Poised σ ids → c.Writes σ (m c).2) (hm : Steadily X m) :
    Inscribes plain fun c => (m c).2 := by
  intro c σ ids hp hin
  obtain ⟨new, hcompiled⟩ := hc hp.good hp.sited hin
  exact ⟨new, hcompiled.extended, hw hp,
    hp.answered.steady (hm c) hcompiled.extended.persists.declares⟩

/-- A body is a script of its own. -/
theorem enterBlock_begins (hg : c.inference.Good) (hs : Sound c.target)
    (hheads : ∀ {anchor h}, .sequence anchor (some h) ∈ c.target.scopes →
      ∃ b, c.target.block? h = some b) (ht : c.target.Tidy) (ha : c.Answered) :
    (enterBlock c).Poised ⟨none, c.target.scopes⟩ [] := by
  have htarget : (enterBlock c).target = c.target.enter (.after none) := c.target_setTarget _
  refine ⟨enterBlock_good hg, enterBlock_sited hs hheads, ?_, fun sig ref hf href => ?_⟩
  · rw [htarget]
    exact ⟨ht.returns, ht.housed⟩
  · rw [htarget]
    exact ha hf href

theorem enterBlock_poised (hp : c.Poised σ ids) :
    (enterBlock c).Poised ⟨none, c.target.scopes⟩ [] :=
  enterBlock_begins hp.good hp.sited.sound (exists_head hp.sited) hp.tidy hp.answered

/-- At its end a body gets the conditional as the parent of its first block. -/
theorem closeBranch_adopts {outer : Scopes} (hs : Sited c.target ⟨none, outer⟩ [] ids)
    (hb : c.target.block? n = some b) (hslot : b.inputs.get? slot = some input) (hn : n ∉ ids)
    (htop : ∀ x ∈ ids, ∀ b, c.target.block? x = some b → b.topLevel = false) :
    ∃ t, closeBranch n slot c = c.setTarget t ∧ c.target.Enlarged (fun _ => False) t ∧
      ∀ x ∈ ids, ∀ b, t.block? x = some b → b.parent ≠ none := by
  cases ids with
  | nil => exact ⟨_, closeBranch_nil hs n slot, .of_blocks rfl rfl rfl (Nat.le_refl _), by simp⟩
  | cons head rest =>
    have hne : n ≠ head := fun h => hn (h ▸ List.mem_cons_self)
    refine ⟨_, closeBranch_cons hs hb hslot hn, ?_, fun x hx bx hbx => ?_⟩
    · have hscopes : c.target.Enlarged (fun _ => False) { c.target with scopes := outer } :=
        .of_blocks rfl rfl rfl (Nat.le_refl _)
      have hfill : c.target.Enlarged (fun _ => False)
          (({ c.target with scopes := outer }).fillSlot n slot (.block head)) :=
        hscopes.trans (.fillSlot_block n slot head)
      exact hfill.trans (.adopt n (hfill.topLevel (htop head List.mem_cons_self)))
    · rw [Target.block?_hold _ hne] at hbx
      split at hbx
      · obtain ⟨b', -, rfl⟩ := Option.map_eq_some_iff.1 hbx
        simp [Target.under]
      next hxh =>
        have hxrest : x ∈ rest := (List.mem_cons.1 hx).resolve_left hxh
        rw [if_neg (show ¬ x = n from fun h => hn (h ▸ hx))] at hbx
        obtain ⟨l, q, hl, hparent⟩ := Chain.exists_parent hs.chain.2 hxrest
        rw [Target.links_eq_some (show c.target.block? x = some bx from hbx)] at hl
        cases hl
        rw [show bx.parent = some q from hparent]
        simp

/-- A body of a conditional that stands in the script. -/
theorem body_writes (hrun : Inscribes false run) (hp : c.Poised σ ids) (hin : c.Inside)
    (hb : c.target.block? n = some b) (hslot : b.inputs.get? slot = some input) :
    c.Writes σ (closeBranch n slot (run (enterBlock c))) ∧
      (closeBranch n slot (run (enterBlock c))).Answered := by
  have htarget : (enterBlock c).target = c.target.enter (.after none) := c.target_setTarget _
  obtain ⟨new, he, hw, ha⟩ := hrun (enterBlock_poised hp) (.inr hin)
  generalize run (enterBlock c) = c₂ at *
  have hs₂ : Sited c₂.target ⟨none, c.target.scopes⟩ [] new := he.runs.sited
  have hfresh : ∀ x ∈ new, c.target.block? x = none := by
    intro x hx
    have hnone := he.fresh hx
    rw [htarget] at hnone
    exact hnone
  obtain ⟨b₂, hb₂, hk⟩ := he.runs.advance.old (show (enterBlock c).target.block? n = some b by
    rw [htarget]; exact hb)
  have henter : c.target.Enlarged (fun x => c₂.project.success = false ∨ x ∈ new)
      (enterBlock c).target := by
    rw [htarget]
    exact .of_blocks rfl rfl rfl (Nat.le_refl _)
  have hbody := henter.trans (hw.mono fun x _ _ _ _ hx => hx.imp_right (·.mem hs₂))
  have hslot₂ : b₂.inputs.get? slot = some input := by rw [hk.inputs id, hslot]
  obtain ⟨t, hclose, henlarged, hparents⟩ := closeBranch_adopts hs₂ hb₂ hslot₂
    (fun hm => by simp [hfresh n hm] at hb) fun x hx bx hbx =>
      (hbody.new hbx (hfresh x hx)).1.topLevel
  rw [hclose]
  refine ⟨?_, fun sig ref hf href => ?_⟩
  · have hall := hbody.trans (henlarged.mono fun _ _ _ _ _ => False.elim)
    rw [Writes, target_setTarget]
    refine hall.mono fun x bx hbx _ hnone hx => .inl ?_
    obtain hloud | hx := hx
    · exact (SameRest.setTarget c₂ t).success_false hloud
    · exact absurd hnone (hparents x hx bx hbx)
  · rw [target_setTarget]
    exact henlarged.declares (ha hf href)

/-- The same with what is around the body. -/
theorem body_inscribed (hrun : Inscribes false run) (hp : c.Poised σ ids) (hin : c.Inside)
    (hn : n ∈ ids) (hb : c.target.block? n = some b) (hslot : (slot, .empty) ∈ b.slots)
    (hbody : isBodySlot slot = true) :
    ∃ c', closeBranch n slot (run (enterBlock c)) = c' ∧ c.Writes σ c' ∧
      Extended σ ids [] (· = n) c c' ∧ c'.Poised σ ids ∧ ∃ b', c'.target.block? n = some b' ∧
        ∀ name, name ≠ slot → (name, .empty) ∈ b.slots → (name, .empty) ∈ b'.slots := by
  obtain ⟨input, hget, hempty⟩ := exists_input hslot
  obtain ⟨hw, ha⟩ := body_writes hrun hp hin hb hget
  obtain ⟨new, he, -⟩ := hrun (enterBlock_poised hp) (.inr hin)
  obtain ⟨b₂, hb₂, hin₂, hattached, hext⟩ := body_attached hp.sited he hn hb hget hempty hbody
  obtain ⟨b', hb', -⟩ := hext.runs.advance.old hb
  have hlater := hp.later hext hw ha
  rw [List.append_nil] at hlater
  refine ⟨_, rfl, hw, hext, hlater, b', hb', fun name hname hm => ?_⟩
  have hslots : b'.slots = (b₂.fill slot (.ofHead new.head?)).slots := by
    rw [Block.slots, hattached.inputs hb']
    rfl
  rw [hslots, Block.slots_fill, Block.slots, hin₂]
  exact List.mem_map.2 ⟨(name, .empty), hm, if_neg hname⟩

end

/-! ### Conditionals -/

section

variable {body : Compilation → Compilation} {otherwise : Option (Compilation → Compilation)}

/-- The state in which the bodies of a conditional are compiled. -/
theorem branchHead_poised (hp : c.Poised σ ids) (e : Expr) (hasElse : Bool) :
    (∃ c' new, branchHead (part e) hasElse c = (none, c') ∧ c.Writes σ c' ∧ c'.Answered ∧
      Extended σ ids new (fun _ => False) c c') ∨
    ∃ n cs c' b, branchHead (part e) hasElse c =
        (some n, { c' with branchDepth := c'.branchDepth + 1 }) ∧ c.Writes σ c' ∧
      Extended σ ids (cs ++ [n]) (fun _ => False) c c' ∧ c'.Poised σ (ids ++ (cs ++ [n])) ∧
      c'.target.block? n = some b ∧ ∀ slot ∈ bodySlots hasElse, (slot, .empty) ∈ b.slots := by
  have hw : c.Writes σ (branchHead (part e) hasElse c).2 := by
    have hw : c.Writes σ (around (branchOpening hasElse e.span) (expressions [e]) c).2 :=
      (branchOpening_prepares hasElse e.span).writes rfl hp
    rw [branchHead_eq, bind_apply]
    cases hres : around (branchOpening hasElse e.span) (expressions [e]) c with
    | mk r c' =>
      rw [hres] at hw
      cases r <;> exact hw
  have hsteady := (Steadily.law (X := fun _ => False)).branchHead e hasElse c
  obtain ⟨c', new, hhead, hc⟩ | ⟨n, cs, c', b, hhead, hc, hb, hempty⟩ :=
    branchHead_compiled (part_fills .unknown e) hasElse hp.good hp.sited [] []
  all_goals rw [hhead] at hw hsteady
  · exact .inl ⟨c', new, hhead, hw, hp.answered.steady hsteady hc.extended.persists.declares,
      hc.extended⟩
  · have ha : ({ c' with branchDepth := c'.branchDepth + 1 } : Compilation).Answered :=
      hp.answered.steady hsteady hc.extended.persists.declares
    exact .inr ⟨n, cs, c', b, hhead, hw, hc.extended, hp.later hc.extended hw ha, hb, hempty⟩

theorem branch_inscribes {plain : Bool} (e : Expr) (hbody : Inscribes false body)
    (hother : ∀ run, otherwise = some run → Inscribes false run) :
    Inscribes plain fun c => (branch (part e) body otherwise c).2 := by
  intro c σ ids hp hplain
  simp only [branch_apply]
  obtain ⟨c', new, hhead, hw, ha, he⟩ | ⟨n, cs, c', b, hhead, hw, he, hp', hb, hempty⟩ :=
    branchHead_poised hp e otherwise.isSome
  · rw [hhead]
    exact ⟨new, he, hw, ha⟩
  rw [hhead]
  -- inside, one more branch is open
  have hp₁ := hp'.of_eq (d := { c' with branchDepth := c'.branchDepth + 1 }) rfl rfl
  have he₁ : Extended σ ids (cs ++ [n]) (fun _ => False)
      { c with branchDepth := c.branchDepth + 1 } { c' with branchDepth := c'.branchDepth + 1 } :=
    he.of_eq rfl rfl rfl rfl (by rw [he.rest.depth]) he.rest.contexts
  have hin₁ : ({ c' with branchDepth := c'.branchDepth + 1 } : Compilation).Inside :=
    .inr (Nat.succ_pos _)
  have hw₁ : Writes σ { c with branchDepth := c.branchDepth + 1 }
    { c' with branchDepth := c'.branchDepth + 1 } := hw
  have hn : n ∈ ids ++ (cs ++ [n]) := by simp
  have hfresh : c.target.block? n = none := he.fresh (by simp)
  -- what the bodies write comes on top of the conditional
  have step : ∀ {c₂ c₃ : Compilation}, Extended σ ids (cs ++ [n]) (fun _ => False)
        { c with branchDepth := c.branchDepth + 1 } c₂ →
      Writes σ { c with branchDepth := c.branchDepth + 1 } c₂ → c₂.Writes σ c₃ →
      Extended σ (ids ++ (cs ++ [n])) [] (· = n) c₂ c₃ →
      Extended σ ids (cs ++ [n]) (fun _ => False) { c with branchDepth := c.branchDepth + 1 } c₃ ∧
        Writes σ { c with branchDepth := c.branchDepth + 1 } c₃ := by
    intro c₂ c₃ he₂ hw₂ hw₃ he₃
    have hall : Extended σ ids (cs ++ [n] ++ []) (fun _ => False)
        { c with branchDepth := c.branchDepth + 1 } c₃ :=
      he₂.trans he₃ fun x bx hx hor => hor.elim id fun heq => by
        subst heq
        simp [show c.target.block? x = some bx from hx] at hfresh
    have hs₃ := he₃.runs.sited
    rw [List.append_nil] at hall hs₃
    exact ⟨hall, hw₂.trans hw₃ he₃.rest he₂.runs.sited hs₃ fun _ => id⟩
  have finish : ∀ {c₂ : Compilation}, Extended σ ids (cs ++ [n]) (fun _ => False)
        { c with branchDepth := c.branchDepth + 1 } c₂ →
      Writes σ { c with branchDepth := c.branchDepth + 1 } c₂ → c₂.Answered →
      ∃ new, Extended σ ids new (fun _ => False) c (endBranches n c₂) ∧
        c.Writes σ (endBranches n c₂) ∧ (endBranches n c₂).Answered := by
    intro c₂ he₂ hw₂ ha₂
    have hs₂ := he₂.runs.sited
    rw [← List.append_assoc] at hs₂
    rw [endBranches_eq hs₂]
    have hdepth : (c₂.branchDepth - 1) = c.branchDepth := by simp [he₂.rest.depth]
    exact ⟨cs ++ [n], he₂.of_eq rfl rfl rfl rfl hdepth he₂.rest.contexts, hw₂, ha₂⟩
  obtain ⟨c₂, hc₂, hw₂, he₂, hp₂, b₂, hb₂, hsame⟩ := body_inscribed hbody hp₁ hin₁ hn hb
    (hempty "SUBSTACK" (by cases otherwise <;> simp [bodySlots])) rfl
  obtain ⟨he₂', hw₂'⟩ := step he₁ hw₁ hw₂ he₂
  subst hc₂
  cases otherwise with
  | none => exact finish he₂' hw₂' hp₂.answered
  | some run =>
    obtain ⟨c₃, hc₃, hw₃, he₃, hp₃, -⟩ := body_inscribed (hother run rfl) hp₂ (he₂.inside hin₁) hn
      hb₂ (hsame "SUBSTACK2" (by decide) (hempty "SUBSTACK2" (by simp [bodySlots]))) rfl
    obtain ⟨he₃', hw₃'⟩ := step he₂' hw₂' hw₃ he₃
    subst hc₃
    exact finish he₃' hw₃' hp₃.answered

end

/-! ### All statements -/

/-- What a `return` makes is a variable of the target. -/
theorem yield_answered (hp : c.Poised σ ids) (e : Expr) (span : Span) :
    (yield span (part e) c).2.Answered := by
  cases hf : c.function with
  | none =>
    have hfail : yield span (part e) c = fail .strayReturn span c := by
      simp only [yield, bind_apply, get, hf]
    rw [hfail]
    exact hp.answered
  | some sig =>
    have hlog : Quietly c ((some (), c.log (.returning sig.name)) : Option Unit × Compilation) :=
      .log hp.good _
    obtain ⟨ref, c', sig', hreturn, hf', hname, href, hp', -⟩ :=
      returnVariable_declares (hp.quiet hlog rfl rfl) hf
    rw [yield_apply hf, bind_of_eq hreturn, ← hname]
    obtain ⟨new, hc, -⟩ := yieldInto_compiled (part_fills .unknown e) hp'.good hp'.sited hf' href
    exact hp'.answered.steady
      (Steadily.yieldInto (part e) (fun {X} => Steadily.law.expression e) sig'.name ref c')
      hc.extended.persists.declares

/-- Inside of bodies, directives and functions are only reported. -/
theorem Inscribes.of_target {names : List String} {m : Emit α}
    (hc : Compiles env false (fun c => (m c).2) trees names)
    (hm : ∀ {c : Compilation}, c.Inside → (m c).2.target = c.target ∧ (m c).2.function = c.function) :
    Inscribes false fun c => (m c).2 := by
  intro c σ ids hp hin
  obtain ⟨htarget, hfunction⟩ := hm (hin.resolve_left (by decide))
  obtain ⟨new, hcompiled⟩ := hc hp.good hp.sited hin
  refine ⟨new, hcompiled.extended, .of_enlarged ?_, fun sig ref hf href => ?_⟩
  · simp only [htarget]
    exact .refl _
  · simp only [htarget]
    exact hp.answered (hfunction ▸ hf) href

theorem declare_inscribes (named : Named) (value : Expr) :
    Inscribes true fun c => (declare named (part value) c).2 := by
  refine .of_steady (declare_compiles (part_fills .unknown value) named) (fun hp => ?_)
    (Steadily.declare (fun {X} => Steadily.law.expression value) named)
  rw [declare_eq]
  exact (declareOpening_prepares named value.span).writes rfl hp

theorem assign_inscribes (named : Named) (op : Option ArithmeticOp) (opSpan : Span) (value : Expr) :
    Inscribes true fun c => (assign named op opSpan (part value) c).2 := by
  refine .of_steady (assign_compiles (part_fills .unknown value) named op opSpan) (fun hp => ?_)
    ((Steadily.law (X := fun _ => False)).assign (Steadily.law.expression value) named op opSpan)
  rw [assign_eq]
  exact (assignOpening_prepares named op opSpan value.span).writes rfl hp

theorem yield_inscribes (value : Expr) (span : Span) :
    Inscribes true fun c => (yield span (part value) c).2 := by
  intro c σ ids hp hin
  obtain ⟨new, hc⟩ := yield_compiles (part_fills .unknown value) span hp.good hp.sited hin
  have hw : c.Writes σ (yield span (part value) c).2 := by
    rw [yield_eq]
    exact (yieldOpening_prepares span value.span).writes rfl hp
  exact ⟨new, hc.extended, hw, yield_answered hp value span⟩

theorem callStatement_inscribes (f : String) (arguments : List Expr) (span : Span) :
    Inscribes true fun c =>
      (callStatement f span (expressions arguments) (arguments.map Expr.span) c).2 := by
  refine .of_steady (callStatement_compiles (expressions_fills .unknown arguments) (by simp) f span)
    (fun hp => ?_) ((Steadily.law (X := fun _ => False)).callStatement
      (Steadily.law.expressions arguments) f span _)
  rw [callStatement_eq]
  exact (callStatementOpening_prepares f span _).writes (by simp) hp

theorem comment_inscribes (plain : Bool) (text : String) :
    Inscribes plain fun c => (comment text c).2 := by
  refine .of_steady (comment_compiles .unknown text) (fun {c σ ids} hp => .of_enlarged ?_)
    (comment_steadily (X := fun _ => False) text)
  rw [show (comment text c).2 = c.setTarget (c.target.addComment text).2 from rfl, target_setTarget]
  exact Target.addComment_enlarged text

theorem function_inscribes (name : Named) (params : List Named) (body : Compilation → Compilation) :
    Inscribes false fun c => (function name params body c).2 := by
  refine .of_target (function_compiles .unknown name params body) fun hin => ?_
  rw [function_of_inside hin]
  exact ⟨rfl, rfl⟩

theorem directive_inscribes (name : Named) : Inscribes false fun c => (directive name c).2 := by
  refine .of_target (directive_compiles .unknown name) fun hin => ?_
  rw [directive_of_inside hin]
  exact ⟨rfl, rfl⟩

mutual

/-- Every statement writes what belongs to the script. -/
theorem statement_inscribes : (s : Statement) →
    Inscribes (needsEntry s) fun c => (statement s c).2
  | .declare named value _ => declare_inscribes named value
  | .assign named op opSpan value _ => assign_inscribes named op opSpan value
  | .yield value span => yield_inscribes value span
  | .function name params body _ => function_inscribes name params (statements body)
  | .call f arguments span => callStatement_inscribes f arguments span
  | .branch condition body otherwise _ =>
    branch_inscribes condition (statements_inscribe body) (alternative_inscribes otherwise)
  | .directive name _ => directive_inscribes name
  | .comment text _ => comment_inscribes false text

theorem statements_inscribe : (body : List Statement) → Inscribes false (statements body)
  | [] => .nil false
  | s :: rest => ((statement_inscribes s).inside.inContext s.span).append (statements_inscribe rest)

theorem alternative_inscribes : (a : Alternative) →
    ∀ run, alternative a = some run → Inscribes false run
  | .none, _, h => by cases h
  | .block body, _, h => by
    cases h
    exact statements_inscribe body
  | .branch condition body otherwise span, _, h => by
    cases h
    exact (branch_inscribes condition (statements_inscribe body)
      (alternative_inscribes otherwise)).inContext span

end

end Emit
end ScriptBlocks
