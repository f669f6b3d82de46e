import ScriptBlocks.Proofs.Contents

/-!
# Scopes are released

While a statement or an expression is compiled, contexts, branches, functions and scopes are opened.
All of them are closed again, whether or not compilation succeeds. The only traces are in the
innermost scope and in the head of the sequence around it: a statement moves the innermost sequence
on, and a value moves the innermost input scope past one free slot.
-/
namespace ScriptBlocks

variable {params : List Named} {body : List Statement} {span : Span} {source sprite : String}

/-- What a function under compilation has from its start on. -/
def Signature.identity (s : Signature) : String × String × String × List String × List String :=
  (s.name, s.definition, s.prototype, s.arguments.keys, s.arguments.values.map Parameter.id)

theorem Signature.Develops.identity {f f' : Option Signature} (h : Develops f f') :
    f'.map Signature.identity = f.map Signature.identity := by
  cases h with
  | none => rfl
  | some h =>
    have hf := h.follows
    simp only [Option.map_some, Signature.identity, hf.name, hf.definition, hf.prototype, hf.keys,
      hf.ids]

/-- The scopes before and after a statement: the innermost is a sequence, and it has moved on. -/
inductive Scopes.Moved : Scopes → Scopes → Prop
  | empty : Moved [] []
  | sequence (anchor head anchor' head' : Option String) (outer : Scopes) :
      Moved (.sequence anchor head :: outer) (.sequence anchor' head' :: outer)

/-- The scopes before and after an expression. The innermost belongs to the slots of `A` and has gone
from `k` to `k'`, and the sequence around may have got another head. -/
inductive Scopes.Filled (A : String) (k k' : Nat) : Scopes → Scopes → Prop
  | intro (inputs : List (String × Nat)) (anchor head head' : Option String) (outer : Scopes) :
      Filled A k k' (.inputs A k :: (inputScopes inputs ++ .sequence anchor head :: outer))
        (.inputs A k' :: (inputScopes inputs ++ .sequence anchor head' :: outer))

/-- From `k` to `k'` a block has exactly one unfilled slot, and that is the last of them. -/
def Block.Passes (b : Block) (k k' : Nat) : Prop :=
  ∃ filled slot later, b.inputs.entries.drop k = filled ++ slot :: later ∧
    (∀ e ∈ filled, e.2.isFilled = true) ∧ slot.2.isFilled = false ∧ k' = k + filled.length + 1

theorem Block.passes_of_firstUnfilled? {b : Block} {k i : Nat} {slot : String}
    (h : b.firstUnfilled? k = some (i, slot)) : b.Passes k (i + 1) := by
  obtain ⟨⟨⟨name, input⟩, j⟩, hfind, hpair⟩ := Option.map_eq_some_iff.1 h
  cases hpair
  obtain ⟨hfree, before, after, heq, hbefore⟩ := List.find?_eq_some_iff_append.1 hfind
  have hindex : j = k + before.length := by
    have hget : (b.inputs.entries.zipIdx.drop k)[before.length]? = some ((name, input), j) := by
      rw [heq, List.getElem?_append_right (Nat.le_refl _)]
      simp
    rw [List.getElem?_drop, List.getElem?_zipIdx] at hget
    obtain ⟨e, -, he⟩ := Option.map_eq_some_iff.1 hget
    have := congrArg Prod.snd he
    simpa using this.symm
  refine ⟨before.map Prod.fst, (name, input), after.map Prod.fst, ?_, fun e he => ?_, ?_, ?_⟩
  · have hmap := congrArg (List.map Prod.fst) heq
    rw [List.map_drop, List.zipIdx_map_fst] at hmap
    simpa using hmap
  · obtain ⟨e', he', rfl⟩ := List.mem_map.1 he
    simpa using hbefore e' he'
  · simpa using hfree
  · rw [hindex, List.length_map]

namespace Compilation

variable {c c' : Compilation} {σ : Script} {ids new : List String} {O : String → Prop}

/-- What has been opened is closed. -/
structure Releases (c c' : Compilation) : Prop where
  contexts : c'.contexts = c.contexts
  depth : c'.branchDepth = c.branchDepth
  function : c'.function.map Signature.identity = c.function.map Signature.identity

theorem Extended.releases (h : Extended σ ids new O c c') : c.Releases c' :=
  ⟨h.rest.contexts, h.rest.depth, h.function.identity⟩

theorem Calm.releases (h : Calm c c') : c.Releases c' :=
  ⟨h.rest.contexts, h.rest.depth, (Signature.Develops.of_continues h.function).identity⟩

end Compilation

namespace Sited

variable {t t' : Target} {σ : Script} {F : List (String × Nat)} {ids ids' pre pre' : List String}

theorem moved (h : Sited t σ [] ids) (h' : Sited t' σ [] ids') :
    Scopes.Moved t.scopes t'.scopes := by
  obtain ⟨head, hscopes, -⟩ := h.scopes
  obtain ⟨head', hscopes', -⟩ := h'.scopes
  rw [hscopes, hscopes']
  exact .sequence _ _ _ _ _

/-- The statement at the end of the script stays the anchor. -/
theorem filled {A s : String} {k k' : Nat} (h : Sited t σ ((A, k) :: F) (pre ++ [s]))
    (h' : Sited t' σ ((A, k') :: F) (pre' ++ [s])) : Scopes.Filled A k k' t.scopes t'.scopes := by
  obtain ⟨head, hscopes, -⟩ := h.scopes
  obtain ⟨head', hscopes', -⟩ := h'.scopes
  rw [← List.append_assoc, List.getLast?_concat] at hscopes hscopes'
  rw [hscopes, hscopes']
  exact .intro F _ _ _ _

end Sited

namespace Compilation

variable {c c' : Compilation} {ids : List String}

/-- The scopes of the main script between two statements at the top of a program. -/
theorem Between.moved {ids' : List String} (h : c.Between ids)
    (h' : c'.Between ids') (hentry : c'.target.entry = c.target.entry) :
    Scopes.Moved c.target.scopes c'.target.scopes := by
  cases he : c.target.entry with
  | none =>
    rw [(h.idle he).1, (h'.idle (hentry.trans he)).1]
    exact .empty
  | some e => exact (h.started he).1.moved (h'.started (hentry.trans he)).1

end Compilation

open Compilation

/-! ### Visits -/

namespace Visit

/-- A statement is visited at the end of a script, or between the scripts of a program. -/
inductive Placed (v : Visit) : Prop
  | inner {σ : Script} {ids : List String} (h : v.state.Poised σ ids)
      (hin : Emit.needsEntry v.statement = true ∨ v.state.Inside)
  | between {ids : List String} (h : v.state.Assembled ids)
      (hs : Emit.needsEntry v.statement = false)

variable {v : Visit} {c : Compilation} {σ : Script} {ids : List String}

theorem sequence_placed (hp : c.Poised σ ids) (hin : c.Inside) (body : List Statement) :
    ∀ w ∈ sequence body c, w.Placed := by
  induction body generalizing c ids with
  | nil => simp [sequence]
  | cons s rest ih =>
    rw [sequence, List.forall_mem_cons]
    obtain ⟨new, he, hw, ha⟩ := (Emit.statement_inscribes s).inside.inContext s.span hp (.inr hin)
    exact ⟨.inner hp (.inr hin), ih (hp.later he hw ha) (he.inside hin)⟩

theorem ofAlternative_placed (hp : c.Poised σ ids) (hin : c.Inside) (otherwise : Alternative) :
    ∀ w ∈ ofAlternative otherwise c, w.Placed := by
  cases otherwise with
  | none => simp [ofAlternative]
  | block body => exact sequence_placed hp hin body
  | branch condition body otherwise span =>
    intro w hw
    obtain rfl := List.mem_singleton.1 hw
    exact .inner hp (.inr hin)

/-- The bodies of a conditional are scripts of their own. -/
theorem branch_poised (hp : c.Poised σ ids) (condition : Expr) (body : List Statement)
    (otherwise : Alternative) {n : String} {c' : Compilation}
    (hhead : Emit.branchHead (Emit.part condition) (Emit.alternative otherwise).isSome c =
      (some n, c')) :
    let between := Emit.closeBranch n "SUBSTACK" (Emit.statements body (Emit.enterBlock c'))
    ((Emit.enterBlock c').Poised ⟨none, c'.target.scopes⟩ [] ∧ (Emit.enterBlock c').Inside) ∧
      (Emit.enterBlock between).Poised ⟨none, between.target.scopes⟩ [] ∧
      (Emit.enterBlock between).Inside := by
  obtain ⟨c₁, new, hnone, -⟩ | ⟨n', cs, c₁, b, hsome, -, -, hp', hb, hempty⟩ :=
    Emit.branchHead_poised hp condition (Emit.alternative otherwise).isSome
  · cases hnone.symm.trans hhead
  cases hsome.symm.trans hhead
  have hp₁ := hp'.of_eq (d := { c₁ with branchDepth := c₁.branchDepth + 1 }) rfl rfl
  have hin₁ : ({ c₁ with branchDepth := c₁.branchDepth + 1 } : Compilation).Inside :=
    .inr (Nat.succ_pos _)
  obtain ⟨c₂, rfl, -, he₂, hp₂, -⟩ := Emit.body_inscribed (Emit.statements_inscribe body) hp₁ hin₁
    (by simp) hb (hempty "SUBSTACK" (by cases (Emit.alternative otherwise).isSome <;> decide)) rfl
  exact ⟨⟨Emit.enterBlock_poised hp₁, hin₁⟩, Emit.enterBlock_poised hp₂, he₂.inside hin₁⟩

theorem branch_placed (hp : c.Poised σ ids) (condition : Expr) (body : List Statement)
    (otherwise : Alternative) (span : Span) :
    ∀ w ∈ children ⟨.branch condition body otherwise span, c⟩, w.Placed := by
  intro w hw
  simp only [children] at hw
  have hp₀ := hp.of_eq (d := start ⟨.branch condition body otherwise span, c⟩) rfl rfl
  split at hw
  next n c' hhead =>
    obtain ⟨⟨hp₁, hin₁⟩, hp₂, hin₂⟩ := branch_poised hp₀ condition body otherwise hhead
    obtain hw | hw := List.mem_append.1 hw
    · exact sequence_placed hp₁ hin₁ body w hw
    · exact ofAlternative_placed hp₂ hin₂ otherwise w hw
  next => cases hw

/-- Only between scripts a function gets to its body. -/
theorem Placed.function_poised {name : Named} (h : Placed ⟨.function name params body span, c⟩)
    {c' : Compilation}
    (hhead : Emit.functionHead name params (start ⟨.function name params body span, c⟩) =
      (some (), c')) :
    (Emit.enterBlock c').Poised ⟨none, c'.target.scopes⟩ [] ∧ (Emit.enterBlock c').Inside := by
  cases h with
  | inner hp hin =>
    have hin' : Inside (start ⟨.function name params body span, c⟩) :=
      hin.resolve_left (by simp [Emit.needsEntry])
    cases (Emit.functionHead_of_inside hin' name params).symm.trans hhead
  | between h hs =>
    have hb : Between _ (start ⟨.function name params body span, c⟩) := h.between.of_eq rfl rfl rfl
    obtain ⟨c₁, hnone, -⟩ | ⟨s, c₁, hsome, hannounced⟩ :=
      Emit.functionHead_cases hb.function hb.depth name params
    · cases hnone.symm.trans hhead
    · cases hsome.symm.trans hhead
      exact hannounced.poised hb.good hb.sound hb.exists_head h.arranged.tidy

theorem function_placed {name : Named} (h : Placed ⟨.function name params body span, c⟩) :
    ∀ w ∈ children ⟨.function name params body span, c⟩, w.Placed := by
  intro w hw
  simp only [children] at hw
  split at hw
  next c' hhead =>
    obtain ⟨hp, hin⟩ := h.function_poised hhead
    exact sequence_placed hp hin body w hw
  next => cases hw

theorem Placed.children (h : v.Placed) : ∀ w ∈ v.children, w.Placed := by
  obtain ⟨s, c⟩ := v
  cases s with
  | function name params body span => exact function_placed h
  | branch condition body otherwise span =>
    cases h with
    | inner hp hin => exact branch_placed hp condition body otherwise span
    | between h hs => cases hs
  | _ => simp [Visit.children]

theorem program_placed (h : c.Assembled ids) (statements : List Statement) :
    ∀ v ∈ program statements c, v.Placed := by
  induction statements generalizing c ids with
  | nil => simp [program]
  | cons s rest ih =>
    rw [program, List.forall_mem_cons]
    obtain ⟨ids', h'⟩ := Emit.visit_assembled h s
    refine ⟨?_, ih h'⟩
    cases hs : Emit.needsEntry s with
    | true =>
      obtain ⟨e, he⟩ := h.between.ensureEntry.entry
      exact .inner (h.ensureEntry.poised he) (.inl hs)
    | false => exact .between h hs

theorem placed_of_mem_ofSource (h : v ∈ ofSource source sprite) : v.Placed := by
  unfold ofSource at h
  split at h
  next p hp =>
    obtain ⟨u, hu, hvu⟩ := List.mem_flatMap.1 h
    exact forall_mem_all (fun v hv => hv.children) (program_placed (.new sprite) _ u hu) v hvu
  next => cases h

/-- Every visit closes what it has opened. -/
theorem Placed.released (h : v.Placed) :
    v.start.Releases v.handled.2 ∧ v.state.Releases v.after ∧
      Scopes.Moved v.state.target.scopes v.after.target.scopes := by
  have hstart : ∀ {c'}, v.start.Releases c' →
      v.state.Releases { c' with contexts := c'.contexts.tail } := fun h =>
    ⟨congrArg List.tail h.contexts, h.depth, h.function⟩
  cases h with
  | inner hp hin =>
    obtain ⟨new, he, -⟩ :=
      Emit.statement_inscribes v.statement (hp.of_eq (d := v.start) rfl rfl) hin
    exact ⟨he.releases, hstart he.releases, hp.sited.moved he.runs.sited⟩
  | between h hs =>
    have hb : Between _ v.start := h.between.of_eq rfl rfl rfl
    obtain ⟨ids', h'⟩ := Emit.visit_assembled h v.statement
    rw [hs] at h'
    have hb' : Between ids' v.handled.2 := h'.between.of_eq rfl rfl rfl
    obtain ⟨hentry, hcontexts⟩ := Emit.statement_apart hb hs
    have hreleases : v.start.Releases v.handled.2 :=
      ⟨hcontexts, hb'.depth.trans hb.depth.symm, by rw [hb'.function, hb.function]⟩
    have hmoved : Scopes.Moved v.start.target.scopes v.handled.2.target.scopes :=
      hb.moved hb' hentry
    exact ⟨hreleases, hstart hreleases, hmoved⟩

end Visit

/-! ### Evaluations -/

namespace Evaluation

variable {c : Compilation} {σ : Script} {A s : String} {k : Nat} {F : List (String × Nat)}
variable {ids pre names rest : List String} {a : Block} {w : Evaluation} {es : List Expr}

/-- An expression is compiled into a free slot of the innermost scope. -/
inductive Placed (w : Evaluation) : Prop
  | intro {σ : Script} {A s slot : String} {k : Nat} {F : List (String × Nat)}
      {pre rest : List String} {a : Block} (hr : w.state.Ready σ ((A, k) :: F) pre s)
      (hA : w.state.target.block? A = some a) (hfree : a.free k = slot :: rest)
      (htakes : a.Takes slot)

theorem sequence_placed (hr : c.Ready σ ((A, k) :: F) pre s) (hA : c.target.block? A = some a)
    (hfree : a.free k = names ++ rest) (htakes : ∀ name ∈ names, a.Takes name)
    (hlen : names.length = es.length) :
    ∀ w ∈ sequence es c, w.Placed := by
  induction es generalizing c k pre a names with
  | nil => simp [sequence]
  | cons e es ih =>
    obtain ⟨slot, names, rfl⟩ := List.exists_cons_of_length_eq_add_one hlen
    rw [List.forall_mem_cons] at htakes
    rw [sequence, List.forall_mem_cons]
    refine ⟨.intro hr hA hfree htakes.1, ?_⟩
    cases hv : filled ⟨e, c⟩ with
    | mk r c' =>
      cases r with
      | none => simp
      | some v =>
        obtain ⟨cs, k', a', -, -, -, hr', hA', hfree', hkinds⟩ :=
          (Emit.expression_evaluates e).next hr hA hfree htakes.1 hv
        exact ih hr' hA' hfree' (fun name hname => (htakes.2 name hname).of_kinds hkinds)
          (Nat.succ.inj hlen)

/-- An operator or a call has a free slot for each of its operands. -/
theorem Placed.children (h : w.Placed) : ∀ u ∈ w.children, u.Placed := by
  intro u hu
  obtain ⟨e, c⟩ := w
  obtain ⟨hr, hA, hfree, htakes⟩ := h
  unfold Evaluation.children at hu
  split at hu
  next inner span he =>
    obtain rfl := List.mem_singleton.1 hu
    exact .intro hr hA hfree htakes
  next hparen =>
    split at hu
    next frame c₁ hopen =>
      have hcomposite : e.isComposite = true := by
        cases e <;> first | rfl | cases hopen
      obtain ⟨i, input, hi, -⟩ := Block.firstUnfilled?_of_free hfree
      obtain ⟨c', hnone, -⟩ | ⟨frame', c', loose, n, start, names, j, hsome, hlen, hopened, -⟩ :=
        Emit.opening_opens hcomposite hr hA hfree hi
      · cases hopen.symm.trans hnone
      · cases hopen.symm.trans hsome
        obtain ⟨b, rest, hb, hfree', htakes'⟩ := hopened.block
        exact sequence_placed hopened.ready hb hfree' htakes' hlen u hu
    next => cases hu

/-- The block of a statement has a free slot for each of its operands. -/
theorem placed_of_prepares {α : Type} {opening : Emit (Emit.Frame α)}
    (h : Emit.Prepares opening es.length) (hp : c.Poised σ ids) {c' : Compilation}
    (hopen : (do let _ ← opening : Emit Unit) c = (some (), c')) :
    ∀ w ∈ sequence es c', w.Placed := by
  obtain ⟨c₁, hnone, -⟩ | ⟨frame, c₁, s, n, start, names, more, hsome, hlen, hopened⟩ := h hp
  · rw [Emit.bind_apply, hnone] at hopen
    cases hopen
  · rw [Emit.bind_apply, hsome] at hopen
    cases hopen
    obtain ⟨b, rest, hb, hfree, htakes⟩ := hopened.block
    exact sequence_placed hopened.ready hb hfree htakes hlen

theorem placed_of_prepare {st : Statement} (hp : c.Poised σ ids) {c' : Compilation}
    (h : st.prepare c = (some (), c')) : ∀ w ∈ sequence st.operands c', w.Placed := by
  cases st with
  | declare named value span =>
    exact placed_of_prepares (Emit.declareOpening_prepares named value.span) hp h
  | assign named op opSpan value span =>
    exact placed_of_prepares (Emit.assignOpening_prepares named op opSpan value.span) hp h
  | yield value span => exact placed_of_prepares (Emit.yieldOpening_prepares span value.span) hp h
  | call f arguments span =>
    have hprepares := Emit.callStatementOpening_prepares f span (arguments.map Expr.span)
    rw [List.length_map] at hprepares
    exact placed_of_prepares hprepares hp h
  | branch condition body otherwise span =>
    exact placed_of_prepares (Emit.branchOpening_prepares _ condition.span) hp h
  | _ => cases h

theorem placed_of_mem_evaluations {v : Visit} (hv : v.Placed) (hw : w ∈ v.evaluations) :
    w.Placed := by
  unfold Visit.evaluations at hw
  split at hw
  next c hprepare =>
    obtain ⟨u, hu, hwu⟩ := List.mem_flatMap.1 hw
    refine forall_mem_all (fun w h => h.children) ?_ w hwu
    cases hv with
    | inner hp _ => exact placed_of_prepare (hp.of_eq (d := v.start) rfl rfl) hprepare u hu
    | between _ hs =>
      obtain ⟨st, c⟩ := v
      cases st with
      | function | directive | comment => cases hprepare
      | _ => cases hs
  next => cases hw

theorem placed_of_mem_ofSource (h : w ∈ ofSource source sprite) : w.Placed := by
  obtain ⟨v, hv, hw⟩ := List.mem_flatMap.1 h
  exact placed_of_mem_evaluations (Visit.placed_of_mem_ofSource hv) hw

/-- Every evaluation closes what it has opened. -/
theorem Placed.released (h : w.Placed) :
    w.state.Releases w.result.2 ∧ w.state.Releases w.filled.2 ∧
      ∃ A b k, w.state.target.block? A = some b ∧
        (∃ k', Scopes.Filled A k k' w.state.target.scopes w.result.2.target.scopes) ∧
        ∃ k', Scopes.Filled A k k' w.state.target.scopes w.filled.2.target.scopes ∧
          (w.filled.1.isSome = true → b.Passes k k') := by
  obtain ⟨e, c⟩ := w
  obtain ⟨hr, hA, hfree, htakes⟩ := h
  rename_i σ A s slot k F pre rest a
  have hemits := Emit.expression_emits .unknown e
  obtain ⟨i, input, hi, -⟩ := Block.firstUnfilled?_of_free hfree
  have hfree' : a.free k = [slot] ++ rest := hfree
  obtain ⟨cs, j, hruns, hcalm, -⟩ := hemits hr.good hr.sited hA hfree
  obtain ⟨cs', k', hruns', hcalm', -⟩ := hemits.operand e.span hr.good hr.sited hA hfree' rfl
  refine ⟨hcalm.releases, hcalm'.releases, A, a, k, hA, ⟨j, hr.sited.filled hruns.sited⟩, k',
    hr.sited.filled hruns'.sited, fun hsome => ?_⟩
  obtain ⟨v, hv⟩ := Option.isSome_iff_exists.1 hsome
  obtain ⟨ids, hs⟩ :=
    ((Emit.expression_evaluates e).operand hemits e.span hr hA hfree hi htakes).2 v hv
  obtain ⟨hinputs, -⟩ := hruns'.sited.unique hs
  cases hinputs
  exact Block.passes_of_firstUnfilled? hi

end Evaluation

/-- Every statement and every expression closes what it has opened, whether or not it is given up.
After a statement only the innermost scope, a sequence, may have moved on. After an expression only
the innermost scope and the head of the sequence around may have changed, and a value has moved the
innermost scope past exactly one unfilled slot. -/
theorem compile_releases (source sprite : String) :
    (∀ v ∈ Visit.ofSource source sprite,
      v.start.Releases v.handled.2 ∧ v.state.Releases v.after ∧
        Scopes.Moved v.state.target.scopes v.after.target.scopes) ∧
    ∀ w ∈ Evaluation.ofSource source sprite,
      w.state.Releases w.result.2 ∧ w.state.Releases w.filled.2 ∧
        ∃ A b k, w.state.target.block? A = some b ∧
          (∃ k', Scopes.Filled A k k' w.state.target.scopes w.result.2.target.scopes) ∧
          ∃ k', Scopes.Filled A k k' w.state.target.scopes w.filled.2.target.scopes ∧
            (w.filled.1.isSome = true → b.Passes k k') :=
  ⟨fun _ hv => (Visit.placed_of_mem_ofSource hv).released,
    fun _ hw => (Evaluation.placed_of_mem_ofSource hw).released⟩

/-- The sum is given up at its second operand, inside of four scopes. -/
theorem compile_releases_conditional :
    let source := "if true \x7b let x = 1 + y \x7d"
    (∃ v ∈ Visit.ofSource source "Sprite1", v.abandoned = true ∧ v.after.branchDepth = 1 ∧
      Scopes.Moved v.state.target.scopes v.after.target.scopes) ∧
    ∃ w ∈ Evaluation.ofSource source "Sprite1", ∃ A b k k', w.state.target.scopes.length = 4 ∧
      w.state.target.block? A = some b ∧
      Scopes.Filled A k k' w.state.target.scopes w.filled.2.target.scopes ∧ b.Passes k k' := by
  intro source
  obtain ⟨hvisits, hevaluations⟩ := compile_releases source "Sprite1"
  constructor
  · obtain ⟨v, hv, ha, hdepth⟩ : ∃ v ∈ Visit.ofSource source "Sprite1",
        v.abandoned = true ∧ v.state.branchDepth = 1 := by
      decide +kernel
    obtain ⟨-, hreleases, hmoved⟩ := hvisits v hv
    exact ⟨v, hv, ha, hreleases.depth.trans hdepth, hmoved⟩
  · obtain ⟨w, hw, hsome, hlength⟩ : ∃ w ∈ Evaluation.ofSource source "Sprite1",
        w.filled.1.isSome = true ∧ w.state.target.scopes.length = 4 := by
      decide +kernel
    obtain ⟨-, -, A, b, k, hb, -, k', hfilled, hpasses⟩ := hevaluations w hw
    exact ⟨w, hw, A, b, k, k', hlength, hb, hfilled, hpasses hsome⟩

end ScriptBlocks
