import ScriptBlocks.Proofs.Operators

/-!
# Values without operands

Literals and names. The reporters of an argument are remembered, so that they can follow the type
of the argument when it is settled.
-/
namespace ScriptBlocks

variable {p : Parameter} {y : String} {xs : List String}

namespace Signature

theorem Follows.track (s : Signature) (argument x : String) : s.Follows (s.track argument x) where
  name := rfl
  definition := rfl
  prototype := rfl
  keys := Table.keys_modify ..
  ids := s.values_modify_id argument fun _ => rfl
  param {a p} hp := by
    simp only [Signature.track, Table.get?_modify]
    by_cases h : argument = a
    · exact ⟨{ p with reporters := p.reporters ++ [x] }, by simp [h, hp], fun _ => rfl,
        fun y hy => List.mem_append_left _ hy⟩
    · exact ⟨p, by simp [h, hp], fun _ => rfl, fun _ => id⟩

theorem Continues.track (function : Option Signature) (argument x : String) :
    Continues function (function.map (·.track argument x)) := by
  cases function with
  | none => exact .none
  | some s => exact .some ⟨.track s argument x, rfl, rfl⟩

/-- The parameters after a reporter has been remembered. -/
theorem get?_track {s : Signature} {argument x a : String}
    (h : (s.track argument x).arguments.get? a = some p) :
    ∃ q, s.arguments.get? a = some q ∧ p.type = q.type ∧
      ∀ y ∈ p.reporters, y ∈ q.reporters ∨ a = argument ∧ y = x := by
  simp only [Signature.track, Table.get?_modify] at h
  by_cases ha : argument = a
  · rw [if_pos ha] at h
    obtain ⟨q, hq, rfl⟩ := Option.map_eq_some_iff.1 h
    refine ⟨q, hq, rfl, fun y hy => ?_⟩
    rcases List.mem_append.1 hy with hy | hy
    · exact .inl hy
    · exact .inr ⟨ha.symm, List.mem_singleton.1 hy⟩
  · rw [if_neg ha] at h
    exact ⟨p, h, rfl, fun y hy => .inl hy⟩

end Signature

namespace Inference

variable {t t' : Target} {function : Option Signature} {argument x : String}

theorem Tracks.of_track {a : String} (h : Tracks ⟨t', function.map (·.track argument x)⟩ a y) :
    Tracks ⟨t, function⟩ a y ∨ a = argument ∧ y = x := by
  obtain ⟨s', p, hs', hp, hy⟩ := h
  obtain ⟨s, rfl, rfl⟩ := Option.map_eq_some_iff.1 hs'
  obtain ⟨q, hq, -, hr⟩ := Signature.get?_track hp
  exact (hr y hy).imp (fun hy => ⟨s, q, rfl, hq, hy⟩) id

theorem Tracks.track {s : Signature} (hs : function = some s)
    (hp : s.arguments.get? argument = some p) :
    Tracks ⟨t, function.map (·.track argument x)⟩ argument x := by
  subst hs
  refine ⟨s.track argument x, { p with reporters := p.reporters ++ [x] }, rfl, ?_, by simp⟩
  simp [Signature.track, Table.get?_modify, hp]

/-- A reporter with the type of its argument may be remembered. -/
theorem Good.track (hg : Good ⟨t, function⟩)
    (hx : ∀ s p, function = some s → s.arguments.get? argument = some p →
      ∃ b, t.block? x = some b ∧ b.argument = some argument ∧ b.inferred = p.type ∧
        b.opcode = Block.reporterOpcode p.type) :
    Good ⟨t, function.map (·.track argument x)⟩ where
  tables := hg.tables
  signature {s'} hs' := by
    obtain ⟨s, rfl, rfl⟩ := Option.map_eq_some_iff.1 hs'
    have hproper : s.Proper := hg.signature rfl
    refine ⟨?_, fun {a p} hp => ?_, hproper.result⟩
    · rw [(Signature.Follows.track s argument x).ids]
      exact hproper.ids
    · obtain ⟨q, hq, htype, -⟩ := Signature.get?_track hp
      rw [htype]
      exact hproper.params hq
  tracked {s' a p y} hs' hp hy := by
    obtain ⟨s, rfl, rfl⟩ := Option.map_eq_some_iff.1 hs'
    obtain ⟨q, hq, htype, hr⟩ := Signature.get?_track hp
    rw [htype]
    obtain hy | ⟨rfl, rfl⟩ := hr y hy
    · exact hg.tracked rfl hq hy
    · exact hx s q rfl hq

/-- Wiring, with new blocks remembered afterwards. -/
theorem Advance.remember {O C : String → Prop} {function' : Option Signature}
    (h : Rewired O C t t')
    (hnew : ∀ {a y}, Tracks ⟨t', function'⟩ a y → Tracks ⟨t, function⟩ a y ∨ t.block? y = none) :
    Advance O C ⟨t, function⟩ ⟨t', function'⟩ where
  old := (ofRewired h function).old
  new := h.new
  drawn_le := h.drawn_le
  tracked := by
    rintro y b hy ⟨a, ha⟩
    obtain ht | hn := hnew ha
    · exact ⟨a, ht⟩
    · simp [show t.block? y = some b from hy] at hn

end Inference

/-- Remembers a block if it is a reporter. -/
def Signature.trackBlock (t : Target) (function : Option Signature) (x : String) :
    Option Signature :=
  match (t.block? x).bind Block.argument with
  | some argument => function.map (·.track argument x)
  | none => function

theorem Signature.Continues.trackBlock (t : Target) (function : Option Signature) (x : String) :
    Signature.Continues function (Signature.trackBlock t function x) := by
  unfold Signature.trackBlock
  split
  · exact .track ..
  · exact .refl _

namespace Inference

/-- A reporter that has the type of its argument, if it is one. -/
def Fitting (t : Target) (function : Option Signature) (x : String) : Prop :=
  ∀ ⦃b a s p⦄, t.block? x = some b → b.argument = some a → function = some s →
    s.arguments.get? a = some p → b.inferred = p.type ∧ b.opcode = Block.reporterOpcode p.type

variable {t t₁ t₂ : Target} {function : Option Signature}

theorem Tracks.of_trackBlock {x a : String} (h : Tracks ⟨t₁, Signature.trackBlock t function x⟩ a y) :
    Tracks ⟨t₂, function⟩ a y ∨ y = x := by
  unfold Signature.trackBlock at h
  split at h
  · exact h.of_track.imp id (·.2)
  · obtain ⟨s, p, hs, hp, hy⟩ := h
    exact .inl ⟨s, p, hs, hp, hy⟩

theorem Good.trackBlock {x : String} (hg : Good ⟨t, function⟩) (hx : Fitting t function x) :
    Good ⟨t, Signature.trackBlock t function x⟩ := by
  unfold Signature.trackBlock
  split
  next a ha =>
    obtain ⟨b, hb, hba⟩ := Option.bind_eq_some_iff.1 ha
    refine hg.track fun s p hs hp => ?_
    obtain ⟨hi, ho⟩ := hx hb hba hs hp
    exact ⟨b, hb, hba, hi, ho⟩
  next => exact hg

/-- A type that fits goes on to fit while other reporters are remembered. -/
theorem Fitting.trackBlock {x : String} (hy : Fitting t function y) :
    Fitting t (Signature.trackBlock t function x) y := by
  intro b a s p hb ha hs hp
  unfold Signature.trackBlock at hs
  split at hs
  · obtain ⟨s', rfl, rfl⟩ := Option.map_eq_some_iff.1 hs
    obtain ⟨q, hq, htype, -⟩ := Signature.get?_track hp
    rw [htype]
    exact hy hb ha rfl hq
  · exact hy hb ha hs hp

theorem Tracks.of_trackAll {a : String}
    (h : Tracks ⟨t₁, xs.foldl (Signature.trackBlock t) function⟩ a y) :
    Tracks ⟨t₂, function⟩ a y ∨ y ∈ xs := by
  induction xs generalizing function with
  | nil =>
    obtain ⟨s, p, hs, hp, hy⟩ := h
    exact .inl ⟨s, p, hs, hp, hy⟩
  | cons x xs ih =>
    obtain h | hy := ih h
    · obtain h | rfl : Tracks ⟨t₂, function⟩ a y ∨ y = x := h.of_trackBlock
      · exact .inl h
      · exact .inr (List.mem_cons_self ..)
    · exact .inr (List.mem_cons_of_mem _ hy)

theorem continues_trackAll (t : Target) (function : Option Signature) (xs : List String) :
    Signature.Continues function (xs.foldl (Signature.trackBlock t) function) := by
  induction xs generalizing function with
  | nil => exact .refl _
  | cons x xs ih => exact (Signature.Continues.trackBlock t function x).trans (ih _)

theorem Good.trackAll (hg : Good ⟨t, function⟩) (hxs : ∀ x ∈ xs, Fitting t function x) :
    Good ⟨t, xs.foldl (Signature.trackBlock t) function⟩ := by
  induction xs generalizing function with
  | nil => exact hg
  | cons x xs ih =>
    exact ih (hg.trackBlock (hxs x (by simp))) fun y hy =>
      (hxs y (List.mem_cons_of_mem _ hy)).trackBlock

theorem Tracks.trackAll {x a : String} {b : Block} {s : Signature} (hx : x ∈ xs)
    (hb : t.block? x = some b) (ha : b.argument = some a) (hs : function = some s)
    (hp : s.arguments.get? a = some p) :
    Tracks ⟨t₁, xs.foldl (Signature.trackBlock t) function⟩ a x := by
  induction xs generalizing function s p with
  | nil => cases hx
  | cons y xs ih =>
    rcases List.mem_cons.1 hx with rfl | hx
    · refine Tracks.continues (t := t) ?_ (continues_trackAll t _ xs)
      have hbind : (t.block? x).bind Block.argument = some a := by rw [hb]; exact ha
      simp only [Signature.trackBlock, hbind]
      exact .track hs hp
    · have hcont := Signature.Continues.trackBlock t function y
      rw [hs] at hcont
      cases hf : Signature.trackBlock t function y with
      | none =>
        rw [hs] at hf
        rw [hf] at hcont
        cases hcont
      | some s' =>
        rw [← hs, hf, hs] at hcont
        cases hcont with
        | some hcont =>
          obtain ⟨p', hp', -⟩ := hcont.1.param hp
          exact ih hx hf hp'

end Inference

namespace Emit

open Compilation

variable {env : Env} {content : Content} {c : Compilation} {σ : Script} {A : String} {k : Nat}
variable {F : List (String × Nat)} {pre : List String} {s : String} {a : Block} {slot : String}
variable {rest : List String}

/-- A value that is no block leaves the slot for it free. -/
theorem Emitted.value {r : Option Operand × Compilation}
    (hs : Sited c.target σ ((A, k) :: F) (pre ++ [s])) (hA : c.target.block? A = some a)
    (hq : Quietly c r)
    (hv : ∀ v, r.1 = some v → (∀ n, v ≠ .block n) ∧ r.2.inference.Known v ∧
      (env.Covers c.inference →
        content.At (env.look r.2.target) (Inner c (pre ++ [s])) v.slotValue)) :
    Emitted env content [] σ A k F pre s a slot rest c r := by
  refine ⟨[], k, by simpa using hq.runs hs, hq.calm, hq.loud, fun v hrv => ?_⟩
  obtain ⟨hne, hknown, hat⟩ := hv v hrv
  obtain ⟨a', ha', hk⟩ := hq.quiet.old hA
  refine ⟨⟨a', ha', ?_⟩, ⟨by simpa using hknown, fun hcov => .cons ?_ .nil, fun _ => .nil⟩,
    .of_old fun x b hb hx => ?_⟩
  · rcases v with value | ref | n | ⟨f, result⟩
    · exact ⟨hk.inputs id, rfl⟩
    · exact ⟨hk.inputs id, rfl⟩
    · exact absurd rfl (hne n)
    · exact ⟨hk.inputs id, rfl⟩
  · simpa using hat hcov
  · simp [show r.2.target.block? x = none from hq.quiet.none hx] at hb

theorem literal_emits (env : Env) (value : Literal) :
    Emits env (pure (.literal value)) (.payload value.payload) [] := by
  intro c σ A k F pre s a slot rest hg hs hA hfree
  refine .value hs hA (.pure hg _) ?_
  rintro v ⟨⟩
  exact ⟨by simp, trivial, fun _ => rfl⟩

/-- The reporter of an argument is placed and remembered. -/
theorem reporter_emitted {name : String} {f : Signature} (hg : c.inference.Good)
    (hs : Sited c.target σ ((A, k) :: F) (pre ++ [s])) (hA : c.target.block? A = some a)
    (hfree : a.free k = slot :: rest) (hf : c.function = some f)
    (hp : f.arguments.get? name = some p) (hbuilt : c.target.builtVariable? name = none) :
    Emitted env (env.name name) [] σ A k F pre s a slot rest c
      (Emit.name name span c) := by
  obtain ⟨k', hs', hr, honly, hn, hanchor⟩ := hs.place_input hA hfree
    (b := .reporter (c.target.freshId "block") name p.type false)
    ⟨rfl, rfl, List.nodup_nil, by simp [Block.reporter, Block.children, Table.values, Table.empty]⟩
  have hnew := hs.fresh_block
  have hids := hs.fresh_not_mem
  generalize hid : c.target.freshId "block" = n at *
  generalize ht : c.target.draw.addBlock (.reporter n name p.type false) = t at *
  obtain ⟨c₂, he, hi, hrest⟩ : ∃ c₂, Emit.name name span c = (some (.block n), c₂) ∧
      c₂.inference = ⟨t, c.function.map (·.track name n)⟩ ∧ SameRest c c₂ := by
    refine ⟨{ c.setTarget t with function := c.function.map (·.track name n) }, ?_, ?_,
      (SameRest.setTarget c t).trans (.setFunction _ _)⟩
    · simp only [name_eq_place, bind_apply, get, hbuilt, hf, Option.bind_some,
        Signature.argumentType?, hp, Option.map_some]
      simp only [place, onTarget, Target.drawBlock, modify, hid, ht, pure_apply,
        function_setTarget, hf, Option.map_some]
    · exact congrArg (Inference.mk · _) (target_setTarget c t)
  rw [he]
  have htarget : c₂.target = t := congrArg Inference.target hi
  have hfunction : c₂.function = c.function.map (·.track name n) := congrArg Inference.function hi
  have htracks : c₂.inference.Tracks name n := hi ▸ .track hf hp
  refine ⟨[], k', ⟨?_, ?_, ?_, fun x hx => .inl (by simpa using hx)⟩, ⟨hrest, ?_, ?_, ?_, ?_⟩,
    by simp, ?_⟩
  · rw [htarget]
    simpa using hs'
  · rw [hi]
    refine (Inference.Good.rewired hg hr).track fun f' p' hf' hp' => ?_
    obtain rfl := Option.mem_unique hf' hf
    obtain rfl := Option.mem_unique hp' hp
    exact ⟨_, hn, rfl, rfl, rfl⟩
  · rw [hi]
    refine .remember (hr.mono (fun _ _ _ => id) fun x b _ hx => by cases hx) fun {b y} hy => ?_
    obtain hy | ⟨-, rfl⟩ := hy.of_track (t := c.target)
    · exact .inl hy
    · exact .inr hnew
  · rw [htarget, hr.tables]
  · rw [hfunction]
    exact .track c.function name n
  · intro x b arg hb hx harg
    rw [htarget] at hb
    obtain rfl : x = n := honly x b hb hx
    obtain rfl := Option.mem_unique hb hn
    obtain rfl : name = arg := Option.some.inj harg
    exact htracks
  · intro x b hb hx hst
    rw [htarget] at hb
    obtain rfl : x = n := honly x b hb hx
    obtain rfl := Option.mem_unique hb hn
    cases hst.1
  · rintro v ⟨⟩
    have htree : env.Covers c.inference →
        (env.name name).At (env.look t) (Inner c (pre ++ [s])) (.block n) := by
      intro hcov
      have hsome := hcov.arguments hf (x := name) ?_
      · obtain ⟨type, htype⟩ := Option.isSome_iff_exists.1 hsome
        have hlook : env.look t n = some _ := congrArg (Option.map env.view) hn
        simp only [Env.name, htype]
        refine ⟨⟨hnew, fun hm => hids (List.mem_append_right _ hm)⟩,
          ⟨_, hlook, ?_, rfl, rfl, trivial⟩, _, hlook, trivial⟩
        simp [Env.view, Target.under, Block.reporter, htype]
      · rw [← Table.contains_iff]
        simp [Table.contains, hp]
    refine ⟨htarget ▸ hanchor, ⟨?_, fun hcov => .cons ?_ .nil, fun _ => .nil⟩, ?_⟩
    · intro op hop
      obtain rfl := List.mem_singleton.1 hop
      refine ⟨_, htarget ▸ hn, fun arg harg => ?_, fun hnone => by cases hnone⟩
      obtain rfl : name = arg := Option.some.inj harg
      exact htracks
    · rw [htarget, List.append_nil]
      exact htree hcov
    · intro _ x b hb hx _
      rw [htarget] at hb
      obtain rfl : x = n := honly x b hb hx
      obtain rfl := Option.mem_unique hb hn
      exact trivial

theorem name_emits (env : Env) (n : String) (span : Span) :
    Emits env (name n span) (env.name n) [] := by
  intro c σ A k F pre s a slot rest hg hs hA hfree
  cases hv : c.target.builtVariable? n with
  | some v =>
    have he : name n span c = (some (.variable v.ref), c) := by
      simp only [name_eq_place, bind_apply, get, hv, pure_apply]
    rw [he]
    refine .value hs hA (.pure hg (Operand.variable v.ref)) ?_
    rintro w ⟨⟩
    have hname : v.name = n := hg.tables.names (Option.filter_eq_some_iff.1 hv).1
    refine ⟨by simp, ⟨v, ?_, rfl⟩, fun hcov => ?_⟩
    · rw [show v.ref.name = n from hname]
      exact hv
    · obtain ⟨harg, href⟩ := hcov.vars hv
      simp only [Env.name, Env.ref, harg, href]
      exact Eq.refl _
  | none =>
    cases hf : c.function with
    | none =>
      have he : name n span c = fail (.unknownName n) span c := by
        simp only [name_eq_place, bind_apply, get, hv, hf, Option.bind_none]
      rw [he]
      exact .value hs hA (.fail hg rfl span) (by rintro w ⟨⟩)
    | some f =>
      cases hp : f.arguments.get? n with
      | none =>
        have he : name n span c = fail (.unknownName n) span c := by
          simp only [name_eq_place, bind_apply, get, hv, hf, Option.bind_some,
            Signature.argumentType?, hp, Option.map_none]
        rw [he]
        exact .value hs hA (.fail hg rfl span) (by rintro w ⟨⟩)
      | some p => exact reporter_emitted hg hs hA hfree hf hp hv

end Emit
end ScriptBlocks
