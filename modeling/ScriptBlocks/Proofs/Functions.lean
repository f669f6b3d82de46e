import ScriptBlocks.Proofs.Definitions
import ScriptBlocks.Proofs.Scripts

/-!
# Functions

A function draws ids for its definition and its arguments. When its body has ended, it settles what
the body has left open and is written into the graph. `Announced` is the state before the body, and
`Completed` says what holds after its end.
-/
namespace ScriptBlocks

/-- The text that identifies a procedure is its name, with a blank before the place of each
argument. -/
def Procedure.Coded (name : String) (p : Procedure) : Prop :=
  ∃ code rest, p.mutation.proccode = some code ∧ code.toList = name.toList ++ rest ∧
    ∀ c ∈ rest.head?, c = ' '

/-- Ids have been drawn, and nothing else has changed. -/
def Target.Drew (t t' : Target) : Prop :=
  ∃ n, t.drawn ≤ n ∧ t' = { t with drawn := n }

theorem Target.Drew.refl (t : Target) : t.Drew t :=
  ⟨t.drawn, Nat.le_refl _, rfl⟩

theorem Target.Drew.draw {t t' : Target} (h : t.draw.Drew t') : t.Drew t' := by
  obtain ⟨n, hn, rfl⟩ := h
  exact ⟨n, Nat.le_of_succ_le hn, rfl⟩

/-- A function of whose body nothing has been compiled. -/
structure Signature.Fresh (t : Target) (s : Signature) : Prop where
  type : s.returnType = .unresolved
  result : s.returnVariable = none
  params : ∀ {a p}, s.arguments.get? a = some p → p.type = .unresolved ∧ p.reporters = []
  ids : (s.arguments.values.map Parameter.id).Nodup
  drawn : ∀ id ∈ s.arguments.values.map Parameter.id,
    ∃ n, id = Target.idText "argument" n ∧ n ≤ t.drawn
  names : ∀ a ∈ s.arguments.keys, t.variableNamed? a = none

/-- An argument whose name is free. -/
theorem Signature.Fresh.insert {s : Signature} {t : Target} (h : s.Fresh t) {a : String}
    (ha : a ∉ s.arguments.keys) (hv : t.variableNamed? a = none) :
    ({ s with arguments := s.arguments.insert a ⟨t.freshId "argument", .unresolved, []⟩ }).Fresh
      t.draw where
  type := h.type
  result := h.result
  params {b p} hp := by
    simp only [Table.get?_insert] at hp
    split at hp
    · cases hp
      exact ⟨rfl, rfl⟩
    · exact h.params hp
  ids := by
    simp only [Table.values, Table.entries_insert_of_not_mem ha, List.map_append, List.map_cons,
      List.map_nil]
    refine List.nodup_append.2 ⟨h.ids, by simp, ?_⟩
    rintro _ hid _ hself rfl
    obtain ⟨n, rfl, hn⟩ := h.drawn _ hid
    have := Target.idText_injective (List.mem_singleton.1 hself)
    omega
  drawn id hid := by
    simp only [Table.values, Table.entries_insert_of_not_mem ha, List.map_append, List.map_cons,
      List.map_nil, List.mem_append, List.mem_singleton] at hid
    rcases hid with hid | rfl
    · obtain ⟨n, rfl, hn⟩ := h.drawn id hid
      exact ⟨n, rfl, Nat.le_succ_of_le hn⟩
    · exact ⟨_, rfl, Nat.le_refl _⟩
  names b hb := by
    simp only [Table.keys_insert_of_not_mem ha, List.mem_append, List.mem_singleton] at hb
    rcases hb with hb | rfl
    · exact h.names b hb
    · exact hv

namespace Emit

open Compilation

/-- The parameters of a function become its arguments, unless one of them is refused. -/
theorem parameters_cases (params : List Named) (s : Signature) (c : Compilation)
    (hs : s.Fresh c.target) :
    (∃ c', parameters s params c = (none, c') ∧ c.target.Drew c'.target ∧ SameRest c c' ∧
      c'.function = c.function ∧ c'.project.success = false) ∨
    ∃ s' c', parameters s params c = (some s', c') ∧ c.target.Drew c'.target ∧ SameRest c c' ∧
      c'.function = c.function ∧ s'.Fresh c'.target ∧ s'.name = s.name ∧
      s'.definition = s.definition ∧ s'.prototype = s.prototype ∧
      s'.arguments.keys = s.arguments.keys ++ params.map Named.name ∧
      ∀ id ∈ s'.arguments.values.map Parameter.id, id ∈ s.arguments.values.map Parameter.id ∨
        ∃ n, id = Target.idText "argument" n ∧ c.target.drawn < n := by
  induction params generalizing s c with
  | nil => exact .inr ⟨s, c, rfl, .refl _, .refl c, rfl, hs, rfl, rfl, rfl, by simp, fun _ => .inl⟩
  | cons parameter rest ih =>
    have hfail : ∀ problem : Problem, problem.isWarning = false →
        ∃ c', fail problem parameter.span c = ((none, c') : Option Signature × Compilation) ∧
          c.target.Drew c'.target ∧ SameRest c c' ∧ c'.function = c.function ∧
          c'.project.success = false := fun problem h =>
      ⟨_, rfl, .refl _, .report c _ _, rfl, success_report h c _⟩
    rw [parameters_cons]
    split
    · exact .inl (hfail _ rfl)
    split
    · exact .inl (hfail _ rfl)
    split
    · exact .inl (hfail _ rfl)
    · rename_i hv ha
      have hkey : parameter.name ∉ s.arguments.keys := fun hm =>
        ha ((s.arguments.contains_iff parameter.name).2 hm)
      have hvar : c.target.variableNamed? parameter.name = none := by simpa using hv
      have hdraw : (c.setTarget c.target.draw).target = c.target.draw := c.target_setTarget _
      have hinsert := hs.insert hkey hvar
      rw [← hdraw] at hinsert
      obtain ⟨c', hrun, hdrew, hrest, hf, hloud⟩ |
          ⟨s', c', hrun, hdrew, hrest, hf, hfresh, hname, hdef, hproto, hkeys, hids⟩ :=
        ih _ _ hinsert
      · rw [hdraw] at hdrew
        exact .inl ⟨c', hrun, hdrew.draw, (SameRest.setTarget c _).trans hrest, hf, hloud⟩
      · rw [hdraw] at hdrew
        refine .inr ⟨s', c', hrun, hdrew.draw, (SameRest.setTarget c _).trans hrest, hf, hfresh, hname,
          hdef, hproto, ?_, fun id hid => ?_⟩
        · rw [hkeys, Table.keys_insert_of_not_mem hkey]
          simp
        · obtain hid | ⟨n, rfl, hn⟩ := hids id hid
          · simp only [Table.values, Table.entries_insert_of_not_mem hkey, List.map_append,
              List.map_cons, List.map_nil, List.mem_append, List.mem_singleton] at hid
            exact hid.imp_right fun hid => ⟨_, hid, Nat.lt_succ_self _⟩
          · rw [hdraw] at hn
            exact .inr ⟨n, rfl, Nat.lt_of_succ_lt hn⟩

/-- The state in which the body of a function is about to be compiled. -/
structure Announced (name : Named) (params : List Named) (s : Signature) (c c' : Compilation) :
    Prop where
  drew : c.target.Drew c'.target
  rest : SameRest c c'
  function : c'.function = some s
  name_eq : s.name = name.name
  keys : s.arguments.keys = params.map Named.name
  fresh : s.Fresh c'.target
  /-- The ids of the blocks at its top have been drawn on the way. -/
  ids : ∃ d m, s.definition = Target.idText "block" d ∧ s.prototype = Target.idText "block" m ∧
    c.target.drawn < d ∧ d < m ∧ m ≤ c'.target.drawn
  numbers : ∀ id ∈ s.arguments.values.map Parameter.id,
    ∃ n, id = Target.idText "argument" n ∧ c.target.drawn < n
  variableNamed? : c.target.variableNamed? name.name = none
  functionNamed? : c.target.functionNamed? name.name = none

/-- A signature as it starts. -/
theorem fresh_start (name : String) (t : Target) :
    (Signature.start name t).1.Fresh (Signature.start name t).2 where
  type := rfl
  result := rfl
  params h := by cases h
  ids := List.nodup_nil
  drawn _ h := by cases h
  names _ h := by cases h

theorem functionHead_apply {c : Compilation} (hf : c.function = none) (hdepth : c.branchDepth = 0)
    (name : Named) (params : List Named) :
    functionHead name params c =
      let c := c.log (.defining name.name)
      if (c.target.variableNamed? name.name).isSome then
        fail (.functionNamedLikeVariable name.name) name.span c
      else if (c.target.functionNamed? name.name).isSome then
        fail (.functionRedefined name.name) name.span c
      else
        let start := Signature.start name.name c.target
        (parameters start.1 params >>= fun s => modify ({ · with function := some s }))
          (c.setTarget start.2) := by
  have hf₀ : (c.log (.defining name.name)).function = none := hf
  have hd₀ : (c.log (.defining name.name)).branchDepth = 0 := hdepth
  simp only [functionHead, functionSignature, bind_apply, log, modify, get, hf₀, hd₀,
    Option.isSome_none, Nat.lt_irrefl, decide_false, Bool.or_self, Bool.false_eq_true, ↓reduceIte]
  by_cases hvar : ((c.log (.defining name.name)).target.variableNamed? name.name).isSome
  · simp only [hvar, ↓reduceIte]
    rfl
  by_cases hfun : ((c.log (.defining name.name)).target.functionNamed? name.name).isSome
  · simp only [hvar, hfun, Bool.false_eq_true, ↓reduceIte]
    rfl
  · simp only [hvar, hfun, Bool.false_eq_true, ↓reduceIte, bind_apply, onTarget]

theorem functionHead_cases {c : Compilation} (hf : c.function = none) (hdepth : c.branchDepth = 0)
    (name : Named) (params : List Named) :
    (∃ c', functionHead name params c = (none, c') ∧ c.target.Drew c'.target ∧ SameRest c c' ∧
      c'.function = none ∧ c'.project.success = false) ∨
    ∃ s c', functionHead name params c = (some (), c') ∧ Announced name params s c c' := by
  have hfail : ∀ problem : Problem, problem.isWarning = false →
      ∃ c', (fail problem name.span : Emit Unit) (c.log (.defining name.name)) = (none, c') ∧
        c.target.Drew c'.target ∧ SameRest c c' ∧ c'.function = none ∧ c'.project.success = false :=
    fun problem h => ⟨_, rfl, .refl _, (SameRest.log c _).trans (.report _ _ _), hf,
      success_report h _ _⟩
  rw [functionHead_apply hf hdepth]
  dsimp only
  split
  · exact .inl (hfail _ rfl)
  split
  · exact .inl (hfail _ rfl)
  · rename_i hvar hfun
    let start := Signature.start name.name c.target
    have hrest : SameRest c ((c.log (.defining name.name)).setTarget start.2) :=
      (SameRest.log c _).trans (.setTarget _ _)
    have htarget : ((c.log (.defining name.name)).setTarget start.2).target = start.2 :=
      target_setTarget _ _
    have hstart : start.1.Fresh ((c.log (.defining name.name)).setTarget start.2).target := by
      rw [htarget]
      exact fresh_start name.name c.target
    obtain ⟨c', hrun, hdrew, hrest', hf', hloud⟩ |
        ⟨s, c', hrun, hdrew, hrest', hf', hfresh, hname, hdef, hproto, hkeys, hids⟩ :=
      parameters_cases params start.1 _ hstart
    · rw [htarget] at hdrew
      refine .inl ⟨c', ?_, hdrew.draw.draw, hrest.trans hrest', hf'.trans hf, hloud⟩
      exact bind_of_none hrun
    · rw [htarget] at hdrew
      refine .inr ⟨s, { c' with function := some s }, ?_, hdrew.draw.draw,
        (hrest.trans hrest').trans (.setFunction c' _), rfl, hname, ?_, hfresh, ?_,
        fun id hid => ?_, ?_, ?_⟩
      · exact bind_of_eq hrun
      · rw [hkeys]
        rfl
      · obtain ⟨n, hn, ht⟩ := hdrew
        refine ⟨c.target.drawn + 1, c.target.drawn + 2, hdef, hproto, Nat.lt_succ_self _,
          Nat.lt_succ_self _, ?_⟩
        rw [show Target.drawn (Compilation.target { c' with function := some s }) =
          c'.target.drawn from rfl, ht]
        exact hn
      · obtain hid | ⟨n, rfl, hn⟩ := hids id hid
        · cases hid
        · rw [htarget] at hn
          exact ⟨n, rfl, Nat.lt_of_succ_lt (Nat.lt_of_succ_lt hn)⟩
      · exact Option.not_isSome_iff_eq_none.1 hvar
      · exact Option.not_isSome_iff_eq_none.1 hfun

end Emit

namespace Signature

variable {s s' : Signature} {a : String}

/-- The arguments are the same later. -/
theorem Follows.exists_earlier (h : s.Follows s') {p' : Parameter}
    (hp : s'.arguments.get? a = some p') : ∃ p, s.arguments.get? a = some p := by
  refine Option.ne_none_iff_exists'.1 fun hnone => ?_
  rw [Table.get?_eq_none_iff, ← h.keys, ← Table.get?_eq_none_iff] at hnone
  simp [hnone] at hp

/-- The type of an argument is settled, if there is such an argument. -/
def Resolved (s : Signature) (a : String) : Prop :=
  ∀ p, s.arguments.get? a = some p → p.type ≠ .unresolved

theorem Follows.resolved (h : s.Follows s') (hr : s.Resolved a) : s'.Resolved a := by
  intro p' hp'
  obtain ⟨p, hp⟩ := h.exists_earlier hp'
  obtain ⟨p₁, hp₁, htype, -⟩ := h.param hp
  obtain rfl := Option.mem_unique hp₁ hp'
  rw [htype (hr p hp)]
  exact hr p hp

/-- Only a settled type can disagree. -/
theorem resolved_of_settle_error {type : ValueType} {t : Target} {mismatch : TypeMismatch}
    (h : s.settle a type t = .error mismatch) : s.Resolved a := by
  intro p hp
  simp only [settle, hp] at h
  split at h
  · cases h
  split at h
  · assumption
  · cases h

theorem resolved_of_not_mem (h : a ∉ s.unresolvedArguments) : s.Resolved a := by
  intro p hp htype
  refine h (List.mem_map.2 ⟨(a, p), List.mem_filter.2 ⟨Table.get?_eq_some_iff.1 hp, ?_⟩, rfl⟩)
  simpa using htype

end Signature

namespace Emit

open Compilation

/-- What the body of a function has left open becomes a string. -/
theorem settleArguments_settles (span : Span) (names : List String) (s : Signature)
    (c : Compilation) (hg : Inference.Good ⟨c.target, some s⟩) :
    ∃ s' c', settleArguments s span names c = (some s', c') ∧
      Inference.Quiet ⟨c.target, some s⟩ ⟨c'.target, some s'⟩ ∧
      Inference.Good ⟨c'.target, some s'⟩ ∧ SameRest c c' ∧ c'.function = c.function ∧
      ∀ a ∈ names, s'.Resolved a := by
  induction names generalizing s c with
  | nil => exact ⟨s, c, rfl, .refl _, hg, .refl c, rfl, by simp⟩
  | cons a rest ih =>
    let c₁ := c.report (.untypedArgument a s.name) (some span)
    have hrest₁ : SameRest c c₁ := .report c _ _
    rw [settleArguments_cons]
    dsimp only
    cases hsettle : s.settle a .string c₁.target with
    | ok settled =>
      obtain ⟨s₁, t₁⟩ := settled
      let c₂ := (c₁.setTarget t₁).log (.settled a s.name .string)
      have htarget : c₂.target = t₁ := c₁.target_setTarget t₁
      have hrest₂ : SameRest c c₂ := hrest₁.trans ((SameRest.setTarget c₁ t₁).trans (.log _ _))
      obtain ⟨hquiet, hg₁, htype⟩ := Inference.settle_quiet hg (by decide) rfl hsettle
      obtain ⟨s', c', hrun, hquiet', hg', hrest', hf, hresolved⟩ :=
        ih s₁ c₂ (by rwa [htarget])
      rw [htarget] at hquiet'
      refine ⟨s', c', hrun, hquiet.trans hquiet', hg', hrest₂.trans hrest', hf, ?_⟩
      rintro b (_ | ⟨_, hb⟩)
      · obtain ⟨_, ⟨⟩, hfollows, -⟩ := hquiet'.function.exists_later rfl
        refine hfollows.resolved fun p₁ hp₁ => ?_
        obtain ⟨_, ⟨⟩, hfollows₁, -⟩ := hquiet.function.exists_later rfl
        obtain ⟨p, hp⟩ := hfollows₁.exists_earlier hp₁
        obtain ⟨p₂, hp₂, hstring⟩ := htype p hp
        obtain rfl := Option.mem_unique hp₂ hp₁
        simp [hstring]
      · exact hresolved b hb
    | error mismatch =>
      obtain ⟨s', c', hrun, hquiet', hg', hrest', hf, hresolved⟩ := ih s c₁ hg
      refine ⟨s', c', hrun, hquiet', hg', hrest₁.trans hrest', hf, ?_⟩
      rintro b (_ | ⟨_, hb⟩)
      · obtain ⟨_, ⟨⟩, hfollows, -⟩ := hquiet'.function.exists_later rfl
        exact hfollows.resolved (Signature.resolved_of_settle_error hsettle)
      · exact hresolved b hb

end Emit

/-- Settling types keeps the graph linked. -/
theorem Inference.Quiet.sound {i i' : Inference} (h : i.Quiet i') (hs : Sound i.target) :
    Sound i'.target where
  linked := by
    rw [h.links_eq]
    exact hs.linked
  fresh {n} hn := by
    rw [h.shell] at hn
    exact h.none (hs.fresh hn)

namespace Signature

/-- Ids that have been drawn stay free while blocks get later ones. -/
theorem Pending.later {s s' : Signature} {t t' : Target} (h : s.Pending t) (hf : s.Follows s')
    (hdrawn : t.drawn ≤ t'.drawn)
    (hnone : ∀ n ≤ t.drawn, t.block? (Target.idText "block" n) = none →
      t'.block? (Target.idText "block" n) = none) : s'.Pending t' := by
  obtain ⟨d, m, hd, hm, hlt, hle⟩ := h.ids
  refine ⟨⟨d, m, hf.definition.trans hd, hf.prototype.trans hm, hlt, Nat.le_trans hle hdrawn⟩, ?_, ?_⟩
  · rw [hf.definition, hd]
    exact hnone d (by omega) (hd ▸ h.definition)
  · rw [hf.prototype, hm]
    exact hnone m hle (hm ▸ h.prototype)

variable (s : Signature) (body : Option String) (t : Target)

/-- The arguments of a completed function. -/
theorem build_arguments : (s.build body t).1.arguments.entries =
    s.arguments.entries.map fun e => (e.1, ⟨e.2.id, e.2.type⟩) := by
  refine Table.entries_ofEntries ?_
  rw [List.map_map]
  exact s.arguments.nodup

theorem build_argument? (a : String) : (s.build body t).1.arguments.get? a =
    (s.arguments.get? a).map fun p => ⟨p.id, p.type⟩ := by
  ext argument
  rw [Table.get?_eq_some_iff, build_arguments, List.mem_map, Option.map_eq_some_iff]
  constructor
  · rintro ⟨e, he, heq⟩
    cases heq
    exact ⟨e.2, Table.get?_eq_some_iff.2 he, rfl⟩
  · rintro ⟨p, hp, rfl⟩
    exact ⟨(a, p), Table.get?_eq_some_iff.1 hp, rfl⟩

theorem build_values : (s.build body t).1.arguments.values =
    s.arguments.values.map fun p => ⟨p.id, p.type⟩ := by
  rw [Table.values, build_arguments, Table.values, List.map_map, List.map_map]
  rfl

theorem build_coded (s : Signature) (body : Option String) (t : Target) :
    (s.build body t).1.Coded s.name := by
  have hfold (parameters : List Parameter) (code : String) : ∃ rest,
      (parameters.foldl (fun code p => code ++ if p.type = .boolean then " %b" else " %s")
        code).toList = code.toList ++ rest ∧ ∀ c ∈ rest.head?, c = ' ' := by
    induction parameters generalizing code with
    | nil => exact ⟨[], by simp, by simp⟩
    | cons p parameters ih =>
      obtain ⟨rest, hrest, -⟩ := ih (code ++ if p.type = .boolean then " %b" else " %s")
      rw [List.foldl_cons, hrest, String.toList_append, List.append_assoc]
      split
      · exact ⟨_, rfl, by simp⟩
      · exact ⟨_, rfl, by simp⟩
  obtain ⟨rest, hrest, hblank⟩ := hfold s.arguments.values s.name
  exact ⟨s.proccode, rest, rfl, hrest, hblank⟩

end Signature

namespace Emit

open Compilation

/-- A function whose body has ended in the target `t` has been completed. The types that were open
are settled in `u`. -/
structure Completed (s s' : Signature) (head : Option String) (t u : Target) (c : Compilation) :
    Prop where
  quiet : Inference.Quiet ⟨t, some s⟩ ⟨u, some s'⟩
  good : Inference.Good ⟨u, some s'⟩
  resolved : ∀ a, s'.Resolved a
  sound : Sound u
  pending : s'.Pending u
  body : ∀ x, head = some x → ∃ b, u.block? x = some b ∧ b.parent = none
  target : c.target = (s'.build head u).2.addFunction (s'.build head u).1
  function : c.function = none

variable {c c' : Compilation} {s s' : Signature} {outer : Scopes} {new : List String}
variable {head : Option String} {t u : Target}

/-- The end of the body of a function. -/
theorem closeFunction_completed (hs : Sited c.target ⟨none, outer⟩ [] new) (hg : c.inference.Good)
    (hf : c.function = some s) (hp : s.Pending c.target) (name : Named) :
    ∃ s' u c', closeFunction name c = (some (), c') ∧ SameRest c c' ∧
      Completed s s' new.head? { c.target with scopes := outer } u c' := by
  obtain ⟨last, hscopes, -, hhead⟩ := hs.scopes
  obtain rfl : last = new.head? := hhead rfl
  have hscopes : c.target.scopes = .sequence new.getLast? new.head? :: outer := hscopes
  have hexit : c.target.exit =
      (some (.sequence new.getLast? new.head?), { c.target with scopes := outer }) := by
    rw [Target.exit, hscopes]
    rfl
  let c₃ : Compilation := { c.setTarget { c.target with scopes := outer } with function := none }
  have htarget : c₃.target = { c.target with scopes := outer } := c.target_setTarget _
  have hrest₃ : SameRest c c₃ := (SameRest.setTarget c _).trans (.setFunction _ _)
  have hg₃ : Inference.Good ⟨c₃.target, some s⟩ := by
    have hr : Rewired (fun _ => False) (fun _ => False) c.target { c.target with scopes := outer } :=
      .of_blocks rfl rfl rfl
    rw [htarget, ← hf]
    exact hg.rewired hr
  obtain ⟨s', c₄, hrun, hquiet, hg₄, hrest₄, hf₄, hresolved⟩ :=
    settleArguments_settles name.span s.unresolvedArguments s c₃ hg₃
  obtain ⟨_, ⟨⟩, hfollows, -⟩ := hquiet.function.exists_later rfl
  have hall : ∀ a, s'.Resolved a := by
    intro a
    by_cases ha : a ∈ s.unresolvedArguments
    · exact hresolved a ha
    · exact hfollows.resolved (Signature.resolved_of_not_mem ha)
  rw [htarget] at hquiet
  let p := (s'.build new.head? c₄.target).1
  let c₅ := (c₄.setTarget (s'.build new.head? c₄.target).2).log (.defined name.name p.returnType)
  have hclose : closeFunction name c = (some (), c₅.setTarget (c₅.target.addFunction p)) := by
    rw [closeFunction_some hf, hexit]
    exact (bind_of_eq hrun).trans rfl
  have htarget₅ : c₅.target = (s'.build new.head? c₄.target).2 := c₄.target_setTarget _
  have hsound : Sound c₄.target := hquiet.sound ⟨hs.sound.linked, hs.sound.fresh⟩
  have hpending : s'.Pending c₄.target := by
    refine hp.later hfollows (Nat.le_of_eq ?_) fun _ _ hnone => hquiet.none hnone
    exact (congrArg Target.drawn hquiet.shell).symm
  have hbody : ∀ x, new.head? = some x → ∃ b, c₄.target.block? x = some b ∧ b.parent = none := by
    intro x hx
    cases new with
    | nil => cases hx
    | cons y rest =>
      cases hx
      obtain ⟨l, hl, hparent, -⟩ := hs.chain.1
      obtain ⟨b, hb, rfl⟩ := Target.exists_of_links hl
      obtain ⟨b', hb', hk⟩ := hquiet.old hb
      exact ⟨b', hb', (hk.parent id).trans hparent⟩
  refine ⟨s', c₄.target, _, hclose, ?_, hquiet, hg₄, hall, hsound, hpending, hbody, ?_, hf₄⟩
  · exact (hrest₃.trans hrest₄).trans
      ((SameRest.setTarget c₄ _).trans ((SameRest.log _ _).trans (.setTarget c₅ _)))
  · rw [target_setTarget, htarget₅]

namespace Completed

variable (h : Completed s s' head t u c) {x : String} {b : Block}

include h

theorem written : s'.Written head u (s'.build head u).2 :=
  Signature.build_written (h.good.signature rfl) h.pending h.sound h.body

theorem block? (x : String) : c.target.block? x = (s'.build head u).2.block? x := by
  rw [h.target]
  rfl

theorem drawn_le : t.drawn ≤ c.target.drawn := by
  have hdrawn : u.drawn = t.drawn := (congrArg Target.drawn h.quiet.shell :)
  rw [h.target, ← hdrawn]
  exact h.written.drawn_le

theorem scopes : c.target.scopes = t.scopes := by
  rw [h.target]
  exact h.written.scopes.trans (congrArg Target.scopes h.quiet.shell :)

theorem tables : (s'.build head u).2.tables = t.tables := by
  refine h.written.tables.trans ?_
  rw [show u = t.withBlocks u.blocks from h.quiet.shell]
  rfl

theorem variableNamed? (y : String) : c.target.variableNamed? y = t.variableNamed? y := by
  rw [h.target]
  exact congrArg (Table.get? · y) (congrArg Target.vars h.tables :)

theorem name : c.target.name = t.name := by
  rw [h.target]
  exact (congrArg Target.name h.tables :)

theorem entry : c.target.entry = t.entry := by
  rw [h.target]
  exact (congrArg Target.entry h.tables :)

theorem functionNamed? (f : String) :
    c.target.functionNamed? f =
      if s'.name = f then some (s'.build head u).1 else t.functionNamed? f := by
  have hfunctions : (s'.build head u).2.functions = t.functions :=
    (congrArg Target.functions h.tables :)
  rw [h.target]
  simp only [Target.functionNamed?, Target.addFunction, hfunctions]
  exact Table.get?_insert _ _ _ _

/-- The blocks of the body are kept, and its first one gets a parent. -/
theorem old (hx : t.block? x = some b) :
    ∃ b', c.target.block? x = some b' ∧ b'.next = b.next ∧
      Block.Kept False (head = some x) (Inference.Tracked ⟨t, some s⟩ x) b b' := by
  obtain ⟨b₁, hb₁, hk⟩ := h.quiet.old hx
  obtain ⟨b', hb', hcore, hin, hnext, hparent⟩ := h.written.old hb₁
  have hk' : Block.Kept False (head = some x) False b₁ b' :=
    ⟨Block.face_congr hcore, fun _ => hin, fun _ => hnext, hparent,
      fun _ => (congrArg Block.inferred hcore :), fun _ => (congrArg Block.opcode hcore :)⟩
  refine ⟨b', h.block? x ▸ hb', hnext.trans (hk.next id), ?_⟩
  exact hk.trans hk' (fun ho => ho.elim id id) (fun ho => ho.elim False.elim id) fun _ => id

/-- The new blocks are those at the top of the function. -/
theorem top (hx : c.target.block? x = some b) (hnone : t.block? x = none) :
    (x = s'.definition ∧ b.opcode = .definition ∧ b.argument = none) ∨
    (x = s'.prototype ∧ b.opcode = .prototype ∧ b.argument = none) ∨
    ∃ m a p, x = Target.idText "block" m ∧ t.drawn < m ∧ m ≤ c.target.drawn ∧
      s'.arguments.get? a = some p ∧ b.argument = some a ∧ b.inferred = p.type ∧
      b.opcode = Block.reporterOpcode p.type := by
  rw [h.block?] at hx
  have hdrawn : u.drawn = t.drawn := (congrArg Target.drawn h.quiet.shell :)
  have hdrawn' : c.target.drawn = (s'.build head u).2.drawn := (congrArg Target.drawn h.target :)
  rw [hdrawn', ← hdrawn]
  exact h.written.new hx (h.quiet.none hnone)

/-- Reporters have the type and the shape of their argument. -/
theorem marked {a : String} (hx : c.target.block? x = some b) (ha : b.argument = some a)
    (htracks : ∀ b₀, t.block? x = some b₀ → Inference.Tracks ⟨t, some s⟩ a x) :
    ∃ p, s'.arguments.get? a = some p ∧ b.inferred = p.type ∧
      b.opcode = Block.reporterOpcode p.type := by
  cases hx₀ : t.block? x with
  | none =>
    obtain ⟨-, -, hnone⟩ | ⟨-, -, hnone⟩ | ⟨m, a', p, -, -, -, hp, ha', htype, hopcode⟩ := h.top hx hx₀
    · simp [hnone] at ha
    · simp [hnone] at ha
    · obtain rfl := Option.mem_unique ha' ha
      exact ⟨p, hp, htype, hopcode⟩
  | some b₀ =>
    obtain ⟨_, p, ⟨⟩, hp, hmem⟩ := h.quiet.tracks.2 (htracks b₀ hx₀)
    obtain ⟨b₁, hb₁, -, htype, hopcode⟩ := h.good.tracked rfl hp hmem
    obtain ⟨b', hb', hcore, -⟩ := h.written.old hb₁
    obtain rfl := Option.mem_unique hb' (h.block? x ▸ hx)
    exact ⟨p, hp, (congrArg Block.inferred hcore :).trans htype,
      (congrArg Block.opcode hcore :).trans hopcode⟩

theorem look {env : Env} {v : View} (hv : env.look t x = some v) : env.look c.target x = some v := by
  obtain ⟨b, hb, rfl⟩ := Option.map_eq_some_iff.1 hv
  obtain ⟨b', hb', hnext, hk⟩ := h.old hb
  exact Option.map_eq_some_iff.2 ⟨b', hb', Env.view_congr hk.face (hk.inputs id) hnext⟩

theorem argument {a : String} {argument : Argument}
    (ha : (s'.build head u).1.arguments.get? a = some argument) :
    argument.type ≠ .unresolved ∧ argument.type ≠ .void := by
  rw [Signature.build_argument?] at ha
  obtain ⟨p, hp, rfl⟩ := Option.map_eq_some_iff.1 ha
  exact ⟨h.resolved a p hp, (h.good.signature rfl).params hp⟩

theorem returnType :
    (s'.build head u).1.returnType =
      if s.returnType = .unresolved then .void else s.returnType := by
  obtain ⟨_, ⟨⟩, -, htype, -⟩ := h.quiet.function.exists_later rfl
  rw [← htype]
  rfl

theorem returnVariable : (s'.build head u).1.returnVariable = s.returnVariable := by
  obtain ⟨_, ⟨⟩, -, -, hresult⟩ := h.quiet.function.exists_later rfl
  exact hresult

/-- A completed function is in order. -/
theorem proper (hmade : s.returnType ≠ .unresolved → s.returnVariable ≠ none) :
    c.target.Proper := by
  have ht : t.Proper := by
    refine h.good.tables.of_tables ?_
    rw [show u = t.withBlocks u.blocks from h.quiet.shell]
    rfl
  have hintact : c.target.intact = t.intact := by
    rw [h.target]
    exact (congrArg Target.intact h.tables :)
  refine ⟨hintact.trans ht.intact, fun {y v} hy => ?_, fun {y v} hy => ?_, fun {y v} hy => ?_,
    fun {f p} hf => ?_, fun {f p a} hf ha => ?_, fun {f p} hf hvoid => ?_⟩
  · exact ht.names (h.variableNamed? y ▸ hy)
  · exact ht.values (h.variableNamed? y ▸ hy)
  · exact ht.built (h.variableNamed? y ▸ hy)
  all_goals
    rw [h.functionNamed?] at hf
    split at hf
  · cases hf
    refine ⟨?_, ?_⟩
    · rw [Signature.build_values, List.map_map]
      exact (h.good.signature rfl).ids
    · rw [h.returnType]
      split
      · decide
      · assumption
  · exact ht.procs hf
  · cases hf
    obtain ⟨e, he, rfl⟩ := List.mem_map.1 ha
    exact h.argument (Table.get?_eq_some_iff.2 he)
  · exact ht.arguments hf ha
  · cases hf
    rw [h.returnVariable]
    refine hmade fun htype => hvoid ?_
    rw [h.returnType, if_pos htype]
  · exact ht.results hf hvoid

end Completed

section

variable {d : Compilation} {D : String → Prop}
variable (h : Completed s s' head { d.target with scopes := outer } u c)

include h

theorem Completed.grows (hnone : d.target.functionNamed? s.name = none) :
    d.target.Grows c.target where
  vars {y v} hy _ := ⟨v, (h.variableNamed? y).trans hy, rfl, rfl⟩
  functions {f p} hp := by
    obtain ⟨_, ⟨⟩, hfollows, -⟩ := h.quiet.function.exists_later rfl
    rw [h.functionNamed?, if_neg]
    · exact hp
    · rintro rfl
      rw [hfollows.name, hnone] at hp
      cases hp

/-- The blocks at the top of a function have no operands. -/
theorem Completed.wellTyped {x : String} {b : Block} (hg : d.inference.Good)
    (hf : d.function = some s) (hnone : d.target.functionNamed? s.name = none)
    (hw : ∀ b₀, d.target.block? x = some b₀ → b₀.WellTyped d.target)
    (hx : c.target.block? x = some b) : b.WellTyped c.target := by
  cases hx₀ : d.target.block? x with
  | none =>
    obtain ⟨-, hopcode, -⟩ | ⟨-, hopcode, -⟩ | ⟨_, _, _, -, -, -, -, -, -, hopcode⟩ := h.top hx hx₀
    · simp [Block.WellTyped, hopcode]
    · simp [Block.WellTyped, hopcode]
    · simp [Block.WellTyped, hopcode, Block.reporterOpcode]
  | some b₀ =>
    obtain ⟨b', hb', -, hk⟩ := h.old hx₀
    obtain rfl := Option.mem_unique hb' hx
    refine (hw b₀ hx₀).mono hk.face (hk.inputs id) ?_ (h.grows hnone) fun y by₀ _ hy htype => ?_
    · by_cases ht : Inference.Tracked ⟨{ d.target with scopes := outer }, some s⟩ x
      · obtain ⟨a, ht⟩ := ht
        obtain ⟨_, p, ⟨⟩, hp, hmem⟩ := ht
        obtain ⟨b₁, hb₁, ha, -⟩ := hg.tracked hf hp hmem
        obtain rfl := Option.mem_unique hb₁ hx₀
        obtain ⟨q, -, -, hopcode⟩ := h.marked hx (hk.argument.trans ha) fun _ _ => ⟨s, p, rfl, hp, hmem⟩
        exact .inr ⟨q.type, hopcode⟩
      · exact .inl (hk.opcode ht)
    · obtain ⟨by₁, hy₁, -, hky⟩ := h.old hy
      exact ⟨by₁, hy₁, hky.inferred htype⟩

/-- A function leaves its result in a variable of its type. -/
theorem Completed.sane (hg : d.inference.Good) (hf : d.function = some s) (hset : d.ResultSettled)
    (hc : d.Checked D fun _ => False) : c.target.Sane := by
  have hresult := hc.result s hf
  refine ⟨fun {f p} hp hvoid => ?_, fun {f p} hp hvar => ?_⟩
  · rw [h.functionNamed?] at hp
    split at hp
    · cases hp
      have htype : s.returnType ≠ .unresolved := fun htype => hvoid (by rw [h.returnType, if_pos htype])
      cases hvar : s.returnVariable with
      | none => exact absurd (hresult.fresh hvar).1 htype
      | some ref =>
        obtain ⟨v, hv, href, hvtype⟩ := hresult.made hvar
        have hname : v.name = _ := hg.tables.names hv
        refine ⟨v, ?_, ?_, ?_⟩
        · rw [h.returnVariable, hvar, href]
        · rw [h.variableNamed?, hname]
          exact hv
        · rw [hvtype, h.returnType, if_neg htype]
    · obtain ⟨v, hr, hv, htype⟩ := hc.sane.results hp hvoid
      exact ⟨v, hr, (h.variableNamed? v.name).trans hv, htype⟩
  · rw [h.functionNamed?] at hp
    split at hp
    · cases hp
      rw [h.returnVariable] at hvar
      have htype := hset s hf hvar
      rw [h.returnType, if_neg htype]
      exact (hg.signature hf).result
    · exact hc.sane.returns hp hvar

/-- What has been checked stays so. -/
theorem Completed.checked (hg : d.inference.Good) (hf : d.function = some s)
    (hnone : d.target.functionNamed? s.name = none) (hset : d.ResultSettled)
    (hc : d.Checked D fun _ => False) : c.Checked D fun _ => False where
  sane := h.sane hg hf hset hc
  typed x b hx _ := h.wellTyped hg hf hnone (fun b₀ hx₀ => hc.typed x b₀ hx₀ id) hx
  unbuilt y v hD hy := hc.unbuilt y v hD (h.variableNamed? y ▸ hy)
  named y v hy := by
    refine (hc.named y v (h.variableNamed? y ▸ hy)).imp_right ?_
    rintro ⟨f, rfl, hf'⟩
    refine ⟨f, by rw [h.name], .inl ?_⟩
    obtain ⟨_, ⟨⟩, hfollows, -⟩ := h.quiet.function.exists_later rfl
    rw [h.functionNamed?]
    obtain hsome | ⟨s₁, hs₁, rfl⟩ := hf'
    · split
      · rfl
      · exact hsome
    · obtain rfl := Option.mem_unique hs₁ hf
      rw [if_pos hfollows.name]
      rfl
  result s₁ hs₁ := by
    rw [h.function] at hs₁
    cases hs₁

end

end Emit
end ScriptBlocks
