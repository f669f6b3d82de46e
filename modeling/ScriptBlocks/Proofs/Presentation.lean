import ScriptBlocks.Proofs.Arrangement

/-!
# What a function consists of

A completed function has a definition above the script of its body. The definition holds a
prototype, and the prototype has a slot with a shadow reporter for each argument. Together with the
blocks of the body these are all the blocks that are new, so the target stays arranged.
-/
namespace ScriptBlocks

namespace Signature

variable (s : Signature) (head : Option String) (u : Target)

theorem build_mutation : (s.build head u).1.mutation =
    .ofArguments s.name (s.build head u).1.arguments.entries := by
  rw [build_arguments]
  simp only [Mutation.ofArguments, List.foldl_map, List.map_map]
  change s.mutation = _
  simp only [mutation, proccode, Table.values, Table.keys, List.foldl_map, List.map_map]
  rfl

theorem build_reporters : (s.build head u).1.reporters =
    (shadows s.prototype s.arguments.entries u.drawn).map Block.id := by
  change (buildReporters s.prototype s.arguments.entries u).1.filterMap (·.2.block?) = _
  rw [buildReporters_slots]
  exact shadowSlots_blocks s u.drawn

/-- Each argument has its shadow reporter. -/
theorem shadows_forall₂ (prototype : String) (arguments : List (String × Parameter)) (n : Nat) :
    List.Forall₂ (fun e b => b ∈ shadows prototype arguments n ∧
        b = { Block.reporter b.id e.1 e.2.type true with parent := some prototype })
      arguments (shadows prototype arguments n) := by
  induction arguments generalizing n with
  | nil => exact .nil
  | cons e arguments ih =>
    exact .cons ⟨List.mem_cons_self, rfl⟩
      ((ih (n + 1)).imp fun _ _ hb => ⟨List.mem_cons_of_mem _ hb.1, hb.2⟩)

theorem build_prototypeBlock :
    (s.build head u).1.prototypeBlock.alone = (s.prototypeBlock u.drawn).alone := by
  have hslots : List.zipWith (fun a r => (a.id, (⟨.argument, .block r⟩ : Input)))
      (s.build head u).1.arguments.values (s.build head u).1.reporters = s.shadowSlots u.drawn := by
    rw [build_values, build_reporters, Table.values, List.map_map, List.zipWith_map]
    rfl
  simp only [Procedure.prototypeBlock, hslots]
  rfl

end Signature

namespace Emit

open Compilation

section

variable {s s' : Signature} {head : Option String} {t u : Target} {c : Compilation} {x : String}
variable {b : Block} (h : Completed s s' head t u c)

include h

namespace Completed

theorem block?_eq (x : String) : c.target.block? x =
    if s'.definition = x then some (s'.definitionBlock head u.scriptPosition)
    else if s'.prototype = x then some (s'.prototypeBlock u.drawn)
    else if head = some x then (u.block? x).map (Target.under s'.definition)
    else ((Signature.shadows s'.prototype s'.arguments.entries u.drawn).find? (·.id = x)).or
      (u.block? x) := by
  rw [h.block?]
  refine Signature.block?_build (h.good.signature rfl) h.pending h.sound (fun x hx => ?_) x
  obtain ⟨b, hb, -⟩ := h.body x hx
  exact ⟨b, hb⟩

theorem block?_shadow
    (hb : b ∈ Signature.shadows s'.prototype s'.arguments.entries u.drawn) :
    c.target.block? b.id = some b := by
  obtain ⟨hdefinition, hprototype⟩ := h.pending.not_shadow hb
  have hhead : head ≠ some b.id := fun heq => by
    obtain ⟨b', hb', -⟩ := h.body _ heq
    simp [Signature.shadows_fresh h.sound hb] at hb'
  rw [h.block?_eq, if_neg (Ne.symm hdefinition), if_neg (Ne.symm hprototype), if_neg hhead,
    Signature.find?_shadows_of_mem hb]
  rfl

/-- The body is below the definition. -/
theorem block?_body (hx : u.block? x = some b) :
    c.target.block? x = some (if head = some x then Target.under s'.definition b else b) := by
  have hdefinition : s'.definition ≠ x := ne_of_found h.pending.definition hx
  have hprototype : s'.prototype ≠ x := ne_of_found h.pending.prototype hx
  have hshadow : (Signature.shadows s'.prototype s'.arguments.entries u.drawn).find? (·.id = x) =
      none := by
    refine Option.eq_none_iff_forall_ne_some.2 fun b' hb' => ?_
    obtain ⟨hm, rfl, -⟩ := Signature.find?_shadows hb'
    simp [Signature.shadows_fresh h.sound hm] at hx
  rw [h.block?_eq, if_neg hdefinition, if_neg hprototype, hshadow, hx]
  split <;> rfl

/-- The other blocks are at the top of the function, and all but the definition have a parent. -/
theorem block?_top (hx : c.target.block? x = some b) (hnone : u.block? x = none) :
    x ∈ (s'.build head u).1.blocks ∧
      (x = s'.definition ∧ b = s'.definitionBlock head u.scriptPosition ∨
        b.position = none ∧ b.topLevel = false ∧ b.parent ≠ none) := by
  rw [h.block?_eq] at hx
  split at hx
  next hid =>
    cases hx
    exact ⟨hid ▸ List.mem_cons_self, .inl ⟨hid.symm, rfl⟩⟩
  next =>
    split at hx
    next hid =>
      cases hx
      refine ⟨hid ▸ List.mem_cons_of_mem _ List.mem_cons_self, .inr ⟨rfl, rfl, ?_⟩⟩
      simp [Signature.prototypeBlock]
    next =>
      split at hx
      · simp [hnone] at hx
      · rw [hnone, Option.or_none] at hx
        obtain ⟨hm, rfl, -⟩ := Signature.find?_shadows hx
        refine ⟨?_, .inr ?_⟩
        · refine List.mem_cons_of_mem _ (List.mem_cons_of_mem _ ?_)
          rw [Signature.build_reporters]
          exact List.mem_map_of_mem hm
        · obtain ⟨m, e, -, -, -, heq⟩ := Signature.exists_of_mem_shadows hm
          rw [heq]
          exact ⟨rfl, rfl, by simp⟩

theorem presented : (s'.build head u).1.Presented c.target s'.name where
  mutation := Signature.build_mutation s' head u
  definition := by
    refine ⟨u.scriptPosition, s'.definitionBlock head u.scriptPosition, ?_, rfl⟩
    exact (h.block?_eq s'.definition).trans (if_pos rfl)
  prototype := by
    refine ⟨s'.prototypeBlock u.drawn, ?_, (Signature.build_prototypeBlock s' head u).symm⟩
    refine (h.block?_eq s'.prototype).trans ?_
    rw [if_neg h.pending.ne.symm, if_pos rfl]
  reporters := by
    rw [Signature.build_arguments, Signature.build_reporters, List.forall₂_map_left_iff,
      List.forall₂_map_right_iff]
    refine (Signature.shadows_forall₂ s'.prototype s'.arguments.entries u.drawn).imp ?_
    rintro e b ⟨hb, heq⟩
    refine ⟨b, h.block?_shadow hb, ?_⟩
    rw [heq]
    rfl

end Completed

end

/-- The body of a function is compiled in a script of its own. -/
theorem Announced.poised {name : Named} {params : List Named} {s : Signature} {c c₁ : Compilation}
    (h : Announced name params s c c₁) (hg : c.inference.Good) (hs : Sound c.target)
    (hheads : ∀ {anchor h}, .sequence anchor (some h) ∈ c.target.scopes →
      ∃ b, c.target.block? h = some b) (ht : c.target.Tidy) :
    (enterBlock c₁).Poised ⟨none, c₁.target.scopes⟩ [] ∧ (enterBlock c₁).Inside := by
  refine ⟨enterBlock_begins (h.good hg) (h.sound hs) (fun {anchor x} hm => ?_) ?_ ?_, .inl ?_⟩
  · rw [h.scopes] at hm
    rw [h.block?]
    exact hheads hm
  · obtain ⟨n, -, htarget⟩ := h.drew
    rw [htarget]
    exact ⟨ht.returns, ht.housed⟩
  · intro s₁ ref hs₁ href
    obtain rfl := Option.mem_unique hs₁ h.function
    simp [h.fresh.result] at href
  · rw [show (enterBlock c₁).function = some s from h.function]
    rfl

theorem Announced.exists_numbers {name : Named} {params : List Named} {s : Signature}
    {c c₁ : Compilation} (h : Announced name params s c c₁) :
    ∃ ns : List Nat, s.arguments.values.map Parameter.id = ns.map (Target.idText "argument") ∧
      ∀ n ∈ ns, c.target.drawn < n ∧ n ≤ c₁.target.drawn := by
  have hall : ∀ id ∈ s.arguments.values.map Parameter.id, ∃ n, id = Target.idText "argument" n ∧
      c.target.drawn < n ∧ n ≤ c₁.target.drawn := by
    intro id hid
    obtain ⟨n, rfl, hlt⟩ := h.numbers id hid
    obtain ⟨m, hm, hle⟩ := h.fresh.drawn _ hid
    obtain rfl := Target.idText_injective hm
    exact ⟨n, rfl, hlt, hle⟩
  generalize s.arguments.values.map Parameter.id = ids at hall
  induction ids with
  | nil => exact ⟨[], rfl, by simp⟩
  | cons id ids ih =>
    obtain ⟨n, rfl, hn⟩ := hall id List.mem_cons_self
    obtain ⟨ns, rfl, hns⟩ := ih fun id hid => hall id (List.mem_cons_of_mem _ hid)
    exact ⟨n :: ns, rfl, List.forall_mem_cons.2 ⟨hn, hns⟩⟩

namespace Staged

variable {env : Env} {name : Named} {params : List Named} {body : List Statement}
variable {s s₂ s₃ : Signature} {new : List String} {c c₁ c₂ c' : Compilation} {u : Target}
variable {x : String} {b : Block}
variable (h : Staged env name params body s s₂ s₃ new c c₁ c₂ u c')

include h

theorem writes (hg : c.inference.Good) (hs : Sound c.target)
    (hheads : ∀ {anchor h}, .sequence anchor (some h) ∈ c.target.scopes →
      ∃ b, c.target.block? h = some b) (ht : c.target.Tidy) :
    c.target.Enlarged (fun x => c₂.project.success = false ∨ x ∈ new) u ∧ c₂.Answered := by
  obtain ⟨hpoised, hinside⟩ := h.announced.poised hg hs hheads ht
  obtain ⟨new', -, hw, ha⟩ := statements_inscribe body hpoised (.inr hinside)
  rw [h.run] at hw ha
  have hstart : c.target.Enlarged (fun _ => False) (enterBlock c₁).target := by
    obtain ⟨n, hn, htarget⟩ := h.announced.drew
    rw [enterBlock, target_setTarget, htarget]
    exact .of_blocks rfl rfl rfl hn
  have hend : c₂.target.Enlarged (fun _ => False) u :=
    (.of_blocks rfl rfl rfl (Nat.le_refl _) : c₂.target.Enlarged (fun _ => False)
      { c₂.target with scopes := c₁.target.scopes }).trans
      (h.completed.quiet.enlarged h.completed.good)
  refine ⟨((hstart.mono fun _ _ _ _ _ => False.elim).trans (hw.mono ?_)).trans
    (hend.mono fun _ _ _ _ _ => False.elim), ha⟩
  exact fun x _ _ _ _ hx => hx.imp_right (·.mem h.compiled.extended.runs.sited)

/-- Arguments have got numbers of their own. -/
theorem numbered (hn : c.target.Numbered) (hu : u.Numbered) : c'.target.Numbered where
  blocks y hy := by
    obtain ⟨b, hb⟩ := Option.isSome_iff_exists.1 ((Table.contains_iff _ _).2 hy)
    cases hold : c.target.block? y with
    | none =>
      obtain ⟨n, hn, -⟩ := h.new_id hb hold
      exact ⟨n, hn⟩
    | some b₀ => exact hn.blocks y ((Table.contains_iff _ _).1 (Option.isSome_iff_exists.2 ⟨b₀, hold⟩))
  comments := by
    have hcomments : c'.target.comments = u.comments := by
      rw [h.completed.target]
      exact (congrArg Target.comments h.completed.written.tables :)
    rw [hcomments]
    exact hu.comments
  vars := by
    have hvars : c'.target.vars = u.vars := by
      rw [h.completed.target]
      exact (congrArg Target.vars h.completed.written.tables :)
    have hname : c'.target.name = u.name := by
      rw [h.completed.target]
      exact (congrArg Target.name h.completed.written.tables :)
    have hle : u.drawn ≤ c'.target.drawn := by
      rw [h.completed.target]
      exact h.completed.written.drawn_le
    obtain ⟨ns, hnodup, hns, heq⟩ := hu.vars
    rw [hvars, hname]
    exact ⟨ns, hnodup, fun n hm => Nat.le_trans (hns n hm) hle, heq⟩
  arguments := by
    obtain ⟨ns, hnodup, hns, heq⟩ := hn.arguments
    obtain ⟨ms, hms, hrange⟩ := h.announced.exists_numbers
    have hids : (s₃.build new.head? u).1.arguments.values.map Argument.id =
        ms.map (Target.idText "argument") := by
      rw [Signature.build_values, List.map_map, ← hms, ← h.follows.ids]
      rfl
    have hfunctions : c'.target.functions.values =
        c.target.functions.values ++ [(s₃.build new.head? u).1] := by
      have hsame : (s₃.build new.head? u).2.functions = c.target.functions :=
        (congrArg Target.functions h.completed.tables :).trans h.functions_eq
      have hkey : (s₃.build new.head? u).1.name ∉ c.target.functions.keys := by
        rw [show (s₃.build new.head? u).1.name = name.name from
          h.follows.name.trans h.announced.name_eq]
        exact (Table.get?_eq_none_iff _ _).1 h.announced.functionNamed?
      rw [h.completed.target]
      simp only [Target.addFunction, hsame]
      rw [Table.values, Table.entries_insert_of_not_mem hkey, List.map_append]
      rfl
    have hle := h.advance.drawn_le
    have hle₁ : c₁.target.drawn ≤ c'.target.drawn :=
      Nat.le_trans (drawn_enterBlock c₁ ▸ h.compiled.extended.runs.advance.drawn_le)
        h.completed.drawn_le
    refine ⟨ns ++ ms, List.nodup_append.2 ⟨hnodup, ?_, fun n hm m hm' => ?_⟩, fun n hm => ?_, ?_⟩
    · have hids := h.announced.fresh.ids
      rw [hms] at hids
      exact (List.pairwise_map.1 hids).imp fun hne heq => hne (congrArg _ heq)
    · have := hns n hm
      have := hrange m hm'
      omega
    · rcases List.mem_append.1 hm with hm | hm
      · exact Nat.le_trans (hns n hm) hle
      · exact Nat.le_trans (hrange n hm).2 hle₁
    · rw [hfunctions, List.flatMap_append, heq, List.map_append, ← hids]
      simp

theorem tables_eq : u.tables = c₂.target.tables := by
  rw [show u = Target.withBlocks _ u.blocks from h.completed.quiet.shell]
  rfl

theorem scripts_eq : c'.target.scripts = u.scripts + 1 := by
  rw [h.completed.target, Target.addFunction, Signature.build_target]
  cases new.head? with
  | none =>
    rw [Option.elim_none, Signature.heads_eq]
  | some head =>
    rw [Option.elim_some, Signature.heads_eq]
    rfl

theorem declares {ref : VariableRef} (hr : u.Declares ref) : c'.target.Declares ref := by
  obtain ⟨v, hv, href⟩ := hr
  refine ⟨v, ?_, href⟩
  rw [h.completed.target]
  exact (congrArg (Table.get? · ref.name) (congrArg Target.vars h.completed.written.tables :)).trans
    hv

/-- The function has got the blocks at its top and its script. -/
theorem arranged (harr : c.target.Arranged) (hg : c.inference.Good) (hs : Sound c.target)
    (hheads : ∀ {anchor h}, .sequence anchor (some h) ∈ c.target.scopes →
      ∃ b, c.target.block? h = some b) : c'.target.Arranged := by
  obtain ⟨he, ha⟩ := h.writes hg hs hheads harr.tidy
  have hscripts : c'.target.scripts = c.target.scripts + 1 := by
    rw [h.scripts_eq, he.scripts]
  -- blocks of the body are blocks of scripts, also when the first of them gets its parent
  have hbody : ∀ {x b}, u.block? x = some b → ∃ b', c'.target.block? x = some b' ∧
      (b.Scripted u → b'.Scripted c'.target) ∧ (new.head? ≠ some x → b' = b) := by
    intro x b hx
    refine ⟨_, h.completed.block?_body hx, fun hb => ?_, fun hhead => if_neg hhead⟩
    refine hb.lasts ?_ h.declares ?_
    · split
      next => exact .of_eq rfl rfl (.inl rfl) rfl hb.topLevel.symm (fun h => by cases h) rfl
      next => exact .refl _ b
    · intro f p hp
      rw [Target.functionNamed?_of_tables h.tables_eq, Target.functionNamed?, h.functions_eq] at hp
      exact h.functionNamed?_of_some hp
  have hnames := h.functionNamed?
  refine harr.grow (fun hn => h.numbered hn (he.numbered hn)) (fun f p ref hp href => ?_)
    (fun {x b} hx => ?_) (h.entry_eq ▸ id) (fun hentry => .inl (h.entry_eq ▸ hentry))
    h.functionNamed?_of_some name.name (fun {f p} hp => ?_) (fun {x b} hx hnone => ?_)
    (by omega) s₃.definition fun {x b point} hx hnone hpoint => ?_
  · rw [hnames] at hp
    split at hp
    next =>
      cases hp
      rw [h.completed.returnVariable] at href
      exact h.declares (Target.declares_of_tables h.tables_eq (ha h.signature href))
    next => exact h.declares (he.declares (harr.returns hp href))
  · have hhead : new.head? ≠ some x := fun hhead => by
      simp [h.fresh (List.mem_of_mem_head? hhead)] at hx
    obtain ⟨b', hb', hk⟩ := h.old hx
    obtain ⟨b₁, hb₁, hlasts⟩ := he.old hx
    obtain ⟨b₂, hb₂, hscripted, hsame⟩ := hbody hb₁
    obtain rfl := Option.mem_unique hb' hb₂
    obtain rfl := hsame hhead
    refine ⟨b', hb', Block.alone_eq_of_kept hk hlasts.topLevel hlasts.position, fun hb => ?_,
      fun htop => (hk.parent fun h => h).trans (harr.root hx htop)⟩
    exact hscripted (hb.lasts hlasts he.declares he.functions)
  · rw [hnames] at hp
    split at hp
    next hname =>
      cases hp
      refine .inr ⟨hname.symm, ?_, h.definition_new hs⟩
      rw [← hname, ← h.announced.name_eq, ← h.follows.name]
      exact h.completed.presented
    next => exact .inl hp
  · cases hx₁ : u.block? x with
    | some b₁ =>
      obtain ⟨b', hb', hscripted, -⟩ := hbody hx₁
      obtain rfl := Option.mem_unique hb' hx
      have hb := hscripted (he.new hx₁ hnone).1
      exact ⟨.inl hb, fun htop => by simp [hb.topLevel] at htop⟩
    | none =>
      obtain ⟨hm, hcases⟩ := h.completed.block?_top hx hx₁
      refine ⟨.inr (.inr ⟨name.name, _, (hnames _).trans (if_pos rfl), hm⟩), fun htop => ?_⟩
      obtain ⟨-, rfl⟩ | ⟨-, hlow, -⟩ := hcases
      · rfl
      · simp [hlow] at htop
  · cases hx₁ : u.block? x with
    | some b₁ =>
      obtain ⟨b', hb', hscripted, -⟩ := hbody hx₁
      obtain rfl := Option.mem_unique hb' hx
      simp [(hscripted (he.new hx₁ hnone).1).position] at hpoint
    | none =>
      obtain ⟨-, ⟨rfl, rfl⟩ | ⟨hplain, -⟩⟩ := h.completed.block?_top hx hx₁
      · cases hpoint
        refine ⟨rfl, ?_, by omega⟩
        rw [← he.scripts]
        rfl
      · simp [hplain] at hpoint

/-- Without errors the definition stands above the body, and everything else in the body is held by
a block of it. -/
theorem held (ht : c.target.Tidy) (hg : c.inference.Good) (hs : Sound c.target)
    (hheads : ∀ {anchor h}, .sequence anchor (some h) ∈ c.target.scopes →
      ∃ b, c.target.block? h = some b) (hsuccess : c'.project.success = true)
    (hold : ∀ {x b}, c.target.block? x = some b → b.parent = none → b.topLevel = true)
    (hx : c'.target.block? x = some b) (hparent : b.parent = none) : b.topLevel = true := by
  obtain ⟨he, -⟩ := h.writes hg hs hheads ht
  cases hx₁ : u.block? x with
  | none =>
    obtain ⟨-, ⟨-, rfl⟩ | ⟨-, -, hsome⟩⟩ := h.completed.block?_top hx hx₁
    · rfl
    · exact absurd hparent hsome
  | some b₁ =>
    have hx' := h.completed.block?_body hx₁
    rw [hx] at hx'
    cases hx'
    split at hparent
    next => cases hparent
    next hhead =>
    rw [if_neg hhead]
    cases hx₀ : c.target.block? x with
    | some b₀ =>
      obtain ⟨b', hb', hlasts⟩ := he.old hx₀
      obtain rfl := Option.mem_unique hx₁ hb'
      rw [hlasts.topLevel]
      exact hold hx₀ (hlasts.parent hparent)
    | none =>
      obtain hloud | hm := (he.new hx₁ hx₀).2 hparent
      · simp [h.rest.success_false hloud] at hsuccess
      · obtain ⟨q, b₂, hb₂, hq⟩ : ∃ q b₂, c₂.target.block? x = some b₂ ∧ b₂.parent = some q := by
          have hchain := h.compiled.extended.runs.sited.chain
          rcases hnew : new with _ | ⟨y, rest⟩
          · simp [hnew] at hm
          · rw [hnew] at hchain hm hhead
            obtain rfl | hm := List.mem_cons.1 hm
            · simp at hhead
            obtain ⟨l, q, hl, hq⟩ := Chain.exists_parent hchain.2 hm
            obtain ⟨b₂, hb₂, rfl⟩ := Target.exists_of_links hl
            exact ⟨q, b₂, hb₂, hq⟩
        obtain ⟨b', hb', hk⟩ := h.completed.quiet.old hb₂
        obtain rfl := Option.mem_unique hx₁ hb'
        simp [hk.parent fun h => h, hq] at hparent

end Staged
end Emit
end ScriptBlocks
