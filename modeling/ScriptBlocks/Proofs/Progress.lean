import ScriptBlocks.Proofs.Expressions

/-!
# Progress from statement to statement

A statement adds blocks to the end of its script, and it may make names known. `Extended` is what
holds between the states before and after it whether or not it succeeds, `Reads` says what the
new blocks read as, and `Checked` is the state that error-free statements keep. `Compiles` is the
specification of the steps that compile statements.
-/
namespace ScriptBlocks

variable {x : String} {α : Type} {d : Compilation}

/-- The function being compiled goes on: its result is settled at most once, when there is a variable
for it. -/
structure Signature.Matures (s s' : Signature) : Prop where
  follows : s.Follows s'
  type : s.returnType ≠ .unresolved → s'.returnType = s.returnType
  result : ∀ ref, s.returnVariable = some ref → s'.returnVariable = some ref
  made : s'.returnType ≠ .unresolved → s.returnType ≠ .unresolved ∨ s'.returnVariable ≠ none

/-- The same for the function being compiled, if there is one. -/
def Signature.Develops (function function' : Option Signature) : Prop :=
  Option.Rel Signature.Matures function function'

namespace Signature.Develops

variable {f f' f'' : Option Signature}

theorem of_continues (h : Continues f f') : Develops f f' := by
  cases h with
  | none => exact .none
  | some h => exact .some ⟨h.1, fun _ => h.2.1, fun _ hr => h.2.2.trans hr, fun hne => .inl (h.2.1 ▸ hne)⟩

theorem refl (f : Option Signature) : Develops f f :=
  of_continues (.refl f)

theorem trans (h : Develops f f') (h' : Develops f' f'') : Develops f f'' := by
  cases h with
  | none => exact h'
  | some h =>
    cases h' with
    | some h' =>
      refine .some ⟨h.follows.trans h'.follows, fun hne => ?_,
        fun ref hr => h'.result ref (h.result ref hr), fun hne => ?_⟩
      · have heq := h.type hne
        exact (h'.type (heq ▸ hne)).trans heq
      · rcases h'.made hne with hne' | hmade
        · refine (h.made hne').imp_right fun hmade => ?_
          obtain ⟨ref, href⟩ := Option.ne_none_iff_exists'.1 hmade
          simp [h'.result ref href]
        · exact .inr hmade

theorem exists_later (h : Develops f f') {s : Signature} (hs : f = some s) :
    ∃ s', f' = some s' ∧ s.Matures s' := by
  subst hs
  cases h with
  | some h => exact ⟨_, rfl, h⟩

theorem isSome_eq (h : Develops f f') : f'.isSome = f.isSome := by
  cases h <;> rfl

end Signature.Develops

/-- Names go on to be known, and no function is added. -/
structure Target.Persists (t t' : Target) : Prop where
  name : t'.name = t.name
  entry : t'.entry = t.entry
  functions : t'.functions = t.functions
  vars : ∀ {x v}, t.variableNamed? x = some v → ∃ v', t'.variableNamed? x = some v' ∧
    v'.ref = v.ref ∧ (v.built = true → v'.built = true)

namespace Target.Persists

variable {t t' t'' : Target}

theorem of_tables (h : t'.tables = t.tables) : t.Persists t' where
  name := (congrArg Target.name h :)
  entry := (congrArg Target.entry h :)
  functions := (congrArg Target.functions h :)
  vars {x v} hx := by
    have hvars : t'.vars = t.vars := (congrArg Target.vars h :)
    refine ⟨v, ?_, rfl, id⟩
    rw [Target.variableNamed?, hvars]
    exact hx

theorem trans (h : t.Persists t') (h' : t'.Persists t'') : t.Persists t'' where
  name := h'.name.trans h.name
  entry := h'.entry.trans h.entry
  functions := h'.functions.trans h.functions
  vars {x v} hx := by
    obtain ⟨v', hv', hr, hb⟩ := h.vars hx
    obtain ⟨v'', hv'', hr', hb'⟩ := h'.vars hv'
    exact ⟨v'', hv'', hr'.trans hr, fun hb₀ => hb' (hb hb₀)⟩

theorem built (h : t.Persists t') {v : Variable} (hx : t.builtVariable? x = some v) :
    ∃ v', t'.builtVariable? x = some v' ∧ v'.ref = v.ref := by
  obtain ⟨hx, hb⟩ := Option.filter_eq_some_iff.1 hx
  obtain ⟨v', hv', hr, hb'⟩ := h.vars hx
  exact ⟨v', Option.filter_eq_some_iff.2 ⟨hv', hb' hb⟩, hr⟩

theorem functionNamed? (h : t.Persists t') (f : String) :
    t'.functionNamed? f = t.functionNamed? f := by
  rw [Target.functionNamed?, h.functions]
  rfl

end Target.Persists

namespace Compilation

variable {c c' c'' : Compilation}

/-- No declared variable has the name of an argument of the function being compiled. -/
def Apart (c : Compilation) : Prop :=
  ∀ x v s, c.target.builtVariable? x = some v → c.function = some s → x ∉ s.arguments.keys

/-- A body of a function or of a conditional is being compiled. -/
def Inside (c : Compilation) : Prop :=
  c.function.isSome = true ∨ 0 < c.branchDepth

/-- The script at hand has grown by the blocks `new`, and names may have become known. Only the
slots of old blocks in `O` have changed. -/
structure Extended (σ : Script) (ids new : List String) (O : String → Prop) (c c' : Compilation) :
    Prop where
  runs : Runs σ ids (ids ++ new) [] O c c'
  rest : SameRest c c'
  persists : c.target.Persists c'.target
  function : Signature.Develops c.function c'.function
  marked : ∀ {x b a}, c'.target.block? x = some b → c.target.block? x = none →
    b.argument = some a → c'.inference.Tracks a x
  inner : ∀ {x b}, c'.target.block? x = some b → c.target.block? x = none → ¬ b.Starts
  apart : c.Apart → c'.Apart

theorem Calm.apart (h : Calm c c') (ha : c.Apart) : c'.Apart := by
  intro x v s hx hs
  obtain ⟨s₀, hs₀, hf⟩ := h.function.exists_of_some hs
  rw [hf.1.keys]
  refine ha x v s₀ ?_ hs₀
  simp only [Target.builtVariable?, Target.variableNamed?, h.vars_eq] at hx ⊢
  exact hx

namespace Extended

variable {σ : Script} {ids new new' : List String} {O O' O'' : String → Prop}

theorem of_calm (hruns : Runs σ ids (ids ++ new) [] O c c') (h : Calm c c') :
    Extended σ ids new O c c' :=
  ⟨hruns, h.rest, .of_tables h.tables, .of_continues h.function, h.marked, h.inner, h.apart⟩

theorem of_quiet {r : Option α × Compilation} (hs : Sited c.target σ [] ids) (h : Quietly c r) :
    Extended σ ids [] O c r.2 :=
  .of_calm (by simpa using h.runs hs) h.calm

theorem refl (hg : c.inference.Good) (hs : Sited c.target σ [] ids) : Extended σ ids [] O c c :=
  of_quiet hs (Quietly.pure hg ())

theorem trans (h : Extended σ ids new O c c') (h' : Extended σ (ids ++ new) new' O' c' c'')
    (hO : ∀ x b, c.target.block? x = some b → O x ∨ O' x → O'' x) :
    Extended σ ids (new ++ new') O'' c c'' where
  runs := by
    rw [← List.append_assoc]
    exact h.runs.trans h'.runs hO
  rest := h.rest.trans h'.rest
  persists := h.persists.trans h'.persists
  function := h.function.trans h'.function
  marked := by
    intro x b a hb hx harg
    cases hx' : c'.target.block? x with
    | none => exact h'.marked hb hx' harg
    | some b' =>
      obtain ⟨b'', hb'', hk⟩ := h'.runs.advance.old hx'
      obtain rfl := Option.mem_unique hb hb''
      obtain ⟨s, p, hs, hp, hmem⟩ := h.marked hx' hx (hk.argument ▸ harg)
      obtain ⟨s', hs', hf, -, -, -⟩ := h'.function.exists_later hs
      obtain ⟨p', hp', -, hr⟩ := hf.param hp
      exact ⟨s', p', hs', hp', hr x hmem⟩
  inner := by
    intro x b hb hx
    cases hx' : c'.target.block? x with
    | none => exact h'.inner hb hx'
    | some b' =>
      obtain ⟨b'', hb'', hk⟩ := h'.runs.advance.old hx'
      obtain rfl := Option.mem_unique hb hb''
      exact fun hs => h.inner hx' hx (hs.of_face hk.face.symm)
  apart ha := h'.apart (h.apart ha)

/-- Contexts and the depth of branches play no role, as long as they are kept. -/
theorem of_eq (h : Extended σ ids new O c c') {d' : Compilation} (hp : d.project = c.project)
    (hf : d.function = c.function) (hp' : d'.project = c'.project) (hf' : d'.function = c'.function)
    (hd : d'.branchDepth = d.branchDepth) (hx : d'.contexts = d.contexts) :
    Extended σ ids new O d d' := by
  obtain ⟨p, f, depth, contexts⟩ := d
  obtain ⟨p', f', depth', contexts'⟩ := d'
  cases hp
  cases hf
  cases hp'
  cases hf'
  exact ⟨⟨h.runs.sited, h.runs.good, h.runs.advance, h.runs.new_ids⟩,
    ⟨h.rest.onStage, h.rest.other, hd, hx, h.rest.success⟩, h.persists, h.function, h.marked, h.inner,
    h.apart⟩

/-- A change of names, and not of blocks. -/
theorem of_blocks (hs : Sited c.target σ [] ids) (hblocks : c'.target.blocks = c.target.blocks)
    (hscopes : c'.target.scopes = c.target.scopes) (hdrawn : c.target.drawn ≤ c'.target.drawn)
    (hg : c'.inference.Good) (hrest : SameRest c c') (hpersists : c.target.Persists c'.target)
    (hfun : Signature.Develops c.function c'.function)
    (htracked : ∀ {x}, c'.inference.Tracked x → c.inference.Tracked x)
    (hapart : c.Apart → c'.Apart) : Extended σ ids [] O c c' := by
  have hlookup (x : String) : c'.target.block? x = c.target.block? x := by
    rw [Target.block?, hblocks]
    rfl
  have hlinks : c'.target.links = c.target.links := by
    funext x
    simp only [Target.links, hlookup]
  refine ⟨⟨?_, hg, ⟨fun {x b} hx => ⟨b, (hlookup x).trans hx, .refl⟩, fun {x b} hx hn => ?_, hdrawn,
    fun _ => htracked⟩, fun x hx => .inl (by simpa using hx)⟩, hrest, hpersists, hfun,
    fun {x b a} hx hn => ?_, fun {x b} hx hn => ?_, hapart⟩
  · rw [List.append_nil]
    refine hs.resite ⟨hlinks ▸ hs.sound.linked, fun {n} hn => ?_⟩ (fun x b hb => ?_)
      fun scopes h => hscopes.trans h
    · rw [hlookup]
      exact hs.sound.fresh (Nat.lt_of_le_of_lt hdrawn hn)
    · exact ⟨b, (hlookup x).trans hb, fun _ => ⟨rfl, rfl⟩⟩
  · rw [show c'.inference.target.block? x = c.target.block? x from hlookup x] at hx
    simp [show c.target.block? x = none from hn] at hx
  · simp [hlookup, hn] at hx
  · simp [hlookup, hn] at hx

/-- The blocks that have been added did not exist before. -/
theorem fresh (h : Extended σ ids new O c c') (hx : x ∈ new) : c.target.block? x = none := by
  obtain hm | hn := h.runs.new_ids x (List.mem_append_right _ hx)
  · have hnd := h.runs.sited.nodup
    rw [← List.append_assoc] at hnd
    exact absurd rfl ((List.nodup_append.1 hnd).2.2 x (List.mem_append_right _ hm) x hx)
  · exact hn

/-- What is known in the end explains the names of the beginning. -/
theorem covers (h : Extended σ ids new O c c') {env : Env} (hc : env.Covers c'.inference) :
    env.Covers c.inference where
  vars {x v} hx := by
    obtain ⟨v', hv', hr⟩ := h.persists.built hx
    rw [← hr]
    exact hc.vars hv'
  arguments {s x} hs hx := by
    obtain ⟨s', hs', hf, -, -, -⟩ := h.function.exists_later hs
    exact hc.arguments hs' (hf.keys ▸ hx)
  procedures {f p} hf := hc.procedures ((h.persists.functionNamed? f).trans hf)
  result {s ref} hs hr := by
    obtain ⟨s', hs', -, -, hret, -⟩ := h.function.exists_later hs
    exact hc.result hs' (hret ref hr)

theorem success (h : Extended σ ids new O c c') (hs : c'.project.success = true) :
    c.project.success = true :=
  h.rest.success hs

theorem inside (h : Extended σ ids new O c c') (hi : c.Inside) : c'.Inside := by
  rw [Inside, h.rest.depth, h.function.isSome_eq]
  exact hi

end Extended

/-- The new blocks of a script read as these trees, and what is below them is new. -/
def Reads (env : Env) (ids new : List String) (trees : List Tree) (c c' : Compilation) : Prop :=
  List.Forall₂ (fun x tree => tree.At (env.look c'.target) (Inner c (ids ++ new)) x) new trees

section

variable {env : Env} {σ : Script} {ids new new' : List String} {trees trees' : List Tree}
variable {O : String → Prop}

/-- Below the blocks of a script everything looks as before while the script grows and blocks of
the script itself change. -/
theorem look_later (hs : Sited c.target σ [] ids) (h : Extended σ (ids ++ new) new' O c' c'')
    (hO : ∀ y, O y → y ∈ ids ++ new) (y : String) (v : View) (hy : Inner c (ids ++ new) y)
    (hv : env.look c'.target y = some v) :
    Inner c (ids ++ (new ++ new')) y ∧ env.look c''.target y = some v := by
  obtain ⟨b, hb, rfl⟩ := Option.map_eq_some_iff.1 hv
  obtain ⟨b', hb', hk⟩ := h.runs.advance.old hb
  refine ⟨⟨hy.1, ?_⟩, Option.map_eq_some_iff.2
    ⟨b', hb', Env.view_eq hk (fun ho => hy.2 (hO y ho)) fun hm => ?_⟩⟩
  · rw [← List.append_assoc]
    intro hm
    rcases List.mem_append.1 hm with hm | hm
    · exact hy.2 hm
    · simp [h.fresh hm] at hb
  · rcases List.mem_append.1 hm with hm | hm
    · have hsome := hs.base_isSome y (by simpa using hm)
      simp [hy.1] at hsome
    · exact hy.2 hm

/-- A tree of new blocks reads on while the script grows and other blocks of it change. -/
theorem tree_later (hs : Sited c.target σ [] ids) (h : Extended σ (ids ++ new) new' O c' c'')
    {tree : Tree} (hO : ∀ y, O y → y ∈ ids ++ new) (hx : ¬ O x)
    (hat : tree.At (env.look c'.target) (Inner c (ids ++ new)) x) :
    tree.At (env.look c''.target) (Inner c (ids ++ (new ++ new'))) x := by
  refine hat.mono (look_later hs h hO) (fun v hv => ?_) tree
  obtain ⟨b, hb, rfl⟩ := Option.map_eq_some_iff.1 hv
  obtain ⟨b', hb', hk⟩ := h.runs.advance.old hb
  exact ⟨env.view b', Option.map_eq_some_iff.2 ⟨b', hb', rfl⟩, Env.view_sameBlock hk hx⟩

/-- Reading goes on to work while the script grows. -/
theorem Reads.append (h : Reads env ids new trees c c')
    (h' : Reads env (ids ++ new) new' trees' c' c'') (hs : Sited c.target σ [] ids)
    (he : Extended σ ids new O c c')
    (he' : Extended σ (ids ++ new) new' (fun _ => False) c' c'') :
    Reads env ids (new ++ new') (trees ++ trees') c c'' := by
  refine List.rel_append (h.imp fun x tree hat => tree_later hs he' (fun _ => False.elim) id hat)
    (h'.imp fun x tree hat => ?_)
  refine hat.mono (fun y v hy hv => ⟨⟨block?_none_of_later he.runs.advance hy.1, ?_⟩, hv⟩)
    (fun v hv => ⟨v, hv, .rfl⟩) tree
  rw [← List.append_assoc]
  exact hy.2

theorem Reads.later (h : Reads env ids new trees c c') (hs : Sited c.target σ [] ids)
    (he : Extended σ ids new O c c') (he' : Extended σ (ids ++ new) [] (fun _ => False) c' c'') :
    Reads env ids new trees c c'' := by
  have hnil : Reads env (ids ++ new) [] [] c' c'' := .nil
  simpa using h.append hnil hs he he'

end

end Compilation

/-- The variable for the result of the function being compiled has the type of the result, and no
declaration has its name. -/
structure Signature.ResultIn (D : String → Prop) (t : Target) (s : Signature) : Prop where
  name : ¬ D (Procedure.returnVariableName s.name t.name)
  made : ∀ {ref}, s.returnVariable = some ref → ∃ v,
    t.variableNamed? (Procedure.returnVariableName s.name t.name) = some v ∧ v.ref = ref ∧
      v.type = s.returnType
  fresh : s.returnVariable = none → s.returnType = .unresolved ∧
    t.variableNamed? (Procedure.returnVariableName s.name t.name) = none

/-- The name of the variable for the result of a function that exists or is being compiled. -/
def Compilation.OwnsResult (c : Compilation) (x : String) : Prop :=
  ∃ f, x = Procedure.returnVariableName f c.target.name ∧
    ((c.target.functionNamed? f).isSome ∨ ∃ s, c.function = some s ∧ s.name = f)

theorem Compilation.OwnsResult.congr {c c' : Compilation} (h : c.OwnsResult x)
    (hname : c'.target.name = c.target.name) (hfunctions : c'.target.functions = c.target.functions)
    (hf : ∀ s, c.function = some s → ∃ s', c'.function = some s' ∧ s'.name = s.name) :
    c'.OwnsResult x := by
  obtain ⟨f, rfl, hown⟩ := h
  refine ⟨f, by rw [hname], hown.imp (fun hsome => ?_) fun ⟨s, hs, hsf⟩ => ?_⟩
  · rw [Target.functionNamed?, hfunctions]
    exact hsome
  · obtain ⟨s', hs', hn⟩ := hf s hs
    exact ⟨s', hs', hn.trans hsf⟩

/-- A function being compiled that has a variable for its result has a type for it. -/
def Compilation.ResultSettled (c : Compilation) : Prop :=
  ∀ s, c.function = some s → s.returnVariable ≠ none → s.returnType ≠ .unresolved

/-- The state that error-free statements keep when they declare no names but those in `D`: blocks
are well typed, apart from those in `P`, and so are the variables for results. -/
structure Compilation.Checked (D P : String → Prop) (c : Compilation) : Prop where
  sane : c.target.Sane
  typed : ∀ x b, c.target.block? x = some b → ¬ P x → b.WellTyped c.target
  unbuilt : ∀ x v, D x → c.target.variableNamed? x = some v → v.built = false →
    v.type = .unresolved
  named : ∀ x v, c.target.variableNamed? x = some v → D x ∨ c.OwnsResult x
  result : ∀ s, c.function = some s → s.ResultIn D c.target

/-- Variables of results keep their types. -/
theorem Target.Sane.grow {t t' : Target} (h : t.Sane) (hp : t.Proper) (hg : t.Grows t')
    (hf : t'.functions = t.functions) : t'.Sane := by
  have hlookup (f : String) : t'.functionNamed? f = t.functionNamed? f := by
    rw [Target.functionNamed?, hf]
    rfl
  refine ⟨fun {f p} hp' hv => ?_, fun {f p} hp' => ?_⟩
  · rw [hlookup] at hp'
    obtain ⟨v, hr, hv, ht⟩ := h.results hp' hv
    obtain ⟨v', hv', href, htype⟩ := hg.vars hv (ht ▸ (hp.procs hp').2)
    have hname : v'.name = v.name := congrArg VariableRef.name href
    exact ⟨v', hr.trans (congrArg some href.symm), hname ▸ hv', htype.trans ht⟩
  · rw [hlookup] at hp'
    exact h.returns hp'

theorem Signature.ResultIn.later {D : String → Prop} {t t' : Target} {s s' : Signature}
    (h : s.ResultIn D t)
    (hvars : ∀ x, ¬ D x → t'.variableNamed? x = t.variableNamed? x) (hname : t'.name = t.name)
    (hf : s'.name = s.name) (htype : s'.returnType = s.returnType)
    (hvar : s'.returnVariable = s.returnVariable) : s'.ResultIn D t' := by
  have hlookup := hvars _ h.name
  refine ⟨?_, fun {ref} hr => ?_, fun hr => ?_⟩
  · rw [hf, hname]
    exact h.name
  · rw [hf, hname, hlookup, htype]
    exact h.made (hvar ▸ hr)
  · rw [hf, hname, hlookup, htype]
    exact h.fresh (hvar ▸ hr)

namespace Compilation

variable {c c' : Compilation} {D P : String → Prop}

/-- What is compiled inside a statement keeps this state as far as its own blocks are well
typed. -/
theorem Calm.checked {O C : String → Prop} (h : Calm c c') (hg : c'.inference.Good)
    (ha : Inference.Advance O C c.inference c'.inference)
    (hO : ∀ x, O x → c.target.block? x = none) (ht : Typed P c c')
    (hc : c.Checked D fun _ => False) : c'.Checked D P where
  sane := h.sane hc.sane
  typed x b hb hP := by
    cases hx : c.target.block? x with
    | none => exact ht hc.sane x b hb hx hP
    | some b₀ =>
      refine wellTyped_later hg ha (.of_tables h.tables) h.tracks hx hb (fun ho => ?_)
        (hc.typed x b₀ hx id)
      simp [hO x ho] at hx
  unbuilt x v hD hx := by
    refine hc.unbuilt x v hD ?_
    simp only [Target.variableNamed?, h.vars_eq] at hx ⊢
    exact hx
  named x v hx := by
    simp only [Target.variableNamed?, h.vars_eq] at hx
    refine (hc.named x v hx).imp id fun hown =>
      hown.congr (congrArg Target.name h.tables :) h.functions_eq fun s hs => ?_
    obtain ⟨s', hs', hf, -⟩ := h.function.exists_later hs
    exact ⟨s', hs', hf.name⟩
  result s hs := by
    obtain ⟨s₀, hs₀, hf, htype, hvar⟩ := h.function.exists_of_some hs
    refine (hc.result s₀ hs₀).later (fun x _ => ?_) (congrArg Target.name h.tables :) hf.name htype hvar
    rw [Target.variableNamed?, h.vars_eq]
    rfl

/-- The names of the variables are accounted for as long as the new ones are. -/
theorem Checked.named_later (hc : c.Checked D P) (hname : c'.target.name = c.target.name)
    (hfunctions : c'.target.functions = c.target.functions)
    (hf : ∀ s, c.function = some s → ∃ s', c'.function = some s' ∧ s'.name = s.name)
    (hvars : ∀ x v, c'.target.variableNamed? x = some v →
      (∃ w, c.target.variableNamed? x = some w) ∨ D x ∨ c'.OwnsResult x) :
    ∀ x v, c'.target.variableNamed? x = some v → D x ∨ c'.OwnsResult x := by
  intro x v hx
  obtain ⟨w, hw⟩ | hnew := hvars x v hx
  · exact (hc.named x w hw).imp id fun hown => hown.congr hname hfunctions hf
  · exact hnew

/-- A change of names keeps it when settled types stay. -/
theorem Checked.rename (hc : c.Checked D P) (hp : c.target.Proper)
    (hblocks : c'.target.blocks = c.target.blocks)
    (hfunctions : c'.target.functions = c.target.functions) (hg : c.target.Grows c'.target)
    (hu : ∀ x v, D x → c'.target.variableNamed? x = some v → v.built = false →
      v.type = .unresolved)
    (hn : ∀ x v, c'.target.variableNamed? x = some v → D x ∨ c'.OwnsResult x)
    (hr : ∀ s, c'.function = some s → s.ResultIn D c'.target) : c'.Checked D P where
  sane := hc.sane.grow hp hg hfunctions
  typed x b hb hP := by
    have hlookup (x : String) : c'.target.block? x = c.target.block? x := by
      rw [Target.block?, hblocks]
      rfl
    rw [hlookup] at hb
    refine (hc.typed x b hb hP).mono rfl rfl (.inl rfl) hg fun y by₀ _ hy _ => ?_
    exact ⟨by₀, (hlookup y).trans hy, rfl⟩
  unbuilt := hu
  named := hn
  result := hr

/-- New wires between blocks, where the blocks whose slots change stay well typed. -/
theorem Checked.rewired {O C : String → Prop} {t : Target} (hc : c.Checked D P)
    (hr : Rewired O C c.target t) (hnone : ∀ {x}, c.target.block? x = none → t.block? x = none)
    (hO : ∀ {x b b'}, O x → c.target.block? x = some b → t.block? x = some b' →
      b.WellTyped c.target → b'.WellTyped t) : (c.setTarget t).Checked D P := by
  have hvars : t.vars = c.target.vars := (congrArg Target.vars hr.tables :)
  have hlookup (x : String) : t.variableNamed? x = c.target.variableNamed? x := by
    rw [Target.variableNamed?, hvars]
    rfl
  have hcalm : Calm c (c.setTarget t) :=
    .setTarget hr.tables fun x b hx hn => by simp [hnone hn] at hx
  refine ⟨hcalm.sane hc.sane, fun x b hx hP => ?_, fun x v hD hx hb => ?_, fun x v hx => ?_,
    fun s hs => ?_⟩
  · rw [target_setTarget] at hx ⊢
    cases hx' : c.target.block? x with
    | none => simp [hnone hx'] at hx
    | some b₀ =>
      obtain ⟨b', hb', hcore, hin, -⟩ := hr.old hx'
      obtain rfl := Option.mem_unique hx hb'
      by_cases ho : O x
      · exact hO ho hx' hx (hc.typed x b₀ hx' hP)
      · refine (hc.typed x b₀ hx' hP).mono (Block.face_congr hcore) (hin ho)
          (.inl (congrArg Block.opcode hcore :)) (.of_tables hr.tables) fun y by₀ _ hy _ => ?_
        obtain ⟨by', hy', hcore', -, -⟩ := hr.old hy
        exact ⟨by', hy', (congrArg Block.inferred hcore' :)⟩
  · rw [target_setTarget, hlookup] at hx
    exact hc.unbuilt x v hD hx hb
  · rw [target_setTarget, hlookup] at hx
    refine (hc.named x v hx).imp id fun hown => hown.congr ?_ ?_ fun s hs => ⟨s, hs, rfl⟩
    · exact (congrArg Target.name hcalm.tables :)
    · exact hcalm.functions_eq
  · rw [target_setTarget]
    exact (hc.result s hs).later (fun x _ => hlookup x) (congrArg Target.name hr.tables :) rfl rfl rfl

/-- The last blocks have been checked. -/
theorem Checked.close (hc : c.Checked D P)
    (hP : ∀ x b, P x → c.target.block? x = some b → b.WellTyped c.target) :
    c.Checked D fun _ => False where
  sane := hc.sane
  typed x b hb _ := by
    by_cases hx : P x
    · exact hP x b hx hb
    · exact hc.typed x b hb hx
  unbuilt := hc.unbuilt
  named := hc.named
  result := hc.result

theorem Checked.of_eq (hc : c.Checked D P) (hp : d.project = c.project)
    (hf : d.function = c.function) : d.Checked D P := by
  obtain ⟨p, f, depth, contexts⟩ := d
  cases hp
  cases hf
  exact ⟨hc.sane, hc.typed, hc.unbuilt, hc.named, hc.result⟩

end Compilation

namespace Compilation

variable {env : Env} {σ : Script} {ids new new' : List String} {trees trees' : List Tree}
variable {names names' : List String} {c c' c'' : Compilation}

/-- The script at hand has been extended, and unless an error has been reported the new blocks read
as `trees` and are well typed. The declared names are among `names`. -/
structure Compiled (env : Env) (σ : Script) (ids new : List String) (trees : List Tree)
    (names : List String) (c c' : Compilation) : Prop where
  extended : Extended σ ids new (fun _ => False) c c'
  reads : c'.project.success = true → env.Covers c'.inference → Reads env ids new trees c c'
  checked : c'.project.success = true → ∀ D : String → Prop, (∀ x ∈ names, D x) →
    c.Checked D (fun _ => False) → c'.Checked D fun _ => False
  settled : c'.project.success = true → c.ResultSettled → c'.ResultSettled

theorem Calm.settled (h : Calm c c') (hs : c.ResultSettled) : c'.ResultSettled := by
  intro s' hs' hvar
  obtain ⟨s, hs₀, -, htype, hv⟩ := h.function.exists_of_some hs'
  exact htype ▸ hs s hs₀ (hv ▸ hvar)

namespace Compiled

theorem failed (h : Extended σ ids new (fun _ => False) c c') (hf : c'.project.success = false) :
    Compiled env σ ids new trees names c c' :=
  ⟨h, fun hs => by simp [hf] at hs, fun hs => by simp [hf] at hs, fun hs => by simp [hf] at hs⟩

theorem of_quiet {r : Option α × Compilation} (hs : Sited c.target σ [] ids) (h : Quietly c r) :
    Compiled env σ ids [] [] [] c r.2 := by
  refine ⟨.of_quiet hs h, fun _ _ => .nil, fun _ D _ hc => ?_, fun _ => h.calm.settled⟩
  refine h.calm.checked h.good (h.quiet.advance (O := fun _ => False) (C := fun _ => False))
    (fun _ => False.elim) (.of_old fun x b hx hn => ?_) hc
  simp [show r.2.target.block? x = none from h.quiet.none hn] at hx

/-- An error without a change. -/
theorem of_fail {r : Option α × Compilation} (hs : Sited c.target σ [] ids) (h : Quietly c r)
    (hr : r.1 = none) : Compiled env σ ids [] trees names c r.2 :=
  .failed (.of_quiet hs h) (h.loud hr)

/-- One step after the other. -/
theorem trans (h : Compiled env σ ids new trees names c c') (hs : Sited c.target σ [] ids)
    (h' : Compiled env σ (ids ++ new) new' trees' names' c' c'') :
    Compiled env σ ids (new ++ new') (trees ++ trees') (names ++ names') c c'' where
  extended := h.extended.trans h'.extended fun _ _ _ hx => hx.elim id id
  reads hsuccess hcov :=
    (h.reads (h'.extended.success hsuccess) (h'.extended.covers hcov)).append
      (h'.reads hsuccess hcov) hs h.extended h'.extended
  checked hsuccess D hD hc :=
    h'.checked hsuccess D (fun x hx => hD x (List.mem_append_right _ hx))
      (h.checked (h'.extended.success hsuccess) D (fun x hx => hD x (List.mem_append_left _ hx)) hc)
  settled hsuccess hc := h'.settled hsuccess (h.settled (h'.extended.success hsuccess) hc)

/-- What is compiled after a step that adds no blocks. -/
theorem after (h : Compiled env σ ids [] [] names c c') (hs : Sited c.target σ [] ids)
    (h' : Compiled env σ ids new trees names' c' c'') :
    Compiled env σ ids new trees (names ++ names') c c'' :=
  h.trans hs (by rw [List.append_nil]; exact h')

theorem after_quiet {r : Option α × Compilation} (hq : Quietly c r) (hs : Sited c.target σ [] ids)
    (h : Compiled env σ ids new trees names r.2 c') : Compiled env σ ids new trees names c c' :=
  (of_quiet hs hq).after hs h

/-- What is compiled after a step on names alone, and settles the result in the end. -/
theorem after_names (he : Extended σ ids [] (fun _ => False) c c') (hs : Sited c.target σ [] ids)
    (hchecked : ∀ D : String → Prop, c.Checked D (fun _ => False) → c'.Checked D fun _ => False)
    (h : Compiled env σ ids new trees names c' c'')
    (hsettled : c''.project.success = true → c''.ResultSettled) :
    Compiled env σ ids new trees names c c'' where
  extended := by
    have he' := h.extended
    rw [← List.append_nil ids] at he'
    simpa using he.trans he' fun _ _ _ hx => hx.elim id id
  reads hsuccess hcov := by
    have he' := h.extended
    have hreads := h.reads hsuccess hcov
    rw [← List.append_nil ids] at he' hreads
    have hnil : Reads env ids [] [] c c' := .nil
    simpa using hnil.append hreads hs he he'
  checked hsuccess D hD hc := h.checked hsuccess D hD (hchecked D hc)
  settled hsuccess _ := hsettled hsuccess

theorem then_quiet {r : Option α × Compilation} (h : Compiled env σ ids new trees names c c')
    (hs : Sited c.target σ [] ids) (hq : Quietly c' r) :
    Compiled env σ ids new trees names c r.2 := by
  have h' := h.trans hs (of_quiet h.extended.runs.sited hq)
  simpa only [List.append_nil] using h'

theorem mono (h : Compiled env σ ids new trees names c c') (hn : ∀ x ∈ names, x ∈ names') :
    Compiled env σ ids new trees names' c c' :=
  ⟨h.extended, h.reads, fun hs D hD => h.checked hs D fun x hx => hD x (hn x hx), h.settled⟩

/-- Contexts play no role, as long as they are kept. -/
theorem of_eq (h : Compiled env σ ids new trees names c c') {d' : Compilation}
    (hp : d.project = c.project) (hf : d.function = c.function) (hp' : d'.project = c'.project)
    (hf' : d'.function = c'.function) (hd : d'.branchDepth = d.branchDepth)
    (hx : d'.contexts = d.contexts) : Compiled env σ ids new trees names d d' := by
  obtain ⟨p, f, depth, contexts⟩ := d
  obtain ⟨p', f', depth', contexts'⟩ := d'
  cases hp
  cases hf
  cases hp'
  cases hf'
  exact ⟨h.extended.of_eq rfl rfl rfl rfl hd hx, h.reads,
    fun hs D hD hc => (h.checked hs D hD (hc.of_eq rfl rfl)).of_eq rfl rfl, h.settled⟩

end Compiled
end Compilation

namespace Emit

open Compilation

variable {env : Env} {plain : Bool} {run run' : Compilation → Compilation}
variable {trees trees' : List Tree} {names names' : List String}

/-- A step that compiles statements. Directives and functions are compiled like this only inside
of bodies, where they are reported. -/
def Compiles (env : Env) (plain : Bool) (run : Compilation → Compilation) (trees : List Tree)
    (names : List String) : Prop :=
  ∀ ⦃c : Compilation⦄ ⦃σ : Script⦄ ⦃ids : List String⦄, c.inference.Good →
    Sited c.target σ [] ids → (plain = true ∨ c.Inside) →
    ∃ new, Compiled env σ ids new trees names c (run c)

theorem Compiles.nil (env : Env) (plain : Bool) : Compiles env plain id [] [] := by
  intro c σ ids hg hs _
  exact ⟨[], .of_quiet hs (Quietly.pure hg ())⟩

/-- Statements one after the other. -/
theorem Compiles.append (h : Compiles env plain run trees names)
    (h' : Compiles env plain run' trees' names') :
    Compiles env plain (fun c => run' (run c)) (trees ++ trees') (names ++ names') := by
  intro c σ ids hg hs hplain
  obtain ⟨new, hc⟩ := h hg hs hplain
  have he := hc.extended
  obtain ⟨new', hc'⟩ := h' he.runs.good he.runs.sited (hplain.imp id he.inside)
  exact ⟨new ++ new', hc.trans hs hc'⟩

/-- A statement in its context. -/
theorem Compiles.inContext {m : Emit α} (h : Compiles env plain (fun c => (m c).2) trees names)
    (span : Span) : Compiles env plain (fun c => (Emit.inContext span m c).2) trees names := by
  intro c σ ids hg hs hplain
  obtain ⟨new, hc⟩ := h (c := { c with contexts := span :: c.contexts }) hg hs hplain
  have hrest := hc.extended.rest
  exact ⟨new, hc.of_eq rfl rfl rfl rfl hrest.depth (congrArg List.tail hrest.contexts)⟩

end Emit
end ScriptBlocks
