import ScriptBlocks.Proofs.Inscriptions
import ScriptBlocks.Proofs.Programs

/-!
# What a target consists of

Besides the blocks that statements write there are the start of the main script and, for every
function, its definition with the prototype and the shadow reporters below it. `Arranged` says so,
together with what is known about ids, return variables and places on the canvas. Every statement
at the top of a program keeps it.
-/
namespace ScriptBlocks

/-- A block without its neighbours and its type. -/
def Block.alone (b : Block) : Block :=
  { b with next := none, parent := none, inferred := .unresolved }

theorem Block.alone_eq_of_kept {C : Prop} {b b' : Block} (h : Block.Kept False C False b b')
    (ht : b'.topLevel = b.topLevel) (hp : b'.position = b.position) : b'.alone = b.alone := by
  have hparts : ∀ b : Block, b.alone =
      { b.face with
        opcode := b.opcode, inputs := b.inputs, topLevel := b.topLevel, position := b.position } :=
    fun _ => rfl
  rw [hparts b', hparts b, h.face, h.opcode (fun h => h), h.inputs (fun h => h), ht, hp]

/-- The mutation of the prototype of a function with these arguments. -/
def Mutation.ofArguments (f : String) (arguments : List (String × Argument)) : Mutation where
  proccode := some
    (arguments.foldl (fun code a => code ++ if a.2.type = .boolean then " %b" else " %s") f)
  argumentIds := some (Json.strings (arguments.map (·.2.id))).compact
  argumentNames := some (Json.strings (arguments.map (·.1))).compact
  argumentDefaults := some (Json.strings
    (arguments.map fun a => if a.2.type = .boolean then "false" else "")).compact
  warp := some false

namespace Procedure

/-- The definition of a function, with a place on the canvas. -/
def definitionBlock (p : Procedure) (point : Point) : Block :=
  { id := p.definition, opcode := .definition, topLevel := true, position := some point
    inputs := .ofEntries [("custom_block", ⟨.argument, .block p.prototype⟩)] }

/-- The prototype of a function. -/
def prototypeBlock (p : Procedure) : Block :=
  { id := p.prototype, opcode := .prototype, shadow := true, mutation := some p.mutation
    inputs := .ofEntries (List.zipWith (fun a r => (a.id, ⟨.argument, .block r⟩))
      p.arguments.values p.reporters) }

/-- The blocks at the top of a function. -/
def blocks (p : Procedure) : List String :=
  p.definition :: p.prototype :: p.reporters

end Procedure

namespace Target

variable {t t' : Target} {x : String} {b : Block}

/-- The target has this block, up to its neighbours and its type. -/
def Shows (t : Target) (x : String) (b : Block) : Prop :=
  ∃ b', t.block? x = some b' ∧ b'.alone = b.alone

theorem Shows.later (h : t.Shows x b)
    (hold : ∀ {x b}, t.block? x = some b → ∃ b', t'.block? x = some b' ∧ b'.alone = b.alone) :
    t'.Shows x b := by
  obtain ⟨b₁, hb₁, heq⟩ := h
  obtain ⟨b₂, hb₂, heq'⟩ := hold hb₁
  exact ⟨b₂, hb₂, heq'.trans heq⟩

theorem Shows.alone_eq {b' : Block} (h : t.Shows x b') (hx : t.block? x = some b) :
    b.alone = b'.alone := by
  obtain ⟨b₁, hb₁, heq⟩ := h
  obtain rfl := Option.mem_unique hx hb₁
  exact heq

/-- So many scripts have places that fit in 32 bits. -/
def maxScripts : Nat := 6710887

theorem place_eq {n : Nat} (h : n < maxScripts) : place n = ⟨0, 30 + n * 320⟩ := by
  have hwords : 30 + Int32.ofNat n * 320 = Int32.ofNat (30 + n * 320) := by
    rw [Int32.ofNat_add, Int32.ofNat_mul]
    rfl
  rw [maxScripts] at h
  rw [place, hwords, Int32.toInt_ofNat_of_lt (by omega)]
  simp

/-- The next place would be above the first ones. -/
example : (place maxScripts).y < 0 := by decide

theorem place_injective {n m : Nat} (hn : n < maxScripts) (hm : m < maxScripts)
    (h : place n = place m) : n = m := by
  rw [place_eq hn, place_eq hm] at h
  have hy : (30 + n * 320 : Int) = 30 + m * 320 := congrArg Point.y h
  omega

end Target

/-- The blocks at the top of a function are there. -/
structure Procedure.Presented (t : Target) (f : String) (p : Procedure) : Prop where
  mutation : p.mutation = .ofArguments f p.arguments.entries
  definition : ∃ point, t.Shows p.definition (p.definitionBlock point)
  prototype : t.Shows p.prototype p.prototypeBlock
  reporters : List.Forall₂ (fun a r => t.Shows r (.reporter r a.1 a.2.type true))
    p.arguments.entries p.reporters

/-- The contents of a target between two statements at the top of a program. -/
structure Target.Arranged (t : Target) : Prop where
  numbered : t.Numbered
  returns : t.Returns
  entry : ∀ {e}, t.entry = some e →
    ∃ point, t.Shows e { Block.flagClicked e with position := some point }
  procedures : ∀ {f p}, t.functionNamed? f = some p → p.Presented t f
  definitions : ∀ {f g p q}, t.functionNamed? f = some p → t.functionNamed? g = some q →
    p.definition = q.definition → f = g
  blocks : ∀ {x b}, t.block? x = some b → b.Scripted t ∨ t.entry = some x ∨
    ∃ f p, t.functionNamed? f = some p ∧ x ∈ p.blocks
  root : ∀ {x b}, t.block? x = some b → b.topLevel = true → b.parent = none
  placed : ∀ {x b point}, t.block? x = some b → b.position = some point →
    ∃ n < t.scripts, point = Target.place n
  apart : t.scripts ≤ Target.maxScripts → ∀ {x y b b' point}, t.block? x = some b →
    t.block? y = some b' → b.position = some point → b'.position = some point → x = y

theorem Procedure.Presented.later {t t' : Target} {f : String} {p : Procedure}
    (h : p.Presented t f)
    (hold : ∀ {x b}, t.block? x = some b → ∃ b', t'.block? x = some b' ∧ b'.alone = b.alone) :
    p.Presented t' f where
  mutation := h.mutation
  definition := by
    obtain ⟨point, hshows⟩ := h.definition
    exact ⟨point, hshows.later hold⟩
  prototype := h.prototype.later hold
  reporters := h.reporters.imp fun _ _ hshows => hshows.later hold

namespace Target.Arranged

variable {t t' : Target} {x : String} {b : Block}

/-- The kinds of blocks in a target. -/
theorem block_cases (h : t.Arranged) (hx : t.block? x = some b) :
    b.Scripted t ∨
    (t.entry = some x ∧ ∃ point,
      b.alone = Block.alone { Block.flagClicked x with position := some point }) ∨
    ∃ f p, t.functionNamed? f = some p ∧
      (x = p.definition ∧ (∃ point, b.alone = (p.definitionBlock point).alone) ∨
        x = p.prototype ∧ b.alone = p.prototypeBlock.alone ∨
        ∃ a type, b.alone = (Block.reporter x a type true).alone) := by
  obtain hb | he | ⟨f, p, hp, hm⟩ := h.blocks hx
  · exact .inl hb
  · obtain ⟨point, hshows⟩ := h.entry he
    exact .inr (.inl ⟨he, point, hshows.alone_eq hx⟩)
  · refine .inr (.inr ⟨f, p, hp, ?_⟩)
    have hpresented := h.procedures hp
    obtain rfl | rfl | hm := by simpa only [Procedure.blocks, List.mem_cons] using hm
    · obtain ⟨point, hshows⟩ := hpresented.definition
      exact .inl ⟨rfl, point, hshows.alone_eq hx⟩
    · exact .inr (.inl ⟨rfl, hpresented.prototype.alone_eq hx⟩)
    · obtain ⟨a, -, hshows⟩ := forall₂_exists_of_mem hpresented.reporters.flip hm
      exact .inr (.inr ⟨a.1, a.2.type, Shows.alone_eq hshows hx⟩)

/-- The slots at the top of functions are those of arguments. -/
theorem apt (h : t.Arranged) (hx : t.block? x = some b) {e : String × Input}
    (he : e ∈ b.inputs.entries) : e.2.Apt t := by
  have hinputs : ∀ {b' : Block}, b.alone = b'.alone → b.inputs = b'.inputs :=
    fun heq => (congrArg Block.inputs heq :)
  obtain hb | ⟨-, point, heq⟩ | ⟨f, p, hp, ⟨-, point, heq⟩ | ⟨-, heq⟩ | ⟨a, type, heq⟩⟩ :=
    h.block_cases hx
  · exact hb.apt e he
  · rw [hinputs heq] at he
    cases he
  · rw [hinputs heq] at he
    obtain rfl := List.mem_singleton.1 (Table.mem_of_mem_ofEntries he)
    exact .of_not_payload (by simp)
  · rw [hinputs heq] at he
    obtain ⟨i, hi, rfl⟩ := List.getElem_of_mem (Table.mem_of_mem_ofEntries he)
    rw [List.getElem_zipWith]
    exact .of_not_payload (by simp)
  · rw [hinputs heq] at he
    cases he

theorem tidy (h : t.Arranged) : t.Tidy :=
  ⟨h.returns, fun _ _ hx _ he => (h.apt hx he).housed⟩

/-- At most one block gets a place on the canvas in a step, and old blocks stay as they are up to
their neighbours. -/
theorem grow (h : t.Arranged) (hnumbered : t.Numbered → t'.Numbered) (hreturns : t'.Returns)
    (hold : ∀ {x b}, t.block? x = some b → ∃ b', t'.block? x = some b' ∧ b'.alone = b.alone ∧
      (b.Scripted t → b'.Scripted t') ∧ (b.topLevel = true → b'.parent = none))
    (hentry : ∀ {e}, t.entry = some e → t'.entry = some e)
    (hentry' : ∀ {e}, t'.entry = some e → t.entry = some e ∨
      ∃ point, t'.Shows e { Block.flagClicked e with position := some point })
    (hfunctions : ∀ {f p}, t.functionNamed? f = some p → t'.functionNamed? f = some p)
    (name : String)
    (hfunctions' : ∀ {f p}, t'.functionNamed? f = some p → t.functionNamed? f = some p ∨
      f = name ∧ p.Presented t' f ∧ t.block? p.definition = none)
    (hnew : ∀ {x b}, t'.block? x = some b → t.block? x = none →
      (b.Scripted t' ∨ t'.entry = some x ∨ ∃ f p, t'.functionNamed? f = some p ∧ x ∈ p.blocks) ∧
        (b.topLevel = true → b.parent = none))
    (hscripts : t.scripts ≤ t'.scripts) (top : String)
    (hplace : ∀ {x b point}, t'.block? x = some b → t.block? x = none → b.position = some point →
      x = top ∧ point = place t.scripts ∧ t.scripts < t'.scripts) : t'.Arranged := by
  have hshow : ∀ {x b}, t.block? x = some b → ∃ b', t'.block? x = some b' ∧ b'.alone = b.alone :=
    fun hx => by
      obtain ⟨b', hb', halone, -⟩ := hold hx
      exact ⟨b', hb', halone⟩
  -- a block with a place is old and has kept it, or it is the one on top of the new script
  have hposition : ∀ {x b' point}, t'.block? x = some b' → b'.position = some point →
      (∃ b, t.block? x = some b ∧ b.position = some point) ∨
        x = top ∧ point = place t.scripts ∧ t.scripts < t'.scripts := by
    intro x b' point hx hpoint
    cases hb : t.block? x with
    | none => exact .inr (hplace hx hb hpoint)
    | some b =>
      obtain ⟨b'', hb'', halone, -⟩ := hold hb
      obtain rfl := Option.mem_unique hx hb''
      exact .inl ⟨b, rfl, (congrArg Block.position halone :).symm.trans hpoint⟩
  have hlower : t.scripts < maxScripts → ∀ {x b point}, t.block? x = some b →
      b.position = some point → point ≠ place t.scripts := by
    rintro hmax x b _ hx hpoint rfl
    obtain ⟨n, hlt, heq⟩ := h.placed hx hpoint
    have := place_injective hmax (Nat.lt_trans hlt hmax) heq
    omega
  refine ⟨hnumbered h.numbered, hreturns, fun he => ?_, fun hp => ?_, fun hp hq heq => ?_,
    fun {x b'} hx => ?_, fun {x b'} hx htop => ?_, fun {x b' point} hx hpoint => ?_,
    fun hmax {x y b b' point} hx hy hxp hyp => ?_⟩
  · obtain he | hshows := hentry' he
    · obtain ⟨point, hshows⟩ := h.entry he
      exact ⟨point, hshows.later hshow⟩
    · exact hshows
  · obtain hp | ⟨-, hpresented, -⟩ := hfunctions' hp
    · exact (h.procedures hp).later hshow
    · exact hpresented
  · have hexists : ∀ {f p}, t.functionNamed? f = some p → t.block? p.definition ≠ none := by
      intro f p hp hnone
      obtain ⟨-, b, hb, -⟩ := (h.procedures hp).definition
      simp [hnone] at hb
    obtain hp | ⟨rfl, -, hpnone⟩ := hfunctions' hp
    · obtain hq | ⟨-, -, hqnone⟩ := hfunctions' hq
      · exact h.definitions hp hq heq
      · exact absurd (heq ▸ hqnone) (hexists hp)
    · obtain hq | ⟨rfl, -, -⟩ := hfunctions' hq
      · exact absurd (heq ▸ hpnone) (hexists hq)
      · rfl
  · cases hb : t.block? x with
    | none => exact (hnew hx hb).1
    | some b =>
      obtain ⟨b'', hb'', -, hscripted, -⟩ := hold hb
      obtain rfl := Option.mem_unique hx hb''
      obtain hb | he | ⟨f, p, hp, hm⟩ := h.blocks hb
      · exact .inl (hscripted hb)
      · exact .inr (.inl (hentry he))
      · exact .inr (.inr ⟨f, p, hfunctions hp, hm⟩)
  · cases hb : t.block? x with
    | none => exact (hnew hx hb).2 htop
    | some b =>
      obtain ⟨b'', hb'', halone, -, hparent⟩ := hold hb
      obtain rfl := Option.mem_unique hx hb''
      exact hparent ((congrArg Block.topLevel halone :).symm.trans htop)
  · obtain ⟨b, hb, hpoint⟩ | ⟨-, rfl, hlt⟩ := hposition hx hpoint
    · obtain ⟨n, hn, rfl⟩ := h.placed hb hpoint
      exact ⟨n, Nat.lt_of_lt_of_le hn hscripts, rfl⟩
    · exact ⟨t.scripts, hlt, rfl⟩
  · obtain ⟨bx, hbx, hbxp⟩ | ⟨rfl, hxplace, hlt⟩ := hposition hx hxp
    · obtain ⟨by', hby, hbyp⟩ | ⟨-, hyplace, hlt⟩ := hposition hy hyp
      · exact h.apart (Nat.le_trans hscripts hmax) hbx hby hbxp hbyp
      · exact absurd hyplace (hlower (Nat.lt_of_lt_of_le hlt hmax) hbx hbxp)
    · obtain ⟨by', hby, hbyp⟩ | ⟨rfl, -, -⟩ := hposition hy hyp
      · exact absurd hxplace (hlower (Nat.lt_of_lt_of_le hlt hmax) hby hbyp)
      · rfl

/-- Nothing but ids, comments and variables has changed. -/
theorem of_blocks (h : t.Arranged) (hblocks : t'.blocks = t.blocks)
    (hfunctions : t'.functions = t.functions) (hentry : t'.entry = t.entry)
    (hw : t.Enlarged (fun _ => False) t') : t'.Arranged := by
  have hsame : ∀ x, t'.block? x = t.block? x := fun x => by rw [block?, hblocks]; rfl
  have hnone : ∀ {x b}, t'.block? x = some b → t.block? x ≠ none := by
    intro x b hx hn
    simp [hsame, hn] at hx
  refine h.grow hw.numbered (h.returns.later hfunctions hw.declares)
    (fun {x b} hx => ⟨b, (hsame x).trans hx, rfl, hw.scripted, h.root hx⟩) (hentry ▸ id)
    (fun he => .inl (hentry ▸ he)) hw.functions "" (fun {f p} hp => .inl ?_)
    (fun hx hn => absurd hn (hnone hx)) (Nat.le_of_eq hw.scripts.symm) ""
    fun hx hn => absurd hn (hnone hx)
  rw [functionNamed?, ← hfunctions]
  exact hp

end Target.Arranged

namespace Compilation

variable {c c' : Compilation} {ids new : List String} {e : String}

/-- Statements of the main script write blocks of scripts only. -/
theorem Writes.arranged (hw : c.Writes ⟨some e, []⟩ c') (h : c.target.Arranged)
    (hb : c.Between ids) (hentry : c.target.entry = some e)
    (he : Extended ⟨some e, []⟩ ids new (fun _ => False) c c') : c'.target.Arranged := by
  have hsited := (hb.started hentry).1
  refine h.grow hw.numbered (h.returns.later he.persists.functions hw.declares)
    (fun {x b} hx => ?_) (he.persists.entry ▸ id) (fun he' => .inl (he.persists.entry ▸ he'))
    hw.functions e (fun {f p} hp => .inl (he.persists.functionNamed? f ▸ hp))
    (fun {x b} hx hn => ?_) (Nat.le_of_eq hw.scripts.symm) e fun {x b point} hx hn hpoint => ?_
  · obtain ⟨b', hb', hk⟩ := Emit.extended_old he hb hx
    obtain ⟨b'', hb'', hlasts⟩ := hw.old hx
    obtain rfl := Option.mem_unique hb' hb''
    refine ⟨b', hb', Block.alone_eq_of_kept hk hlasts.topLevel hlasts.position,
      (·.lasts hlasts hw.declares hw.functions), fun htop => ?_⟩
    have hroot : b.parent = none := h.root hx htop
    by_cases hm : x ∈ e :: ids
    · obtain rfl | hm := List.mem_cons.1 hm
      · obtain ⟨l, hl, hparent, -⟩ := he.runs.sited.chain.1
        rw [Target.links_eq_some hb'] at hl
        cases hl
        exact hparent
      · obtain ⟨l, q, hl, hparent⟩ := Chain.exists_parent hsited.chain.2 hm
        rw [Target.links_eq_some hx] at hl
        cases hl
        simp [show b.parent = some q from hparent] at hroot
    · exact (hk.parent hm).trans hroot
  · obtain ⟨hscripted, -⟩ := hw.new hx hn
    exact ⟨.inl hscripted, fun htop => by simp [hscripted.topLevel] at htop⟩
  · simp [(hw.new hx hn).1.position] at hpoint

/-- Without errors what they write is held. -/
theorem Writes.held (hw : c.Writes ⟨some e, []⟩ c')
    (he : Extended ⟨some e, []⟩ ids new (fun _ => False) c c')
    (hsuccess : c'.project.success = true)
    (h : ∀ {x b}, c.target.block? x = some b → b.parent = none → b.topLevel = true) {x : String}
    {b : Block} (hx : c'.target.block? x = some b) (hparent : b.parent = none) :
    b.topLevel = true := by
  cases hb : c.target.block? x with
  | none =>
    obtain hloud | hhas := (hw.new hx hb).2 hparent
    · simp [hloud] at hsuccess
    · have hm : x ∈ ids ++ new := hhas.mem he.runs.sited
      obtain ⟨l, q, hl, hq⟩ := Chain.exists_parent he.runs.sited.chain.2 hm
      rw [Target.links_eq_some hx] at hl
      cases hl
      simp [show b.parent = some q from hq] at hparent
  | some b₀ =>
    obtain ⟨b', hb', hlasts⟩ := hw.old hb
    obtain rfl := Option.mem_unique hx hb'
    rw [hlasts.topLevel]
    exact h hb (hlasts.parent hparent)

end Compilation

namespace Target

variable {t : Target}

/-- The start of the main script takes the next place on the canvas. -/
theorem Arranged.ensureEntry (h : t.Arranged) (hs : Sound t)
    (hidle : t.entry = none → t.scopes = []) : t.ensureEntry.Arranged := by
  cases hentry : t.entry with
  | some e =>
    have hsame : t.ensureEntry = t := by simp only [Target.ensureEntry, hentry]
    rw [hsame]
    exact h
  | none =>
    have hbegins := ensureEntry_begins hentry (hidle hentry)
    have heq := ensureEntry_eq hentry (hidle hentry)
    have hfresh : t.block? (t.freshId "block") = none := hs.fresh (Nat.lt_succ_self _)
    have hnew : ∀ {x b}, t.ensureEntry.block? x = some b → t.block? x = none →
        x = t.freshId "block" ∧ b = t.startBlock := by
      intro x b hx hn
      rw [hbegins.block?] at hx
      split at hx
      next hid =>
        cases hx
        exact ⟨hid.symm, rfl⟩
      next => simp [hn] at hx
    have hdeclares : ∀ {ref}, t.Declares ref → t.ensureEntry.Declares ref := by
      rintro ref ⟨v, hv, href⟩
      exact ⟨v, (hbegins.variableNamed? _).trans hv, href⟩
    refine h.grow (fun hn => ?_) (h.returns.later hbegins.functions hdeclares) (fun {x b} hx => ?_)
      (fun he => by simp [hentry] at he) (fun {e} he => .inr ⟨t.scriptPosition, t.startBlock, ?_, ?_⟩)
      (fun {f p} hp => (hbegins.functionNamed? f).trans hp) ""
      (fun {f p} hp => .inl ((hbegins.functionNamed? f).symm.trans hp)) (fun {x b} hx hn => ?_) ?_
      (t.freshId "block") fun {x b point} hx hn hpoint => ?_
    · rw [heq]
      exact hn.of_names rfl rfl rfl rfl (Nat.le_succ _) fun hx hnone =>
        ⟨_, (hnew (heq ▸ hx) hnone).1⟩
    · refine ⟨b, hbegins.old hs hx, rfl, (·.lasts (.refl _ b) hdeclares ?_), h.root hx⟩
      exact fun {f p} hp => (hbegins.functionNamed? f).trans hp
    · rw [hbegins.entry] at he
      cases he
      exact hbegins.start
    · rw [hbegins.entry] at he
      cases he
      rfl
    · obtain ⟨rfl, rfl⟩ := hnew hx hn
      exact ⟨.inr (.inl hbegins.entry), fun _ => rfl⟩
    · rw [heq]
      exact Nat.le_succ _
    · obtain ⟨rfl, rfl⟩ := hnew hx hn
      cases hpoint
      refine ⟨rfl, rfl, ?_⟩
      rw [heq]
      exact Nat.lt_succ_self _

end Target
end ScriptBlocks
