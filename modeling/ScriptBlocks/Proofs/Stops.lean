import ScriptBlocks.Proofs.References

/-!
# Stop blocks

A `return` ends with a block that stops the script. The statements after it are compiled all the
same, and their blocks follow the stop. So a stop ends its chain exactly if nothing with a block comes
after its `return`.
-/
namespace ScriptBlocks

variable {inner xs ys trees : List Tree} {look : String → Option View} {S : String → Prop}
variable {left right : Content} {outer : List Statement} {span : Span}

def Tree.opcode : Tree → Opcode
  | .node opcode _ _ _ => opcode

/-- A block of a script, with `rest` after it in its chain. The chain is the script itself or stands
in a slot of one of its blocks. -/
inductive Tree.Occurs (tree : Tree) (rest : List Tree) : List Tree → Prop
  | here : Occurs tree rest (tree :: rest)
  | later {first : Tree} {script : List Tree} : Occurs tree rest script →
      Occurs tree rest (first :: script)
  | inside {opcode : Opcode} {fields : List (String × Field)} {mutation : Option Mutation}
      {slots : List (String × Content)} {slot : String} {inner script : List Tree} :
      (slot, .script inner) ∈ slots → Occurs tree rest inner →
      Occurs tree rest (.node opcode fields mutation slots :: script)

namespace Tree.Occurs

variable {tree u : Tree} {rest rest' script : List Tree}

theorem next (h : tree.Occurs (u :: rest) script) : u.Occurs rest script := by
  induction h with
  | here => exact .later .here
  | later _ ih => exact .later ih
  | inside hm _ ih => exact .inside hm ih

theorem slot {opcode : Opcode} {fields : List (String × Field)} {mutation : Option Mutation}
    {slots : List (String × Content)} {slot : String}
    (h : (Tree.node opcode fields mutation slots).Occurs rest script)
    (hm : (slot, .script inner) ∈ slots) (hu : u.Occurs rest' inner) : u.Occurs rest' script := by
  induction h with
  | here => exact .inside hm hu
  | later _ ih => exact .later ih
  | inside hm' _ ih => exact .inside hm' ih

end Tree.Occurs

/-! ### The blocks of a script in the graph -/

/-- A block of the graph is one of a script, and what follows it reads as what follows it there. -/
def Target.Within (t : Target) (script : List Tree) (x : String) : Prop :=
  ∃ (tree : Tree) (rest : List Tree) (b : Block), tree.Occurs rest script ∧ t.block? x = some b ∧
    tree.At t.look (fun _ => True) x ∧ ScriptAt t.look (fun _ => True) b.next rest

theorem Input.value_of_block? {input : Input} {x : String} (h : input.block? = some x) :
    input.value = .block x := by
  obtain ⟨kind, value⟩ := input
  cases value with
  | block y => exact congrArg SlotValue.block (Option.some.inj h)
  | empty => cases h
  | payload => cases h

theorem slotsAt_of_mem {values : List (String × SlotValue)} {slots : List (String × Content)}
    {slot y : String} (h : SlotsAt look S values slots) (hm : (slot, .block y) ∈ values) :
    ∃ inner, (slot, .script inner) ∈ slots ∧ ScriptAt look S (some y) inner := by
  induction values generalizing slots with
  | nil => cases hm
  | cons first values ih =>
    obtain ⟨name, value⟩ := first
    cases slots with
    | nil => exact h.elim
    | cons second slots =>
      obtain ⟨name', content⟩ := second
      obtain ⟨rfl, hfirst, hrest⟩ := h
      obtain heq | hm := List.mem_cons.1 hm
      · cases heq
        cases content with
        | empty => exact hfirst.elim
        | payload => exact hfirst.elim
        | script inner => exact ⟨inner, List.mem_cons_self, hfirst⟩
      · obtain ⟨inner, hinner, hy⟩ := ih hrest hm
        exact ⟨inner, List.mem_cons_of_mem _ hinner, hy⟩

section

variable {t : Target} {script : List Tree} {x y : String} {b : Block}

/-- The chain that starts with a block is one of the script. -/
theorem Target.Within.of_scriptAt {chain : List Tree}
    (h : ScriptAt t.look (fun _ => True) (some x) chain)
    (hchain : ∀ tree rest, chain = tree :: rest → tree.Occurs rest script) : t.Within script x := by
  cases chain with
  | nil => exact h.elim
  | cons tree rest =>
    obtain ⟨-, htree, v, hv, hrest⟩ := h
    obtain ⟨b, hb, rfl⟩ := Option.map_eq_some_iff.1 hv
    exact ⟨tree, rest, b, hchain tree rest rfl, hb, htree, hrest⟩

/-- From a block of a script one gets to blocks of the script only. -/
theorem Target.Within.leadsTo (h : t.Within script x) (hx : t.block? x = some b) (hy : b.LeadsTo y) :
    t.Within script y := by
  obtain ⟨tree, rest, b', hoccurs, hx', htree, hrest⟩ := h
  obtain rfl := Option.mem_unique hx hx'
  obtain hnext | ⟨slot, input, hm, hinput⟩ := hy
  · rw [hnext] at hrest
    exact .of_scriptAt hrest fun u rest' heq => (heq ▸ hoccurs).next
  · obtain ⟨opcode, fields, mutation, slots⟩ := tree
    obtain ⟨v, hv, -, -, -, hslots⟩ := htree
    obtain ⟨b', hb', rfl⟩ := Option.map_eq_some_iff.1 hv
    obtain rfl := Option.mem_unique hx hb'
    obtain ⟨inner, hinner, hread⟩ := slotsAt_of_mem hslots
      (List.mem_map.2 ⟨(slot, input), hm, by rw [Input.value_of_block? hinput]⟩)
    exact .of_scriptAt hread fun u rest' heq => hoccurs.slot hinner (heq ▸ .here)

end

/-! ### The heads of scripts -/

/-- The start of the main script, or a block at the top of a function. -/
def Target.IsHead (t : Target) (x : String) : Prop :=
  t.entry = some x ∨ ∃ f p, t.functionNamed? f = some p ∧ x ∈ p.blocks

/-- The start of the main script or the definition of a function. A script hangs below. -/
def Target.IsTop (t : Target) (x : String) : Prop :=
  t.entry = some x ∨ ∃ f p, t.functionNamed? f = some p ∧ p.definition = x

theorem forall₂_zipWith_mem {α β γ : Type} {R : α → β → Prop} (g : α → β → γ) {as : List α}
    {bs : List β} {b : β} (h : List.Forall₂ R as bs) (hb : b ∈ bs) :
    ∃ a ∈ as, R a b ∧ g a b ∈ List.zipWith g as bs := by
  induction h with
  | nil => cases hb
  | cons hab _ ih =>
    obtain rfl | hb := List.mem_cons.1 hb
    · exact ⟨_, List.mem_cons_self, hab, List.mem_cons_self⟩
    · obtain ⟨a, ha, hr, hm⟩ := ih hb
      exact ⟨a, List.mem_cons_of_mem _ ha, hr, List.mem_cons_of_mem _ hm⟩

theorem Target.Shows.inputs_eq {t : Target} {x : String} {b b' : Block} (h : t.Shows x b')
    (hx : t.block? x = some b) : b.inputs = b'.inputs :=
  (congrArg Block.inputs (h.alone_eq hx) :)

namespace Target.Arranged

variable {t : Target} {x y : String} {b : Block}

theorem head_opcode (h : t.Arranged) (hx : t.block? x = some b) (hhead : t.IsHead x) :
    b.opcode ≠ .stop := by
  have hshown : ∀ {b'}, t.Shows x b' → b.opcode = b'.opcode :=
    fun hshows => (congrArg Block.opcode (hshows.alone_eq hx) :)
  obtain he | ⟨f, p, hp, hm⟩ := hhead
  · obtain ⟨point, hshows⟩ := h.entry he
    simp [hshown hshows, Block.flagClicked]
  · have hpresented := h.procedures hp
    obtain rfl | rfl | hm := by simpa only [Procedure.blocks, List.mem_cons] using hm
    · obtain ⟨point, hshows⟩ := hpresented.definition
      simp [hshown hshows, Procedure.definitionBlock]
    · simp [hshown hpresented.prototype, Procedure.prototypeBlock]
    · obtain ⟨a, -, hshows⟩ := forall₂_exists_of_mem hpresented.reporters.flip hm
      simp [hshown hshows, Block.reporter, Block.reporterOpcode]

/-- The slots for arguments are not those for bodies. -/
theorem argument_slot (h : t.Arranged) {f : String} {p : Procedure}
    (hp : t.functionNamed? f = some p) {a : String × Argument} (ha : a ∈ p.arguments.entries) :
    isBodySlot a.2.id = false := by
  obtain ⟨ns, -, -, hids⟩ := h.numbered.arguments
  have hm : a.2.id ∈ t.functions.values.flatMap fun p => p.arguments.values.map Argument.id :=
    List.mem_flatMap.2 ⟨p, Table.mem_values_iff.2 ⟨f, hp⟩,
      List.mem_map_of_mem (List.mem_map_of_mem ha)⟩
  rw [hids] at hm
  obtain ⟨n, -, hn⟩ := List.mem_map.1 hm
  have hne : ∀ slot : String, slot.toList.head? = some 'S' → a.2.id ≠ slot := by
    rintro slot hslot rfl
    rw [← hn, Target.idText_toList] at hslot
    simp at hslot
  simp [isBodySlot, hne "SUBSTACK" rfl, hne "SUBSTACK2" rfl]

/-- The head of a script leads to its script or, through slots, to other heads. -/
theorem head_leadsTo (h : t.Arranged) (hs : Sound t) (hx : t.block? x = some b)
    (hhead : t.IsHead x) (hy : b.LeadsTo y) : t.IsHead y ∨ b.next = some y ∧ t.IsTop x := by
  obtain he | ⟨f, p, hp, hm⟩ := hhead
  · obtain ⟨point, hshows⟩ := h.entry he
    refine .inr ⟨hy.resolve_right ?_, .inl he⟩
    rintro ⟨slot, input, hslot, -⟩
    rw [hshows.inputs_eq hx] at hslot
    cases hslot
  have hpresented := h.procedures hp
  obtain ⟨point, hdefinition⟩ := hpresented.definition
  have hprototype := hpresented.prototype
  have hslots := hpresented.inputs_eq (h.numbered.slotNames_nodup hp)
  obtain rfl | rfl | hm := by simpa only [Procedure.blocks, List.mem_cons] using hm
  · obtain hnext | ⟨slot, input, hslot, hinput⟩ := hy
    · exact .inr ⟨hnext, .inr ⟨f, p, hp, rfl⟩⟩
    rw [hdefinition.inputs_eq hx] at hslot
    cases List.mem_singleton.1 hslot
    cases hinput
    exact .inl (.inr ⟨f, p, hp, by simp [Procedure.blocks]⟩)
  · obtain hnext | ⟨slot, input, hslot, hinput⟩ := hy
    · obtain ⟨d, hd, -⟩ := id hdefinition
      have hslot : ("custom_block", .block p.prototype) ∈ d.slots := by
        rw [Block.slots, hdefinition.inputs_eq hd]
        exact List.mem_singleton_self _
      rw [Emit.next_eq_none hs hd hslot rfl hx] at hnext
      cases hnext
    · rw [hprototype.inputs_eq hx, hslots] at hslot
      obtain ⟨a, -, r, heq, hr, -⟩ := forall₂_exists_of_mem
        (forall₂_zipWith _ (forall₂_mem hpresented.reporters.flip).flip).flip hslot
      cases heq
      cases hinput
      exact .inl (.inr ⟨f, p, hp, by simp [Procedure.blocks, hr]⟩)
  · obtain ⟨a, ha, hreporter, hmem⟩ := forall₂_zipWith_mem (fun (a : String × Argument) r =>
      (a.2.id, (⟨.argument, .block r⟩ : Input))) hpresented.reporters hm
    obtain hnext | ⟨slot, input, hslot, -⟩ := hy
    · obtain ⟨q, hq, -⟩ := id hprototype
      have hslot : (a.2.id, .block x) ∈ q.slots := by
        rw [Block.slots, hprototype.inputs_eq hq, hslots]
        exact List.mem_map_of_mem (f := fun e : String × Input => (e.1, e.2.value)) hmem
      rw [Emit.next_eq_none hs hq hslot (h.argument_slot hp ha) hx] at hnext
      cases hnext
    · rw [hreporter.inputs_eq hx] at hslot
      cases hslot

end Target.Arranged

section

variable {program : Program} {sprite x : String} {b : Block}

/-- Below the top of a script there is one of the program. -/
theorem Program.top_script (hsuccess : (program.compiled sprite).project.success = true)
    (hx : (program.compiled sprite).target.block? x = some b)
    (htop : (program.compiled sprite).target.IsTop x) :
    let t := (program.compiled sprite).target
    ∃ env body, program.HasScript t env body ∧
      ScriptAt t.look (fun _ => True) b.next (env.script body) := by
  intro t
  obtain he | ⟨f, p, hp, rfl⟩ := htop
  · obtain ⟨b', hb', -, hreads⟩ := (Program.compiled_reads hsuccess).2 x he
    obtain rfl := Option.mem_unique hx hb'
    exact ⟨t.env, program.statements, .main (.refl _), hreads⟩
  · obtain hnone | ⟨v, hv, name, params, body, rfl, h⟩ :=
      Emit.program_introduced (Compilation.Between.new sprite) hp
    · cases hnone
    obtain ⟨span, hspan⟩ := h.statement
    obtain ⟨b', hb', hreads⟩ := h.reads hsuccess (Target.bodyEnv_covers _ _)
    obtain rfl := Option.mem_unique hx hb'
    exact ⟨t.bodyEnv p, body, .function (hspan ▸ Visit.statement_mem_of_mem_program hv) hp (.refl _),
      hreads⟩

/-- Without errors every block is the head of a script or belongs to a script of the program. -/
theorem Program.within_script (hsuccess : (program.compiled sprite).project.success = true)
    (hx : (program.compiled sprite).target.block? x = some b) :
    let t := (program.compiled sprite).target
    t.IsHead x ∨ ∃ env body, program.HasScript t env body ∧ t.Within (env.script body) x := by
  intro t
  obtain ⟨⟨ids, hassembled⟩, -⟩ := program.compiled_assembled sprite
  have harranged := hassembled.arranged
  have hsound := hassembled.between.sound
  obtain ⟨r, top, hr, hroot, hreach⟩ := Target.exists_reaches hsound.linked
    (hsound.linked.rooted (Target.links_eq_some hx))
  clear hx
  -- down from the top the blocks stay heads until a script begins
  induction hreach with
  | refl =>
    refine .inl (((harranged.topLevel_iff hr).1 (hassembled.held hsuccess hr hroot)).imp_right ?_)
    rintro ⟨f, p, hp, rfl⟩
    exact ⟨f, p, hp, List.mem_cons_self⟩
  | step _ hb hy ih =>
    obtain hhead | ⟨env, body, hscript, hwithin⟩ := ih
    · obtain hhead | ⟨hnext, htop⟩ := harranged.head_leadsTo hsound hb hhead hy
      · exact .inl hhead
      · obtain ⟨env, body, hscript, hreads⟩ := Program.top_script hsuccess hb htop
        rw [hnext] at hreads
        exact .inr ⟨env, body, hscript, .of_scriptAt hreads fun _ _ heq => heq ▸ .here⟩
    · exact .inr ⟨env, body, hscript, hwithin.leadsTo hb hy⟩

end

/-! ### Stops in the translation -/

/-- No block of a script stops it. -/
def Stopless (script : List Tree) : Prop :=
  ∀ (tree : Tree) (rest : List Tree), tree.Occurs rest script → tree.opcode ≠ .stop

def Content.Stopless : Content → Prop
  | .script blocks => ScriptBlocks.Stopless blocks
  | _ => True

theorem Tree.Occurs.of_append {tree : Tree} {rest : List Tree} (hstop : tree.opcode = .stop)
    (hxs : Stopless xs) (h : tree.Occurs rest (xs ++ ys)) : tree.Occurs rest ys := by
  induction xs with
  | nil => exact h
  | cons x xs ih =>
    cases h with
    | here => exact absurd hstop (hxs _ _ .here)
    | later h => exact ih (fun u rest' hu => hxs u rest' (.later hu)) h
    | inside hm h => exact absurd hstop (hxs _ _ (.inside hm h))

theorem stopless_node {opcode : Opcode} {fields : List (String × Field)} {mutation : Option Mutation}
    {slots : List (String × Content)} (hopcode : opcode ≠ .stop)
    (hslots : ∀ e ∈ slots, e.2.Stopless) : Stopless [.node opcode fields mutation slots] := by
  intro tree rest h
  cases h with
  | here => exact hopcode
  | later h => cases h
  | inside hm h => exact hslots _ hm _ _ h

theorem stopless_append (hxs : Stopless xs) (hys : Stopless ys) : Stopless (xs ++ ys) :=
  fun tree rest h hstop => hys tree rest (h.of_append hstop hxs) hstop

theorem unary_stopless (op : UnaryOp) {operand : Content} (h : operand.Stopless) :
    Stopless [Env.unary op operand] := by
  cases op with
  | not => exact stopless_node (by simp) (by simpa using h)
  | plus => exact stopless_node (by simp) (by simpa [Content.Stopless] using h)
  | minus => exact stopless_node (by simp) (by simpa [Content.Stopless] using h)

theorem relation_stopless {opcode : Opcode} (hopcode : opcode ≠ .stop) (hl : left.Stopless)
    (hr : right.Stopless) : Stopless [.relation opcode left right] :=
  stopless_node hopcode (by simp [hl, hr])

theorem binary_stopless (op : BinaryOp) (hl : left.Stopless) (hr : right.Stopless) :
    Stopless [Env.binary op left right] := by
  have hequals : (Content.script [.relation .equals left right]).Stopless :=
    relation_stopless (by simp) hl hr
  obtain op | op | op := op
  · exact stopless_node (by simp) (by simp [hl, hr])
  · cases op with
    | equal => exact hequals
    | notEqual => exact stopless_node (by simp) (by simpa using hequals)
    | less | greater => exact relation_stopless (by simp) hl hr
    | lessOrEqual | greaterOrEqual =>
      exact relation_stopless (by simp) (relation_stopless (by simp) hl hr) hequals
  · exact relation_stopless (by simp) hl hr

namespace Env

variable (env : Env)

theorem name_stopless (n : String) : (env.name n).Stopless := by
  simp only [name]
  split
  · exact stopless_node (by simp [Block.reporterOpcode]) (by simp)
  · trivial

theorem content_stopless (e : Expr) : (env.content e).Stopless := by
  cases e with
  | literal => trivial
  | name n =>
    rw [content]
    exact env.name_stopless n
  | paren inner =>
    rw [content]
    exact content_stopless inner
  | unary op opSpan e =>
    rw [content]
    exact unary_stopless op (content_stopless e)
  | binary op opSpan left right =>
    rw [content]
    exact binary_stopless op (content_stopless left) (content_stopless right)
  | call => trivial

theorem call_stopless (f : String) (arguments : List Expr) : Stopless [env.call f arguments] := by
  have hslots : ∀ (names : List String) (contents : List Content), (∀ c ∈ contents, c.Stopless) →
      ∀ e ∈ Tree.slotsNamed names contents, e.2.Stopless := by
    intro names contents h
    induction contents generalizing names with
    | nil => simp [Tree.slotsNamed]
    | cons content contents ih =>
      rw [List.forall_mem_cons] at h
      exact List.forall_mem_cons.2 ⟨h.1, ih names.tail h.2⟩
  refine stopless_node (by simp) (hslots _ _ fun content hm => ?_)
  obtain ⟨e, -, rfl⟩ := List.mem_map.1 hm
  exact env.content_stopless e

theorem callsOf_stopless (es : List Expr) : Stopless (env.callsOf es) := by
  rw [callsOf_eq]
  induction Expr.callsOf es with
  | nil => exact fun _ _ h => by cases h
  | cons call calls ih => exact stopless_append (env.call_stopless call.1 call.2) ih

theorem calls_stopless (e : Expr) : Stopless (env.calls e) := by
  have h := env.callsOf_stopless [e]
  rwa [callsOf, callsOf, List.append_nil] at h

end Env

/-- A `return` in a script or in the bodies of its conditionals, with the statements after it. -/
def Statement.Returns (body after : List Statement) : Prop :=
  ∃ before value span, Nested body (before ++ .yield value span :: after)

section

variable {env : Env} {tree : Tree} {rest tail : List Tree} {body after : List Statement}

theorem Statement.Returns.cons (h : Returns body after) (s : Statement) : Returns (s :: body) after := by
  obtain ⟨before, value, span, h⟩ := h
  generalize hinner : before ++ .yield value span :: after = inner at h
  cases h with
  | refl =>
    refine ⟨s :: before, value, span, ?_⟩
    rw [List.cons_append, hinner]
    exact .refl _
  | body hm hn => exact ⟨before, value, span, hinner ▸ .body (List.mem_cons_of_mem _ hm) hn⟩
  | alternative hm hn =>
    exact ⟨before, value, span, hinner ▸ .alternative (List.mem_cons_of_mem _ hm) hn⟩

/-- A stop in the translation of a script is that of a `return`. -/
def Env.Stops (env : Env) (body : List Statement) (tree : Tree) (rest : List Tree) : Prop :=
  ∃ after, Statement.Returns body after ∧ tree = .stop ∧ rest = env.script after

theorem Env.Stops.nest (h : env.Stops body tree rest)
    (hn : ∀ {inner}, Statement.Nested body inner → Statement.Nested outer inner) :
    env.Stops outer tree rest := by
  obtain ⟨after, ⟨before, value, span, h⟩, htree⟩ := h
  exact ⟨after, ⟨before, value, span, hn h⟩, htree⟩

theorem Content.of_body (h : Content.script inner = .body trees) : inner = trees := by
  cases trees <;> cases h
  rfl

/-- A stop of a conditional is one of its bodies. -/
theorem Env.branch_stops {condition : Expr} {otherwise : Alternative}
    (hbody : tree.Occurs rest (env.script body) → env.Stops body tree rest)
    (hother : ∀ trees ∈ env.alternative otherwise, tree.Occurs rest trees →
      env.Stops otherwise.statements tree rest) (hstop : tree.opcode = .stop)
    (h : tree.Occurs rest (env.statement (.branch condition body otherwise span) ++ tail))
    (hm : .branch condition body otherwise span ∈ outer) :
    env.Stops outer tree rest ∨ tree.Occurs rest tail := by
  rw [Env.statement, List.append_assoc] at h
  replace h := h.of_append hstop (env.calls_stopless condition)
  have hinside : ∀ {slot : String} {inner : List Tree}, tree.Occurs rest inner →
      (slot, Content.script inner) = ("CONDITION", env.content condition) ∨
      (slot, Content.script inner) = ("SUBSTACK", .body (env.script body)) ∨
      (∃ trees ∈ env.alternative otherwise,
        (slot, Content.script inner) = ("SUBSTACK2", .body trees)) → env.Stops outer tree rest := by
    rintro slot inner h (heq | heq | ⟨trees, htrees, heq⟩)
    · have hcondition := env.content_stopless condition
      rw [← (Prod.mk.inj heq).2] at hcondition
      exact absurd hstop (hcondition tree rest h)
    · obtain rfl := Content.of_body (Prod.mk.inj heq).2
      exact (hbody h).nest (.body hm)
    · obtain rfl := Content.of_body (Prod.mk.inj heq).2
      exact (hother _ htrees h).nest (.alternative hm)
  cases halternative : env.alternative otherwise with
  | none | some trees =>
    rw [halternative] at h
    cases h with
    | here => cases hstop
    | later h => exact .inr h
    | inside hslot h => exact .inl (hinside h (by simpa [halternative] using hslot))

end

mutual

theorem Env.script_stops (env : Env) {tree : Tree} {rest : List Tree} (hstop : tree.opcode = .stop) :
    (body : List Statement) → tree.Occurs rest (env.script body) → env.Stops body tree rest
  | [], h => by cases h
  | s :: body, h => by
    have hlater : tree.Occurs rest (env.script body) → env.Stops (s :: body) tree rest := by
      intro h
      obtain ⟨after, hreturns, htree⟩ := Env.script_stops env hstop body h
      exact ⟨after, hreturns.cons s, htree⟩
    rw [Env.script] at h
    have hsilent : Stopless (env.statement s) → env.Stops (s :: body) tree rest :=
      fun hs => hlater (h.of_append hstop hs)
    have hset : ∀ {ref : VariableRef} {e : Expr} {value : Content}, value.Stopless →
        Stopless (env.calls e ++ [.setVariable ref value]) := fun {_ e _} hv =>
      stopless_append (env.calls_stopless e) (stopless_node (by simp) (by simpa using hv))
    cases s with
    | declare target value span =>
      refine hsilent ?_
      rw [Env.statement]
      exact hset (env.content_stopless value)
    | assign target op opSpan value span =>
      refine hsilent ?_
      cases op with
      | none =>
        rw [Env.statement]
        exact hset (env.content_stopless value)
      | some op =>
        rw [Env.statement]
        refine hset (stopless_node (by simp) ?_)
        simp [env.name_stopless, env.content_stopless]
    | yield value span =>
      rw [Env.statement, List.append_cons, List.append_assoc] at h
      obtain _ | h | ⟨hslot, -⟩ := h.of_append hstop (hset (env.content_stopless value))
      · exact ⟨body, ⟨[], value, span, .refl _⟩, rfl, rfl⟩
      · exact hlater h
      · cases hslot
    | call f arguments span =>
      refine hsilent ?_
      rw [Env.statement]
      exact stopless_append (env.callsOf_stopless arguments) (env.call_stopless f arguments)
    | branch condition inner otherwise span =>
      exact (Env.branch_stops (Env.script_stops env hstop inner)
        (Env.alternative_stops env hstop otherwise) hstop h List.mem_cons_self).elim id hlater
    | function name params inner span =>
      rw [Env.statement] at h
      exact hlater h
    | directive name span =>
      rw [Env.statement] at h
      exact hlater h
    | comment text span =>
      rw [Env.statement] at h
      exact hlater h

theorem Env.alternative_stops (env : Env) {tree : Tree} {rest : List Tree}
    (hstop : tree.opcode = .stop) : (otherwise : Alternative) →
    ∀ trees ∈ env.alternative otherwise, tree.Occurs rest trees →
      env.Stops otherwise.statements tree rest
  | .none, trees, htrees, h => by cases htrees
  | .block body, trees, htrees, h => by
    obtain rfl := Option.some.inj htrees
    exact Env.script_stops env hstop body h
  | .branch condition body otherwise span, trees, htrees, h => by
    obtain rfl := Option.some.inj htrees
    have hbranch : tree.Occurs rest (env.statement (.branch condition body otherwise span) ++ []) := by
      rwa [Env.statement, List.append_nil]
    obtain hstops | hnil := Env.branch_stops (Env.script_stops env hstop body)
      (Env.alternative_stops env hstop otherwise) hstop hbranch (List.mem_singleton_self _)
    · exact hstops
    · cases hnil

end

/-! ### Stops in the graph -/

theorem Env.script_eq_nil_iff (env : Env) {body : List Statement} :
    env.script body = [] ↔ ∀ s ∈ body, Emit.needsEntry s = false := by
  have hstatement : ∀ s : Statement, env.statement s = [] ↔ Emit.needsEntry s = false := by
    intro s
    cases s with
    | assign target op opSpan value span => cases op <;> simp [Env.statement, Emit.needsEntry]
    | _ => simp [Env.statement, Emit.needsEntry]
  induction body with
  | nil => simp [Env.script]
  | cons s body ih => simp [Env.script, hstatement, ih]

theorem scriptAt_next_iff {start : Option String} (h : ScriptAt look S start trees) :
    start = none ↔ trees = [] := by
  cases start <;> cases trees <;> simp_all [ScriptAt]

theorem Statement.Nested.trans {a b c : List Statement} (h : Nested a b) (h' : Nested b c) :
    Nested a c := by
  induction h with
  | refl => exact h'
  | body hm _ ih => exact .body hm (ih h')
  | alternative hm _ ih => exact .alternative hm (ih h')

theorem Program.HasScript.nested {program : Program} {t : Target} {env : Env}
    {body inner : List Statement} (h : program.HasScript t env body)
    (hn : Statement.Nested body inner) : program.HasScript t env inner := by
  cases h with
  | main h => exact .main (h.trans hn)
  | function hm hp h => exact .function hm hp (h.trans hn)

/-- A block stops the script after a `return`. It is followed by what the statements after the
`return` read as, and thus by nothing exactly if these have no blocks. -/
structure Target.StopsBefore (t : Target) (env : Env) (after : List Statement) (b : Block) : Prop where
  opcode : b.opcode = .stop
  mutation : b.mutation = some { hasNext := some false }
  reads : ScriptAt t.look (fun _ => True) b.next (env.script after)
  last : b.next = none ↔ ∀ s ∈ after, Emit.needsEntry s = false

theorem Target.StopsBefore.of_at {t : Target} {env : Env} {after : List Statement} {x : String}
    {b : Block} (hx : t.block? x = some b) (h : Tree.stop.At t.look (fun _ => True) x)
    (hreads : ScriptAt t.look (fun _ => True) b.next (env.script after)) :
    t.StopsBefore env after b := by
  obtain ⟨v, hv, hopcode, -, hmutation, -⟩ := h
  obtain ⟨b', hb', rfl⟩ := Option.map_eq_some_iff.1 hv
  obtain rfl := Option.mem_unique hx hb'
  exact ⟨hopcode, hmutation, hreads, (scriptAt_next_iff hreads).trans env.script_eq_nil_iff⟩

/-- Every stop is that of a `return`. -/
theorem Program.exists_return {program : Program} {sprite x : String} {b : Block}
    (hsuccess : (program.compiled sprite).project.success = true)
    (hx : (program.compiled sprite).target.block? x = some b) (hstop : b.opcode = .stop) :
    let t := (program.compiled sprite).target
    ∃ env before value span after,
      program.HasScript t env (before ++ .yield value span :: after) ∧ t.StopsBefore env after b := by
  intro t
  obtain ⟨⟨ids, hassembled⟩, -⟩ := program.compiled_assembled sprite
  obtain hhead | ⟨env, body, hscript, tree, rest, b', hoccurs, hx', htree, hreads⟩ :=
    Program.within_script hsuccess hx
  · exact absurd hstop (hassembled.arranged.head_opcode hx hhead)
  obtain rfl := Option.mem_unique hx hx'
  have hopcode : tree.opcode = .stop := by
    obtain ⟨opcode, fields, mutation, slots⟩ := tree
    obtain ⟨v, hv, hopcode, -⟩ := htree
    obtain ⟨b', hb', rfl⟩ := Option.map_eq_some_iff.1 hv
    obtain rfl := Option.mem_unique hx hb'
    exact hopcode.symm.trans hstop
  obtain ⟨after, ⟨before, value, span, hnested⟩, rfl, rfl⟩ := env.script_stops hopcode body hoccurs
  exact ⟨env, before, value, span, after, hscript.nested hnested, .of_at hx htree hreads⟩

/-- Every `return` has a stop. -/
theorem Program.HasScript.exists_stop {source sprite : String} {program : Program}
    (hprogram : Program.ofSource source = .ok program)
    (hsuccess : (compile source sprite).success = true) {env : Env} {before after : List Statement}
    {value : Expr}
    (h : program.HasScript (compile source sprite).current env (before ++ .yield value span :: after)) :
    ∃ x b, (compile source sprite).current.block? x = some b ∧
      (compile source sprite).current.StopsBefore env after b := by
  obtain ⟨start, hreads⟩ := h.script_at hprogram hsuccess
  have hblocks : env.script (before ++ .yield value span :: after) =
      (env.script before ++ env.calls value ++ [env.setResult (env.content value)]) ++
        .stop :: env.script after := by
    simp [Env.script_append, Env.script, Env.statement]
  rw [hblocks] at hreads
  obtain ⟨x, v, hv, htree, hrest⟩ := scriptAt_split hreads
  obtain ⟨b, hx, rfl⟩ := Option.map_eq_some_iff.1 hv
  exact ⟨x, b, hx, .of_at hx htree hrest⟩

/-- Without errors the stops of the current target are those of the `return`s in the scripts of the
program. A stop says that nothing follows it, but it is followed by the blocks of the statements after
its `return`. It ends its script exactly if there are none. -/
theorem compile_stops {source : String} {program : Program} (sprite : String)
    (hprogram : Program.ofSource source = .ok program)
    (hsuccess : (compile source sprite).success = true) :
    let t := (compile source sprite).current
    (∀ x b, t.block? x = some b → b.opcode = .stop → ∃ env before value span after,
      program.HasScript t env (before ++ .yield value span :: after) ∧ t.StopsBefore env after b) ∧
    (∀ env before value span after, program.HasScript t env (before ++ .yield value span :: after) →
      ∃ x b, t.block? x = some b ∧ t.StopsBefore env after b) ∧
    ((∀ x b, t.block? x = some b → b.opcode = .stop → b.next = none) ↔
      ∀ env before value span after, program.HasScript t env (before ++ .yield value span :: after) →
        ∀ s ∈ after, Emit.needsEntry s = false) := by
  intro t
  have hstop : ∀ x b, t.block? x = some b → b.opcode = .stop → ∃ env before value span after,
      program.HasScript t env (before ++ .yield value span :: after) ∧ t.StopsBefore env after b := by
    have htarget : t = (program.compiled sprite).target :=
      congrArg Project.current (compile_eq hprogram sprite)
    rw [htarget]
    exact fun x b hx => Program.exists_return (compile_eq hprogram sprite ▸ hsuccess) hx
  have hreturn : ∀ env before value span after,
      program.HasScript t env (before ++ .yield value span :: after) →
      ∃ x b, t.block? x = some b ∧ t.StopsBefore env after b :=
    fun _ _ _ _ _ hscript => hscript.exists_stop hprogram hsuccess
  refine ⟨hstop, hreturn, fun hlast env before value span after hscript => ?_,
    fun hlast x b hx hb => ?_⟩
  · obtain ⟨x, b, hx, hstops⟩ := hreturn env before value span after hscript
    exact hstops.last.1 (hlast x b hx hstops.opcode)
  · obtain ⟨env, before, value, span, after, hscript, hstops⟩ := hstop x b hx hb
    exact hstops.last.2 (hlast env before value span after hscript)

/-- Only a comment comes after the last `return`, and nothing comes after the one before it, which is
in the body of a conditional. -/
theorem compile_stops_commented :
    let source := "function f(a) \x7b\nif a > 0 \x7b return a \x7d\nreturn 2\n// done\n\x7d\nlet x = f(1)"
    let t := (compile source "Sprite1").current
    (compile source "Sprite1").success = true ∧ ∀ id ∈ ["block_10", "block_12"],
      ∃ b, t.block? id = some b ∧ b.opcode = .stop ∧ b.next = none ∧
        ∃ program env before value span after, Program.ofSource source = .ok program ∧
          program.HasScript t env (before ++ .yield value span :: after) ∧
          ∀ s ∈ after, Emit.needsEntry s = false := by
  intro source t
  obtain ⟨hsuccess, hblocks⟩ : (compile source "Sprite1").success = true ∧
      ∀ id ∈ ["block_10", "block_12"], ∃ b ∈ t.block? id, b.opcode = .stop ∧ b.next = none := by
    decide +kernel
  refine ⟨hsuccess, fun id hid => ?_⟩
  obtain ⟨b, hb, hopcode, hnext⟩ := hblocks id hid
  obtain ⟨program, hprogram⟩ := exists_program_of_success hsuccess
  obtain ⟨env, before, value, span, after, hscript, hstops⟩ :=
    (compile_stops "Sprite1" hprogram hsuccess).1 id b hb hopcode
  exact ⟨b, hb, hopcode, hnext, program, env, before, value, span, after, hprogram, hscript,
    hstops.last.1 hnext⟩

/-- A declaration after a `return` follows the stop. -/
theorem compile_stop_followed :
    let project := compile "function f() \x7b return 1\nlet x = 2 \x7d" "Sprite1"
    project.success = true ∧ ∃ b, project.current.block? "block_5" = some b ∧ b.opcode = .stop ∧
      b.mutation = some { hasNext := some false } ∧ b.next = some "block_7" := by
  intro project
  show project.success = true ∧ ∃ b ∈ project.current.block? "block_5", b.opcode = .stop ∧ _ ∧ _
  decide +kernel

end ScriptBlocks
