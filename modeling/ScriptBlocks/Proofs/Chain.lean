import ScriptBlocks.Proofs.Links

/-!
# Chains of statements

While statements are compiled one after the other their blocks form a chain: each one's next block
is the one after it, whose parent it is. Blocks are added at the end of the chain, and calls are
spliced in directly before its end.
-/
namespace ScriptBlocks

/-- Blocks that follow each other. The first one's parent is `before`, the last one's next block
is `after`. -/
def Chain (g : LinkMap) (before : Option String) : List String → (after : Option String) → Prop
  | [], _ => True
  | x :: rest, after =>
    (∃ l, g x = some l ∧ l.parent = before ∧ l.next = rest.head?.or after) ∧
      Chain g (some x) rest after

namespace Chain

variable {g g' : LinkMap} {before after : Option String} {ids : List String}

theorem append_iff (first second : List String) :
    Chain g before (first ++ second) after ↔
      Chain g before first (second.head?.or after) ∧
        Chain g (first.getLast?.or before) second after := by
  induction first generalizing before with
  | nil => simp [Chain]
  | cons x rest ih =>
    have hhead : (rest ++ second).head?.or after = rest.head?.or (second.head?.or after) := by
      cases rest <;> simp
    have hlast : (rest.getLast?.or (some x)) = ((x :: rest).getLast?.or before) := by
      cases rest with
      | nil => rfl
      | cons y rest =>
        obtain ⟨z, hz⟩ := List.getLast?_isSome.2 (List.cons_ne_nil y rest) |> Option.isSome_iff_exists.1
        simp [List.getLast?_cons_cons, hz]
    simp only [List.cons_append, Chain, hhead, ih, hlast, and_assoc]

/-- The blocks of a chain exist. -/
theorem exists_links (h : Chain g before ids after) {x : String} (hx : x ∈ ids) :
    ∃ l, g x = some l := by
  induction ids generalizing before with
  | nil => simp at hx
  | cons y rest ih =>
    obtain ⟨⟨l, hl, -, -⟩, htail⟩ := h
    obtain rfl | hx := List.mem_cons.1 hx
    · exact ⟨l, hl⟩
    · exact ih htail hx

/-- A chain depends only on the vertical links of its blocks. -/
theorem congr (h : Chain g before ids after)
    (hsame : ∀ x ∈ ids, ∀ l, g x = some l →
      ∃ l', g' x = some l' ∧ l'.parent = l.parent ∧ l'.next = l.next) :
    Chain g' before ids after := by
  induction ids generalizing before with
  | nil => trivial
  | cons x rest ih =>
    obtain ⟨⟨l, hl, hp, hn⟩, htail⟩ := h
    obtain ⟨l', hl', hp', hn'⟩ := hsame x (by simp) l hl
    exact ⟨⟨l', hl', hp'.trans hp, hn'.trans hn⟩,
      ih htail fun y hy => hsame y (List.mem_cons_of_mem _ hy)⟩

/-- The last block of a chain and the ones before it. -/
theorem snoc_iff (x : String) :
    Chain g before (ids ++ [x]) after ↔
      Chain g before ids (some x) ∧
        ∃ l, g x = some l ∧ l.parent = ids.getLast?.or before ∧ l.next = after := by
  simp [append_iff, Chain]

/-- The way up from a chain that starts at a root stays in the chain. -/
theorem mem_of_above (h : Chain g none ids after) {a x : String} (hx : x ∈ ids)
    (ha : Above g a x) : a ∈ ids := by
  have parent_mem : ∀ before ids, Chain g before ids after → ∀ x ∈ ids, ∀ l p, g x = some l →
      l.parent = some p → p ∈ ids ∨ before = some p := by
    intro before ids
    induction ids generalizing before with
    | nil => simp
    | cons y rest ih =>
      intro hc x hx l p hl hp
      obtain ⟨⟨ly, hly, hpy, -⟩, htail⟩ := hc
      obtain rfl | hx := List.mem_cons.1 hx
      · rw [hly] at hl
        cases hl
        exact .inr (hpy ▸ hp)
      · obtain hmem | he := ih (some y) htail x hx l p hl hp
        · exact .inl (List.mem_cons_of_mem _ hmem)
        · cases he
          exact .inl (by simp)
  refine Linked.above_mem (P := (· ∈ ids)) ?_ hx ha
  intro x l p hx hl hp
  exact (parent_mem none ids h x hx l p hl hp).resolve_right (by simp)

/-- No slot holds a block of a chain that starts at a root. -/
theorem not_slotted (h : Chain g none ids after) (hl : Linked g) {x y slot : String} {l : Links}
    (hx : x ∈ ids) (hy : g y = some l) : (slot, some x) ∉ l.slots := by
  obtain ⟨front, back, rfl⟩ := List.append_of_mem hx
  obtain ⟨hfront, ⟨l, hlx, hp, -⟩, -⟩ := (append_iff front (x :: back)).1 h
  obtain rfl | ⟨front, p, rfl⟩ := front.eq_nil_or_concat
  · exact hl.not_slotted_of_root hlx hp hy
  · rw [List.concat_eq_append] at hfront
    obtain ⟨-, lp, hlp, -, hn⟩ := (snoc_iff p).1 hfront
    exact hl.not_slotted_of_next hlp hn hy

theorem notValue (h : Chain g none ids after) (hl : Linked g) {x : String} (hx : x ∈ ids) :
    NotValue g x :=
  fun hy hs => absurd hs (h.not_slotted hl hx hy)

/-- The last block of a chain is given another next block. -/
theorem reend (h : Chain g before ids after) (hnd : ids.Nodup) {n : String}
    (hend : ∀ x, ids.getLast? = some x → ∀ m, g x = some m →
      ∃ m', g' x = some m' ∧ m'.parent = m.parent ∧ m'.next = some n)
    (hother : ∀ x ∈ ids, ids.getLast? ≠ some x → ∀ m, g x = some m →
      ∃ m', g' x = some m' ∧ m'.parent = m.parent ∧ m'.next = m.next) :
    Chain g' before ids (some n) := by
  obtain rfl | ⟨front, x, rfl⟩ := ids.eq_nil_or_concat
  · trivial
  · rw [List.concat_eq_append] at *
    obtain ⟨hfront, m, hm, hmp, -⟩ := (snoc_iff x).1 h
    obtain ⟨m', hm', hmp', hmn'⟩ := hend x (by simp) m hm
    refine (snoc_iff x).2 ⟨hfront.congr fun y hy => hother y (by simp [hy]) ?_, m', hm',
      hmp'.trans hmp, hmn'⟩
    have hyx : x ≠ y := by
      rintro rfl
      exact (List.nodup_append.1 hnd).2.2 x hy x (by simp) rfl
    simpa using hyx

/-- A new block at the end. -/
theorem snoc (h : Chain g before ids none) (hnd : ids.Nodup) {n : String} {l : Links}
    (hn : g' n = some l) (hp : l.parent = ids.getLast?.or before) (hlast : l.next = none)
    (hend : ∀ x, ids.getLast? = some x → ∀ m, g x = some m →
      ∃ m', g' x = some m' ∧ m'.parent = m.parent ∧ m'.next = some n)
    (hother : ∀ x ∈ ids, ids.getLast? ≠ some x → ∀ m, g x = some m →
      ∃ m', g' x = some m' ∧ m'.parent = m.parent ∧ m'.next = m.next) :
    Chain g' before (ids ++ [n]) none :=
  (snoc_iff n).2 ⟨h.reend hnd hend hother, l, hn, hp, hlast⟩

/-- A new block directly before the end. -/
theorem splice {front : List String} {s c : String} (h : Chain g before (front ++ [s]) none)
    (hnd : front.Nodup) {ls lc : Links} (hs : g' s = some ls) (hsp : ls.parent = some c)
    (hsn : ls.next = none) (hc : g' c = some lc) (hcp : lc.parent = front.getLast?.or before)
    (hcn : lc.next = some s)
    (hend : ∀ x, front.getLast? = some x → ∀ m, g x = some m →
      ∃ m', g' x = some m' ∧ m'.parent = m.parent ∧ m'.next = some c)
    (hother : ∀ x ∈ front, front.getLast? ≠ some x → ∀ m, g x = some m →
      ∃ m', g' x = some m' ∧ m'.parent = m.parent ∧ m'.next = m.next) :
    Chain g' before (front ++ [c, s]) none :=
  (append_iff front [c, s]).2 ⟨((snoc_iff s).1 h).1.reend hnd hend hother,
    ⟨lc, hc, hcp, hcn⟩, ⟨ls, hs, hsp, hsn⟩, trivial⟩

end Chain
end ScriptBlocks
