import ScriptBlocks.Proofs.Links

/-!
# Slots

The free slots of a block are handed out in order. Filling one changes neither the other slots nor
which of the later ones are free.
-/
namespace ScriptBlocks

variable {key slot : String} {input : Input} {b : Block}

universe u v

namespace Entries

variable {α : Type u}

theorem modify_eq_map {f : α → α} {entries : List (String × α)} (h : (entries.map (·.1)).Nodup) :
    modify key f entries = entries.map fun e => if e.1 = key then (e.1, f e.2) else e := by
  induction entries with
  | nil => rfl
  | cons e entries ih =>
    simp only [List.map_cons, List.nodup_cons] at h
    by_cases hk : e.1 = key
    · have hrest : ∀ d ∈ entries, (if d.1 = key then (d.1, f d.2) else d) = d := by
        intro d hd
        rw [if_neg]
        rintro rfl
        exact h.1 (hk ▸ List.mem_map_of_mem hd)
      simp [modify, hk, List.map_congr_left hrest]
    · simp only [modify, if_neg hk, List.map_cons, ih h.2]

theorem get?_eq_some_iff {value : α} {entries : List (String × α)} (h : (entries.map (·.1)).Nodup) :
    get? key entries = some value ↔ (key, value) ∈ entries := by
  induction entries with
  | nil => simp [get?]
  | cons e entries ih =>
    simp only [List.map_cons, List.nodup_cons] at h
    obtain ⟨k, v⟩ := e
    by_cases hk : k = key
    · subst hk
      have hnot : (k, value) ∉ entries := fun hm => h.1 (List.mem_map_of_mem (f := (·.1)) hm)
      simp [get?, hnot, eq_comm]
    · have hne : (key, value) ≠ (k, v) := fun he => hk (congrArg Prod.fst he).symm
      simp [get?, hk, ih h.2, hne]

end Entries

namespace Table

variable {α : Type u}

theorem entries_modify (t : Table α) (key : String) (f : α → α) :
    (t.modify key f).entries = t.entries.map fun e => if e.1 = key then (e.1, f e.2) else e :=
  Entries.modify_eq_map t.nodup

theorem get?_eq_some_iff {t : Table α} {value : α} :
    t.get? key = some value ↔ (key, value) ∈ t.entries :=
  Entries.get?_eq_some_iff t.nodup

theorem mem_values_iff {t : Table α} {value : α} :
    value ∈ t.values ↔ ∃ key, t.get? key = some value := by
  simp only [values, List.mem_map, get?_eq_some_iff, Prod.exists]
  constructor
  · rintro ⟨key, _, he, rfl⟩
    exact ⟨key, he⟩
  · rintro ⟨key, he⟩
    exact ⟨key, value, he, rfl⟩

theorem ext_entries {s t : Table α} (h : s.entries = t.entries) : s = t := by
  cases s
  cases t
  cases h
  rfl

theorem entries_insert_of_not_mem {t : Table α} (h : key ∉ t.keys) (value : α) :
    (t.insert key value).entries = t.entries ++ [(key, value)] := by
  obtain ⟨entries, nodup⟩ := t
  simp only [keys] at h
  simp only [insert]
  clear nodup
  induction entries with
  | nil => rfl
  | cons e entries ih =>
    simp only [List.map_cons, List.mem_cons, not_or] at h
    simp only [Entries.insert, if_neg (Ne.symm h.1), ih h.2, List.cons_append]

/-- A table with every value replaced. -/
def map {β : Type v} (f : α → β) (t : Table α) : Table β :=
  ⟨t.entries.map fun e => (e.1, f e.2), by
    rw [List.map_map]
    exact t.nodup⟩

/-- A table made from a list has no other entries. -/
theorem mem_of_mem_ofEntries {entries : List (String × α)} {e : String × α}
    (h : e ∈ (ofEntries entries).entries) : e ∈ entries := by
  have hfold : ∀ t : Table α, e ∈ (entries.foldl (fun t e => t.insert e.1 e.2) t).entries →
      e ∈ t.entries ∨ e ∈ entries := by
    clear h
    induction entries with
    | nil => exact fun t ht => .inl ht
    | cons d entries ih =>
      intro t ht
      obtain ht | ht := ih _ ht
      · have hget : (t.insert d.1 d.2).get? e.1 = some e.2 := get?_eq_some_iff.2 ht
        rw [get?_insert] at hget
        split at hget
        next hk =>
          exact .inr (List.mem_cons.2 (.inl (Prod.ext hk.symm (Option.some.inj hget).symm)))
        next => exact .inl (get?_eq_some_iff.1 hget)
      · exact .inr (List.mem_cons_of_mem d ht)
  exact (hfold empty h).resolve_left (by simp [empty])

/-- Entries with distinct keys are kept as they are. -/
theorem entries_ofEntries {entries : List (String × α)} (h : (entries.map (·.1)).Nodup) :
    (ofEntries entries).entries = entries := by
  have hfold : ∀ t : Table α, ((t.entries ++ entries).map (·.1)).Nodup →
      (entries.foldl (fun t e => t.insert e.1 e.2) t).entries = t.entries ++ entries := by
    clear h
    induction entries with
    | nil => simp
    | cons e entries ih =>
      intro t ht
      have hnot : e.1 ∉ t.keys := by
        rw [List.map_append, List.map_cons] at ht
        intro hm
        exact (List.nodup_append.1 ht).2.2 _ hm _ (List.mem_cons_self ..) rfl
      have hentries := entries_insert_of_not_mem hnot e.2
      rw [List.foldl_cons, ih, hentries, List.append_assoc]
      · rfl
      · rw [hentries, List.append_assoc]
        exact ht
  exact hfold empty h

end Table

namespace Input

/-- A slot that refers to another block; plain values stay. -/
def rename (f : String → String) (input : Input) : Input :=
  match input.value with
  | .block id => input.set (.block (f id))
  | .empty => input
  | .payload _ => input

theorem rename_of_none {f : String → String} (h : input.block? = none) :
    input.rename f = input := by
  obtain ⟨kind, _ | id | value⟩ := input
  · rfl
  · cases h
  · rfl

theorem rename_of_some {f : String → String} {id : String} (h : input.block? = some id) :
    input.rename f = input.set (.block (f id)) := by
  obtain ⟨kind, _ | id | value⟩ := input
  · cases h
  · cases h
    rfl
  · cases h

end Input

namespace Block

/-- The names of the free slots from an index on. -/
def free (b : Block) (start : Nat) : List String :=
  ((b.inputs.entries.drop start).filter fun e => !e.2.isFilled).map (·.1)

/-- The first free slot is the one that is handed out. -/
theorem firstUnfilled?_of_free {start : Nat} {rest : List String} (h : b.free start = slot :: rest) :
    ∃ i input, b.firstUnfilled? start = some (i, slot) ∧ b.inputs.entries[i]? = some (slot, input) ∧
      input.value = .empty ∧ b.free (i + 1) = rest := by
  have key : ∀ (entries : List (String × Input)) (start offset : Nat),
      ((entries.drop start).filter fun e => !e.2.isFilled).map (·.1) = slot :: rest →
      ∃ i input, (((entries.zipIdx offset).drop start).find? fun e => !e.1.2.isFilled) =
          some ((slot, input), i + offset) ∧ entries[i]? = some (slot, input) ∧
        input.value = .empty ∧
        ((entries.drop (i + 1)).filter fun e => !e.2.isFilled).map (·.1) = rest := by
    intro entries
    induction entries with
    | nil => intro start offset h; simp at h
    | cons e entries ih =>
      intro start offset h
      cases start with
      | succ start =>
        obtain ⟨i, input, hf, hi, he, hr⟩ := ih start (offset + 1) (by simpa using h)
        exact ⟨i + 1, input, by simpa [Nat.add_assoc, Nat.add_comm 1] using hf, by simpa using hi, he,
          by simpa using hr⟩
      | zero =>
        obtain ⟨name, input⟩ := e
        by_cases hfill : input.isFilled
        · obtain ⟨i, input', hf, hi, he, hr⟩ := ih 0 (offset + 1) (by simpa [hfill] using h)
          exact ⟨i + 1, input', by simpa [hfill, Nat.add_assoc, Nat.add_comm 1] using hf,
            by simpa using hi, he, by simpa using hr⟩
        · simp only [List.drop_zero, List.filter_cons, hfill, Bool.not_false, if_true,
            List.map_cons, List.cons.injEq] at h
          refine ⟨0, input, ?_, ?_, ?_, ?_⟩
          · simp [hfill, h.1]
          · simp [h.1]
          · simpa [Input.isFilled] using hfill
          · simpa using h.2
  obtain ⟨i, input, hf, hi, he, hr⟩ := key b.inputs.entries start 0 h
  refine ⟨i, input, ?_, hi, he, hr⟩
  simp only [firstUnfilled?, hf, Option.map_some, Nat.add_zero]

theorem free_fill {i : Nat} (value : SlotValue) (h : b.inputs.entries[i]? = some (slot, input)) :
    (b.fill slot value).free (i + 1) = b.free (i + 1) := by
  -- the filled slot stands before the ones that are looked at
  have hout : ∀ e ∈ b.inputs.entries.drop (i + 1), e.1 ≠ slot := by
    intro e he hs
    obtain ⟨j, hj⟩ := List.mem_iff_getElem?.1 he
    rw [List.getElem?_drop] at hj
    have hnd := b.inputs.nodup
    have hmap : ∀ {k : Nat} {d : String × Input}, b.inputs.entries[k]? = some d →
        (b.inputs.entries.map (·.1))[k]? = some d.1 := by
      intro k d hk
      simp [hk]
    have hij := (List.getElem?_inj (List.getElem?_eq_some_iff.1 (hmap h)).1 hnd).1
      ((hmap h).trans ((hmap hj).trans (by rw [hs])).symm)
    omega
  have hdrop : (b.fill slot value).inputs.entries.drop (i + 1) =
      b.inputs.entries.drop (i + 1) := by
    rw [fill, Table.entries_modify, ← List.map_drop]
    refine (List.map_congr_left fun e he => ?_).trans (List.map_id _)
    rw [if_neg (hout e he)]
    rfl
  rw [free, hdrop, free]

@[simp] theorem fill_next (b : Block) (slot : String) (value : SlotValue) :
    (b.fill slot value).next = b.next := rfl

/-- Filling a slot, by its place among the others. -/
theorem entries_fill {before after : List (String × Input)}
    (h : b.inputs.entries = before ++ (slot, input) :: after) (value : SlotValue) :
    (b.fill slot value).inputs.entries = before ++ (slot, input.set value) :: after := by
  have hnodup := b.inputs.nodup
  rw [h, List.map_append, List.map_cons] at hnodup
  have hd := (List.nodup_append.1 hnodup).2
  have hkeep : ∀ es : List (String × Input), (∀ e ∈ es, e.1 ≠ slot) →
      es.map (fun e => if e.1 = slot then (e.1, e.2.set value) else e) = es := fun es hes =>
    (List.map_congr_left fun e he => if_neg (hes e he)).trans (List.map_id _)
  rw [fill, Table.entries_modify, h, List.map_append, List.map_cons,
    hkeep before fun e he hn => hd.2 e.1 (List.mem_map_of_mem he) slot (by simp) hn,
    hkeep after fun e he hn => (List.nodup_cons.1 hd.1).1 (List.mem_map.2 ⟨e, he, hn⟩)]
  simp

/-- Emptying an empty slot changes nothing. -/
theorem fill_empty (h : (slot, input) ∈ b.inputs.entries) (he : input.value = .empty) :
    (b.fill slot .empty).inputs = b.inputs := by
  obtain ⟨front, back, hsplit⟩ := List.append_of_mem h
  refine Table.ext_entries ?_
  rw [entries_fill hsplit, hsplit, Input.set, ← he]

/-- A slot that was empty and now holds a block. -/
theorem links_fill_block {n : String} (h : (slot, input) ∈ b.inputs.entries)
    (he : input.value = .empty) : (b.fill slot (.block n)).links.refs.Perm (n :: b.links.refs) ∧
      ∀ name y, (name, some y) ∈ (b.fill slot (.block n)).links.slots →
        (name, some y) ∈ b.links.slots ∨ name = slot ∧ y = n := by
  obtain ⟨front, back, hsplit⟩ := List.append_of_mem h
  have hentries := entries_fill hsplit (.block n)
  have hempty : input.block? = none := by simp [Input.block?, he]
  have hset : (input.set (.block n)).block? = some n := rfl
  constructor
  · simp only [Links.refs, Links.children, links, hentries, hsplit, fill_next, List.map_append,
      List.map_cons, List.filterMap_append, List.filterMap_cons, hempty, hset]
    rw [← List.append_assoc, ← List.append_assoc]
    exact List.perm_middle
  · intro name y hm
    simp only [links, hentries, hsplit, List.map_append, List.map_cons, List.mem_append,
      List.mem_cons, hempty, hset, Prod.mk.injEq, Option.some.injEq] at hm ⊢
    obtain hm | hm | hm := hm
    · exact .inl (.inl hm)
    · exact .inr hm
    · exact .inl (.inr (.inr hm))

/-- A value that is no block leaves the links of an empty slot as they are. -/
theorem links_fill_of_ne_block {value : SlotValue}
    (hempty : ∀ input, (slot, input) ∈ b.inputs.entries → input.block? = none)
    (hv : ∀ id, value ≠ .block id) : (b.fill slot value).links = b.links := by
  have hslots : (b.fill slot value).inputs.entries.map (fun e => (e.1, e.2.block?)) =
      b.inputs.entries.map fun e => (e.1, e.2.block?) := by
    rw [fill, Table.entries_modify, List.map_map]
    refine List.map_congr_left fun e he => ?_
    simp only [Function.comp_apply]
    split
    next hs =>
      rw [hempty e.2 (hs ▸ he)]
      cases value with
      | block id => exact absurd rfl (hv id)
      | empty => rfl
      | payload p => rfl
    next => rfl
  simp only [links, hslots]
  rfl

end Block
end ScriptBlocks
