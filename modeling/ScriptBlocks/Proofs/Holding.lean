import ScriptBlocks.Proofs.Steps
import ScriptBlocks.Proofs.Visits

/-!
# Bodies in slots

The blocks of a body are a chain of their own until the body is complete. Then a slot of the
conditional comes to hold the first of them, which gets the conditional as its parent. The rest of
the graph stays as it is.
-/
namespace ScriptBlocks

universe u

namespace Entries

variable {α : Type u}

theorem insert_eq_modify {key : String} {value : α} {entries : List (String × α)}
    (h : key ∈ entries.map (·.1)) : insert key value entries = modify key (fun _ => value) entries := by
  induction entries with
  | nil => simp at h
  | cons e entries ih =>
    by_cases he : e.1 = key
    · simp [insert, modify, he]
    · have hm : key ∈ entries.map (·.1) := by simpa [Ne.symm he] using h
      simp [insert, modify, he, ih hm]

end Entries

namespace Table

variable {α : Type u}

theorem modify_congr {t : Table α} {key : String} {f g : α → α}
    (h : ∀ value, t.get? key = some value → f value = g value) : t.modify key f = t.modify key g := by
  refine ext_entries ?_
  rw [entries_modify, entries_modify]
  refine List.map_congr_left fun e he => ?_
  split
  next hkey => rw [h e.2 (get?_eq_some_iff.2 (hkey ▸ he))]
  next => rfl

theorem modify_eq_self {t : Table α} {key : String} {f : α → α}
    (h : ∀ value, t.get? key = some value → f value = value) : t.modify key f = t := by
  refine ext_entries ?_
  rw [entries_modify]
  refine (List.map_congr_left fun e he => ?_).trans (List.map_id _)
  split
  next hkey => rw [h e.2 (get?_eq_some_iff.2 (hkey ▸ he))]; rfl
  next => rfl

/-- Writing a key that is there. -/
theorem insert_eq_modify {t : Table α} {key : String} {old : α} (h : t.get? key = some old)
    (value : α) : t.insert key value = t.modify key fun _ => value := by
  refine ext_entries (Entries.insert_eq_modify ?_)
  exact List.mem_map.2 ⟨(key, old), get?_eq_some_iff.1 h, rfl⟩

end Table

namespace Target

variable {t : Target} {id slot head x : String} {b bh : Block} {input : Input}

theorem modifyBlock_congr {f g : Block → Block} (hb : t.block? id = some b) (h : f b = g b) :
    t.modifyBlock id f = t.modifyBlock id g := by
  simp only [modifyBlock]
  rw [Table.modify_congr fun b' hb' => ?_]
  obtain rfl := Option.mem_unique hb hb'
  exact h

theorem modifyBlock_eq_self {f : Block → Block} (h : ∀ b, t.block? id = some b → f b = b) :
    t.modifyBlock id f = t := by
  simp only [modifyBlock]
  rw [Table.modify_eq_self h]

/-- A slot comes to hold the first block of a body. -/
def hold (t : Target) (id slot head : String) : Target :=
  (t.fillSlot id slot (.block head)).adopt id head

theorem setSubstack_eq (hb : t.block? id = some b) (hin : b.inputs.get? slot = some input)
    (head : String) : t.setSubstack id slot head = t.hold id slot head := by
  simp only [setSubstack, hb, hin, Option.map_some, Option.getD_some, hold, fillSlot]
  rw [modifyBlock_congr hb (g := (·.fill slot (.block head)))]
  simp only [Block.fill]
  rw [Table.insert_eq_modify hin, Table.modify_congr fun input' hin' => ?_]
  obtain rfl := Option.mem_unique hin hin'
  rfl

theorem block?_hold (t : Target) (hne : id ≠ head) (slot x : String) :
    (t.hold id slot head).block? x =
      if x = head then (t.block? x).map (under id)
      else if x = id then (t.block? x).map (·.fill slot (.block head)) else t.block? x := by
  rw [hold, adopt, block?_modifyBlock, fillSlot, block?_modifyBlock]
  by_cases hx : head = x
  · subst hx
    rw [if_pos rfl, if_pos rfl, if_neg hne]
    rfl
  · rw [if_neg hx, if_neg (Ne.symm hx)]
    by_cases hid : id = x
    · rw [if_pos hid, if_pos hid.symm]
    · rw [if_neg hid, if_neg (Ne.symm hid)]

theorem hold_none (hne : id ≠ head) (hx : t.block? x = none) :
    (t.hold id slot head).block? x = none := by
  rw [block?_hold t hne, hx]
  simp

/-- Only the holder's slots and the parent of the body change. -/
theorem hold_rewired (hne : id ≠ head) (slot : String) :
    Rewired (· = id) (· = head) t (t.hold id slot head) where
  old {x b} hx := by
    rw [block?_hold t hne, hx]
    split
    next h => exact ⟨_, rfl, rfl, fun _ => rfl, fun hc => absurd h hc⟩
    next =>
      split
      next h => exact ⟨_, rfl, rfl, fun ho => absurd h ho, fun _ => ⟨rfl, rfl⟩⟩
      next => exact ⟨b, rfl, rfl, fun _ => rfl, fun _ => ⟨rfl, rfl⟩⟩
  new hx hn := by simp [hold_none hne hn] at hx
  drawn_le := Nat.le_refl _
  tables := rfl

theorem hold_linked (hl : Linked t.links) (hb : t.block? id = some b)
    (hslot : (slot, input) ∈ b.inputs.entries) (he : input.value = .empty)
    (hbody : isBodySlot slot = true) (hh : t.block? head = some bh) (hroot : bh.parent = none)
    (hab : ¬ Above t.links head id) : Linked (t.hold id slot head).links := by
  have hne : id ≠ head := by
    rintro rfl
    exact hab .refl
  obtain ⟨hperm, hslots⟩ := Block.links_fill_block (n := head) hslot he
  have hlookup := block?_hold t hne slot
  have hholder : (t.hold id slot head).links id = some (b.fill slot (.block head)).links := by
    refine links_eq_some ?_
    rw [hlookup, if_neg hne, if_pos rfl, hb]
    rfl
  refine hl.link (links_eq_some hb) (links_eq_some hh) hroot hab hholder rfl rfl hperm ?_ ?_
    (.inl rfl) fun x hx hxh => ?_
  · refine links_eq_some (b := under id bh) ?_
    rw [hlookup, if_pos rfl, hh]
    rfl
  · intro name y hy hvalue
    obtain hy | ⟨rfl, -⟩ := hslots name y hy
    · exact .inl hy
    · simp [hbody] at hvalue
  · simp only [links, hlookup, if_neg hxh, if_neg hx]

end Target

namespace Emit

open Compilation

variable {c : Compilation} {σ : Script} {ids : List String} {outer : Scopes}
variable {id slot head : String} {b : Block} {input : Input}

/-- The sequences that are open start with blocks. -/
theorem exists_head (hs : Sited c.target σ [] ids) {anchor : Option String} {h : String}
    (hm : .sequence anchor (some h) ∈ c.target.scopes) : ∃ b, c.target.block? h = some b := by
  obtain ⟨head, hscopes, hhead, -⟩ := hs.scopes
  rw [show c.target.scopes = .sequence (σ.base.toList ++ ids).getLast? head :: σ.outer from hscopes] at hm
  rcases List.mem_cons.1 hm with heq | hm
  · cases heq
    exact hs.exists_block (List.mem_append_right _ (hhead h rfl))
  · exact (hs.apart hm).1

/-- A body starts as an empty chain of its own. -/
theorem enterBlock_sited (hs : Sound c.target)
    (hheads : ∀ {anchor h}, .sequence anchor (some h) ∈ c.target.scopes →
      ∃ b, c.target.block? h = some b) :
    Sited (enterBlock c).target ⟨none, c.target.scopes⟩ [] [] := by
  have ht : (enterBlock c).target = c.target.enter (.after none) := c.target_setTarget _
  rw [ht]
  refine ⟨⟨hs.linked, hs.fresh⟩, trivial, by simp, ⟨none, rfl, by simp, fun _ => rfl⟩, ?_⟩
  exact fun hm => ⟨hheads hm, by simp⟩

/-- A body without blocks leaves its slot empty. -/
theorem closeBranch_nil (hs : Sited c.target ⟨none, outer⟩ [] []) (id slot : String) :
    closeBranch id slot c = c.setTarget { c.target with scopes := outer } := by
  obtain ⟨head, hscopes, -, hhead⟩ := hs.scopes
  obtain rfl : head = none := hhead rfl
  have hscopes : c.target.scopes = .sequence none none :: outer := hscopes
  simp only [closeBranch, attachBranch, modifyTarget, modify, Target.exit, hscopes, List.head?_cons,
    List.tail_cons, Option.getD_some, Scope.head?, Scope.anchor?, target_setTarget,
    setTarget_setTarget]

/-- A body with blocks comes to be held by its slot. -/
theorem closeBranch_cons {rest : List String} (hs : Sited c.target ⟨none, outer⟩ [] (head :: rest))
    (hb : c.target.block? id = some b) (hin : b.inputs.get? slot = some input)
    (hid : id ∉ head :: rest) :
    closeBranch id slot c = c.setTarget (({ c.target with scopes := outer }).hold id slot head) := by
  have hne : id ≠ head := fun h => hid (h ▸ List.mem_cons_self)
  obtain ⟨head', hscopes, -, hhead⟩ := hs.scopes
  obtain rfl : head' = some head := hhead rfl
  obtain ⟨front, last, hlast⟩ : ∃ front last, head :: rest = front ++ [last] :=
    ⟨_, _, (List.dropLast_concat_getLast (List.cons_ne_nil head rest)).symm⟩
  have hscopes : c.target.scopes = .sequence (some last) (some head) :: outer := by
    rw [hscopes, hlast]
    simp [inputScopes]
  have hsub := Target.setSubstack_eq (t := { c.target with scopes := outer }) hb hin head
  simp only [closeBranch, attachBranch, modifyTarget, modify, Target.exit, hscopes, List.head?_cons,
    List.tail_cons, Option.getD_some, Scope.head?, Scope.anchor?, target_setTarget,
    setTarget_setTarget, hsub]
  congr 1
  refine Target.modifyBlock_eq_self fun bl hbl => ?_
  -- the last block of the body ends its chain already
  have hchain := hs.chain
  rw [show Option.toList (none : Option String) ++ head :: rest = front ++ [last] from hlast,
    Chain.snoc_iff] at hchain
  obtain ⟨-, l, hl, -, hnext⟩ := hchain
  obtain ⟨b', hb', rfl⟩ := Target.exists_of_links hl
  have hlastid : last ≠ id := by
    rintro rfl
    exact hid (hlast ▸ List.mem_append_right _ (List.mem_singleton_self _))
  rw [Target.block?_hold _ hne, if_neg hlastid,
    show Target.block? { c.target with scopes := outer } last = some b' from hb'] at hbl
  have hbl' : bl.next = none := by
    split at hbl
    · cases hbl
      exact hnext
    · cases hbl
      exact hnext
  rw [← hbl']

end Emit
end ScriptBlocks
