/-!
# Tables in insertion order

A table keeps its entries in the order in which their keys were first written; writing a key again
replaces the value and keeps the place. Every key stands once.
-/
namespace ScriptBlocks

universe u

namespace Entries

variable {α : Type u}

def insert (key : String) (value : α) : List (String × α) → List (String × α)
  | [] => [(key, value)]
  | (k, v) :: entries =>
    if k = key then (k, value) :: entries else (k, v) :: insert key value entries

def modify (key : String) (f : α → α) : List (String × α) → List (String × α)
  | [] => []
  | (k, v) :: entries =>
    if k = key then (k, f v) :: entries else (k, v) :: modify key f entries

def get? (key : String) : List (String × α) → Option α
  | [] => none
  | (k, v) :: entries => if k = key then some v else get? key entries

theorem keys_modify (key : String) (f : α → α) (entries : List (String × α)) :
    (modify key f entries).map (·.1) = entries.map (·.1) := by
  induction entries with
  | nil => rfl
  | cons e entries ih =>
    by_cases h : e.1 = key <;> simp [modify, h, ih]

theorem keys_insert_of_mem {key : String} {value : α} {entries : List (String × α)}
    (h : key ∈ entries.map (·.1)) : (insert key value entries).map (·.1) = entries.map (·.1) := by
  induction entries with
  | nil => simp at h
  | cons e entries ih =>
    by_cases he : e.1 = key
    · simp [insert, he]
    · have hm : key ∈ entries.map (·.1) := by
        simp only [List.map_cons, List.mem_cons] at h
        exact h.resolve_left (fun hk => he hk.symm)
      simp only [insert, if_neg he, List.map_cons, ih hm]

theorem keys_insert_of_not_mem {key : String} {value : α} {entries : List (String × α)}
    (h : key ∉ entries.map (·.1)) :
    (insert key value entries).map (·.1) = entries.map (·.1) ++ [key] := by
  induction entries with
  | nil => rfl
  | cons e entries ih =>
    simp only [List.map_cons, List.mem_cons, not_or] at h
    simp only [insert, if_neg (Ne.symm h.1), List.map_cons, ih h.2, List.cons_append]

theorem nodup_insert {key : String} {value : α} {entries : List (String × α)}
    (h : (entries.map (·.1)).Nodup) : ((insert key value entries).map (·.1)).Nodup := by
  by_cases hm : key ∈ entries.map (·.1)
  · rwa [keys_insert_of_mem hm]
  · rw [keys_insert_of_not_mem hm, List.nodup_append]
    refine ⟨h, by simp, ?_⟩
    intro a ha b hb hab
    simp only [List.mem_singleton] at hb
    exact hm (hb ▸ hab ▸ ha)

theorem get?_insert (key other : String) (value : α) (entries : List (String × α)) :
    get? other (insert key value entries) = if key = other then some value else get? other entries := by
  induction entries with
  | nil => simp [insert, get?]
  | cons e entries ih =>
    simp only [insert]
    split <;> simp only [get?, ih] <;> grind

theorem get?_modify (key other : String) (f : α → α) (entries : List (String × α)) :
    get? other (modify key f entries) =
      if key = other then (get? other entries).map f else get? other entries := by
  induction entries with
  | nil => simp [modify, get?]
  | cons e entries ih =>
    simp only [modify]
    split <;> simp only [get?, ih] <;> grind

theorem get?_eq_none_iff (key : String) (entries : List (String × α)) :
    get? key entries = none ↔ key ∉ entries.map (·.1) := by
  induction entries with
  | nil => simp [get?]
  | cons e entries ih =>
    simp only [get?, List.map_cons, List.mem_cons]
    split <;> grind

end Entries

/-- Entries in insertion order, with distinct keys. -/
structure Table (α : Type u) where
  entries : List (String × α)
  nodup : (entries.map (·.1)).Nodup

namespace Table

variable {α : Type u}

def empty : Table α :=
  ⟨[], by simp⟩

instance : Inhabited (Table α) :=
  ⟨empty⟩

def keys (t : Table α) : List String :=
  t.entries.map (·.1)

def values (t : Table α) : List α :=
  t.entries.map (·.2)

def size (t : Table α) : Nat :=
  t.entries.length

def isEmpty (t : Table α) : Bool :=
  t.entries.isEmpty

def get? (t : Table α) (key : String) : Option α :=
  Entries.get? key t.entries

def contains (t : Table α) (key : String) : Bool :=
  (t.get? key).isSome

/-- Writes a value under a key. -/
def insert (t : Table α) (key : String) (value : α) : Table α :=
  ⟨Entries.insert key value t.entries, Entries.nodup_insert t.nodup⟩

/-- Changes the value under a key, if there is one. -/
def modify (t : Table α) (key : String) (f : α → α) : Table α :=
  ⟨Entries.modify key f t.entries, by rw [Entries.keys_modify]; exact t.nodup⟩

def ofEntries (entries : List (String × α)) : Table α :=
  entries.foldl (fun t e => t.insert e.1 e.2) empty

@[simp] theorem get?_empty (key : String) : (empty : Table α).get? key = none := rfl

theorem get?_insert (t : Table α) (key other : String) (value : α) :
    (t.insert key value).get? other = if key = other then some value else t.get? other :=
  Entries.get?_insert key other value t.entries

@[simp] theorem get?_insert_self (t : Table α) (key : String) (value : α) :
    (t.insert key value).get? key = some value := by
  simp [get?_insert]

theorem get?_insert_of_ne (t : Table α) {key other : String} (value : α) (h : key ≠ other) :
    (t.insert key value).get? other = t.get? other := by
  simp [get?_insert, h]

theorem get?_modify (t : Table α) (key other : String) (f : α → α) :
    (t.modify key f).get? other =
      if key = other then (t.get? other).map f else t.get? other :=
  Entries.get?_modify key other f t.entries

theorem get?_modify_of_ne (t : Table α) {key other : String} (f : α → α) (h : key ≠ other) :
    (t.modify key f).get? other = t.get? other := by
  simp [get?_modify, h]

@[simp] theorem keys_modify (t : Table α) (key : String) (f : α → α) :
    (t.modify key f).keys = t.keys :=
  Entries.keys_modify key f t.entries

theorem get?_eq_none_iff (t : Table α) (key : String) :
    t.get? key = none ↔ key ∉ t.keys :=
  Entries.get?_eq_none_iff key t.entries

theorem contains_iff (t : Table α) (key : String) : t.contains key = true ↔ key ∈ t.keys := by
  rw [contains, Option.isSome_iff_ne_none, ne_eq, get?_eq_none_iff, Decidable.not_not]

theorem keys_insert_of_mem {t : Table α} {key : String} {value : α} (h : key ∈ t.keys) :
    (t.insert key value).keys = t.keys :=
  Entries.keys_insert_of_mem h

theorem keys_insert_of_not_mem {t : Table α} {key : String} {value : α} (h : key ∉ t.keys) :
    (t.insert key value).keys = t.keys ++ [key] :=
  Entries.keys_insert_of_not_mem h

end Table
end ScriptBlocks
