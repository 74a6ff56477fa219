/-!
# Dictionaries in order of creation

A `Dictionary κ α` is a list of entries with different keys, in the order in which
the keys were created. Setting a key that is there keeps its place; erasing it and
setting it again moves it to the end. That keys differ is part of the type, so the
list of keys is a faithful account of a dictionary: `get?` finds exactly what is
listed.
-/

namespace Ecma

universe u v

/-- Entries in order of creation. -/
structure Dictionary (κ : Type u) (α : Type v) where
  toList : List (κ × α)
  /-- no key has two entries -/
  nodup : (toList.map Prod.fst).Nodup

namespace Dictionary

variable {κ : Type u} {α : Type v}

/-- The dictionary without entries. -/
def empty : Dictionary κ α := ⟨[], List.nodup_nil⟩

instance : EmptyCollection (Dictionary κ α) := ⟨empty⟩
instance : Inhabited (Dictionary κ α) := ⟨empty⟩

/-- The keys, in order of creation. -/
def keys (d : Dictionary κ α) : List κ := d.toList.map Prod.fst

/-- Number of entries. -/
def size (d : Dictionary κ α) : Nat := d.toList.length

/-! ## Lists of entries -/

variable [DecidableEq κ]

/-- The value at a key of a list of entries. -/
def find? (k : κ) : List (κ × α) → Option α
  | [] => none
  | e :: rest => if e.1 = k then some e.2 else find? k rest

/-- Set the value at a key in its place, or at the end. -/
def put (k : κ) (v : α) : List (κ × α) → List (κ × α)
  | [] => [(k, v)]
  | e :: rest => if e.1 = k then (k, v) :: rest else e :: put k v rest

/-- Drop the entry at a key. -/
def drop (k : κ) (l : List (κ × α)) : List (κ × α) := l.filter fun e => e.1 ≠ k

theorem find?_put_self (k : κ) (v : α) : ∀ l : List (κ × α), find? k (put k v l) = some v
  | [] => by simp [put, find?]
  | e :: rest => by
      by_cases h : e.1 = k
      · simp [put, find?, h]
      · simp [put, find?, h, find?_put_self k v rest]

theorem find?_put_ne {k j : κ} (hne : j ≠ k) (v : α) :
    ∀ l : List (κ × α), find? j (put k v l) = find? j l
  | [] => by simp [put, find?, hne.symm]
  | e :: rest => by
      by_cases h : e.1 = k
      · simp [put, find?, h, hne.symm]
      · simp only [put, h, if_false, find?, find?_put_ne hne v rest]

theorem drop_cons_self {k : κ} {e : κ × α} (h : e.1 = k) (rest : List (κ × α)) :
    drop k (e :: rest) = drop k rest :=
  List.filter_cons_of_neg (by simp [h])

theorem drop_cons_ne {k : κ} {e : κ × α} (h : e.1 ≠ k) (rest : List (κ × α)) :
    drop k (e :: rest) = e :: drop k rest :=
  List.filter_cons_of_pos (by simp [h])

theorem find?_drop_self (k : κ) : ∀ l : List (κ × α), find? k (drop k l) = none
  | [] => rfl
  | e :: rest => by
      by_cases h : e.1 = k
      · rw [drop_cons_self h, find?_drop_self k rest]
      · rw [drop_cons_ne h, find?, if_neg h, find?_drop_self k rest]

theorem find?_drop_ne {k j : κ} (hne : j ≠ k) :
    ∀ l : List (κ × α), find? j (drop k l) = find? j l
  | [] => rfl
  | e :: rest => by
      by_cases h : e.1 = k
      · have hj : e.1 ≠ j := fun he => hne (he ▸ h)
        rw [drop_cons_self h, find?_drop_ne hne rest, find?, if_neg hj]
      · rw [drop_cons_ne h, find?, find?, find?_drop_ne hne rest]

theorem mem_of_find?_eq_some {k : κ} {v : α} :
    ∀ {l : List (κ × α)}, find? k l = some v → k ∈ l.map Prod.fst
  | e :: rest, hfind => by
      rw [find?] at hfind
      split at hfind
      · next heq => exact heq ▸ List.mem_cons_self
      · exact List.mem_cons_of_mem _ (mem_of_find?_eq_some hfind)

/-- A key that is there is put in its place, a new one behind all others. -/
theorem map_fst_put (k : κ) (v : α) : ∀ l : List (κ × α),
    (put k v l).map Prod.fst =
      if k ∈ l.map Prod.fst then l.map Prod.fst else l.map Prod.fst ++ [k]
  | [] => by simp [put]
  | e :: rest => by
      by_cases h : e.1 = k
      · simp [put, h]
      · have hk : ¬ k = e.1 := fun he => h he.symm
        rw [put, if_neg h, List.map_cons, map_fst_put k v rest, List.map_cons]
        by_cases hm : k ∈ rest.map Prod.fst
        · rw [if_pos hm, if_pos (List.mem_cons_of_mem _ hm)]
        · rw [if_neg hm, if_neg fun hc => (List.mem_cons.mp hc).elim hk hm, List.cons_append]

theorem nodup_put (k : κ) (v : α) {l : List (κ × α)} (hl : (l.map Prod.fst).Nodup) :
    ((put k v l).map Prod.fst).Nodup := by
  rw [map_fst_put]
  by_cases hm : k ∈ l.map Prod.fst
  · rwa [if_pos hm]
  · rw [if_neg hm, List.nodup_append]
    refine ⟨hl, by simp, fun a ha b hb => ?_⟩
    rw [List.mem_singleton] at hb
    exact fun hab => hm (hb ▸ hab ▸ ha)

theorem nodup_drop (k : κ) {l : List (κ × α)} (hl : (l.map Prod.fst).Nodup) :
    ((drop k l).map Prod.fst).Nodup :=
  (List.filter_sublist.map Prod.fst).nodup hl

/-! ## Dictionaries -/

/-- The value at a key. -/
def get? (d : Dictionary κ α) (k : κ) : Option α := find? k d.toList

/-- The key has a value. -/
def contains (d : Dictionary κ α) (k : κ) : Bool := (d.get? k).isSome

/-- Set the value at a key. -/
def insert (d : Dictionary κ α) (k : κ) (v : α) : Dictionary κ α :=
  ⟨put k v d.toList, nodup_put k v d.nodup⟩

/-- Drop the entry at a key, if there is one. -/
def erase (d : Dictionary κ α) (k : κ) : Dictionary κ α := ⟨drop k d.toList, nodup_drop k d.nodup⟩

@[simp] theorem get?_empty (k : κ) : (∅ : Dictionary κ α).get? k = none := rfl

theorem get?_insert (d : Dictionary κ α) (k j : κ) (v : α) :
    (d.insert k v).get? j = if j = k then some v else d.get? j := by
  by_cases h : j = k
  · subst h
    rw [if_pos rfl]
    exact find?_put_self j v d.toList
  · rw [if_neg h]
    exact find?_put_ne h v d.toList

/-- Setting a key that was free adds one entry to those that can be found. -/
theorem get?_insert_eq_some {d : Dictionary κ α} {k j : κ} {v w : α} (h : d.get? k = none) :
    (d.insert k v).get? j = some w ↔ d.get? j = some w ∨ j = k ∧ w = v := by
  rw [get?_insert]
  by_cases hj : j = k
  · simp [hj, h, eq_comm]
  · simp [hj]

theorem get?_erase (d : Dictionary κ α) (k j : κ) :
    (d.erase k).get? j = if j = k then none else d.get? j := by
  by_cases h : j = k
  · subst h
    rw [if_pos rfl]
    exact find?_drop_self j d.toList
  · rw [if_neg h]
    exact find?_drop_ne h d.toList

/-- A key that has a value is listed. -/
theorem mem_keys {d : Dictionary κ α} {k : κ} {v : α} (h : d.get? k = some v) : k ∈ d.keys :=
  mem_of_find?_eq_some h

/-- A key that is there keeps its place, a new one comes last. -/
theorem keys_insert (d : Dictionary κ α) (k : κ) (v : α) :
    (d.insert k v).keys = if k ∈ d.keys then d.keys else d.keys ++ [k] :=
  map_fst_put k v d.toList

end Dictionary

end Ecma
