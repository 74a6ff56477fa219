/-!
# Chronicles

A `Chronicle κ α` holds values under keys and remembers of each key the moment at
which it was created, by a clock that counts creations. Its entries come in no
particular order. Setting a key that is there keeps its moment; erasing it and
setting it again gives it a new one, later than all others.

No two entries have the same key, no two the same moment, and no moment is to come.
This is part of the type, so there is one way to sort the entries by their moments.
-/

namespace Ecma

universe u v

/-- A value under a key that was created at some moment. -/
structure Chronicle.Entry (κ : Type u) (α : Type v) where
  key : κ
  moment : Nat
  value : α

/-- Values under keys that were created one after the other. -/
structure Chronicle (κ : Type u) (α : Type v) where
  entries : List (Chronicle.Entry κ α)
  /-- the moment of the next creation -/
  clock : Nat
  /-- no key has two entries -/
  keys_nodup : (entries.map Chronicle.Entry.key).Nodup
  /-- no two keys were created at one moment -/
  moments_nodup : (entries.map Chronicle.Entry.moment).Nodup
  /-- every key was created before now -/
  lt_clock : ∀ t ∈ entries.map Chronicle.Entry.moment, t < clock

namespace Chronicle

variable {κ : Type u} {α : Type v}

/-- The chronicle without entries. -/
def empty : Chronicle κ α := ⟨[], 0, List.nodup_nil, List.nodup_nil, nofun⟩

instance : EmptyCollection (Chronicle κ α) := ⟨empty⟩
instance : Inhabited (Chronicle κ α) := ⟨empty⟩

/-! ## Entries by moment -/

/-- Put an entry in front of the first one that was not created before it. -/
def place (e : Entry κ α) : List (Entry κ α) → List (Entry κ α)
  | [] => [e]
  | x :: rest => if e.moment ≤ x.moment then e :: x :: rest else x :: place e rest

/-- Entries sorted by their moments. -/
def sort (l : List (Entry κ α)) : List (Entry κ α) := l.foldr place []

/-- The keys that satisfy `p`, in order of creation. -/
def keysWhere (c : Chronicle κ α) (p : κ → Bool) : List κ :=
  (sort (c.entries.filter fun e => p e.key)).map Entry.key

/-! ## Values by key -/

variable [DecidableEq κ]

/-- The value at a key. -/
def get? (c : Chronicle κ α) (k : κ) : Option α :=
  (c.entries.find? fun e => e.key = k).map Entry.value

/-- The entry with another value, if it is the one at a key. -/
def Entry.update (k : κ) (v : α) (e : Entry κ α) : Entry κ α :=
  if e.key = k then { e with value := v } else e

@[simp] theorem Entry.key_update (k : κ) (v : α) (e : Entry κ α) : (e.update k v).key = e.key := by
  rw [update]
  split <;> rfl

@[simp] theorem Entry.moment_update (k : κ) (v : α) (e : Entry κ α) :
    (e.update k v).moment = e.moment := by
  rw [update]
  split <;> rfl

theorem map_key_update (k : κ) (v : α) (l : List (Entry κ α)) :
    (l.map (Entry.update k v)).map Entry.key = l.map Entry.key := by
  simp

theorem map_moment_update (k : κ) (v : α) (l : List (Entry κ α)) :
    (l.map (Entry.update k v)).map Entry.moment = l.map Entry.moment := by
  simp

/-- Set the value at a key; a new key is created now. -/
def insert (c : Chronicle κ α) (k : κ) (v : α) : Chronicle κ α :=
  if h : k ∈ c.entries.map Entry.key then
    { c with
      entries := c.entries.map (Entry.update k v)
      keys_nodup := by rw [map_key_update]; exact c.keys_nodup
      moments_nodup := by rw [map_moment_update]; exact c.moments_nodup
      lt_clock := by rw [map_moment_update]; exact c.lt_clock }
  else
    { entries := ⟨k, c.clock, v⟩ :: c.entries
      clock := c.clock + 1
      keys_nodup := List.nodup_cons.mpr ⟨h, c.keys_nodup⟩
      moments_nodup :=
        List.nodup_cons.mpr ⟨fun hin => Nat.lt_irrefl _ (c.lt_clock _ hin), c.moments_nodup⟩
      lt_clock := by
        intro t ht
        rcases List.mem_cons.mp ht with rfl | ht
        · exact Nat.lt_succ_self _
        · exact Nat.lt_succ_of_lt (c.lt_clock t ht) }

/-- Drop the entry at a key, if there is one. -/
def erase (c : Chronicle κ α) (k : κ) : Chronicle κ α where
  entries := c.entries.filter fun e => e.key ≠ k
  clock := c.clock
  keys_nodup := (List.filter_sublist.map Entry.key).nodup c.keys_nodup
  moments_nodup := (List.filter_sublist.map Entry.moment).nodup c.moments_nodup
  lt_clock t ht := c.lt_clock t ((List.filter_sublist.map Entry.moment).subset ht)

@[simp] theorem get?_empty (k : κ) : (∅ : Chronicle κ α).get? k = none := rfl

theorem isSome_get?_iff {c : Chronicle κ α} {k : κ} :
    (c.get? k).isSome ↔ k ∈ c.entries.map Entry.key := by
  simp [get?]

/-- What becomes of the values when the value of a key that is there is set. -/
theorem find?_map_update {l : List (Entry κ α)} {k : κ} (hk : k ∈ l.map Entry.key) (v : α)
    (j : κ) : ((l.map (Entry.update k v)).find? fun e => e.key = j).map Entry.value =
      if j = k then some v else (l.find? fun e => e.key = j).map Entry.value := by
  have hsame : ((fun e : Entry κ α => decide (e.key = j)) ∘ Entry.update k v) =
      fun e => decide (e.key = j) := funext fun e => by simp
  rw [List.find?_map, hsame]
  rcases hfind : l.find? fun e => decide (e.key = j) with _ | e <;> rw [hfind]
  · have hj : j ≠ k := by
      rintro rfl
      obtain ⟨e, he, rfl⟩ := List.mem_map.mp hk
      simpa using List.find?_eq_none.mp hfind e he
    rw [if_neg hj]
    rfl
  · obtain rfl : e.key = j := by simpa using List.find?_some hfind
    simp only [Option.map_some, Entry.update]
    split <;> rfl

theorem get?_insert (c : Chronicle κ α) (k j : κ) (v : α) :
    (c.insert k v).get? j = if j = k then some v else c.get? j := by
  by_cases hk : k ∈ c.entries.map Entry.key
  · rw [insert, dif_pos hk]
    exact find?_map_update hk v j
  · rw [insert, dif_neg hk]
    simp only [get?, List.find?_cons]
    by_cases hj : j = k
    · simp [hj]
    · simp [hj, Ne.symm hj]

theorem get?_erase (c : Chronicle κ α) (k j : κ) :
    (c.erase k).get? j = if j = k then none else c.get? j := by
  simp only [get?, erase, List.find?_filter]
  by_cases hj : j = k
  · rw [if_pos hj, List.find?_eq_none.mpr, Option.map_none]
    intro e _
    simp [hj]
  · rw [if_neg hj]
    congr 2
    funext e
    by_cases he : e.key = j
    · simp [he, hj]
    · simp [he]

end Chronicle

end Ecma
