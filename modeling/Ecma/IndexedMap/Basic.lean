import Ecma.Index
import Ecma.IndexedMap.Elements

/-!
# Indexed maps: a length and a store that adapts to its contents

An `IndexedMap α` maps integer keys to values and remembers a length. **A key is
never stored at or above the length**: that is part of the type, so what a map
answers is a function of the entries in its store and of its length, whatever kind
of store holds them.

Removing with `remove` pulls the length down to the last entry,
`removeKeepingLength` and `eraseRange` do not. An operation that takes a value out
or puts one over another yields what was there.
-/

namespace Ecma

universe u

/-- A map from integer keys to values, with a length. -/
structure IndexedMap (α : Type u) where
  /-- one past the last key, or more -/
  length : Nat
  /-- the entries -/
  elements : Elements α
  /-- no key is stored at or above the length -/
  extent_le : elements.extent ≤ length

namespace IndexedMap

variable {α : Type u}

/-! ## Reading -/

/-- A map of the given length without entries. -/
def withLength (n : Nat) : IndexedMap α := ⟨n, .empty, Nat.zero_le n⟩

/-- The map without entries, of length zero. -/
def empty : IndexedMap α := withLength 0

instance : EmptyCollection (IndexedMap α) := ⟨empty⟩
instance : Inhabited (IndexedMap α) := ⟨empty⟩

/-- The kind of store in use. -/
def representation (m : IndexedMap α) : Representation := m.elements.representation

/-- The store in use is a tree. -/
def isSparse (m : IndexedMap α) : Bool := m.representation = .sparse

/-- Number of entries. -/
def count (m : IndexedMap α) : Nat := m.elements.count

/-- There is no entry. -/
def isEmpty (m : IndexedMap α) : Bool := m.count = 0

/-- Some key below the length has no entry. -/
def hasHoles (m : IndexedMap α) : Bool := m.count < m.length

/-- The value at a key. -/
def get? (m : IndexedMap α) (k : Nat) : Option α :=
  if k < m.length then m.elements.get? k else none

/-- There is an entry at a key. -/
def contains (m : IndexedMap α) (k : Nat) : Bool := (m.get? k).isSome

/-- The entries with keys at or above `lo` and below `hi`, keys ascending. -/
def entriesIn (m : IndexedMap α) (lo hi : Nat) : List (Nat × α) :=
  m.elements.entries.filter fun e => lo ≤ e.1 && e.1 < min hi m.length

/-- All entries, keys ascending. -/
def entries (m : IndexedMap α) : List (Nat × α) := m.entriesIn 0 m.length

/-- The keys at or above `lo` and below `hi`, ascending. -/
def keysIn (m : IndexedMap α) (lo hi : Nat) : List Nat := (m.entriesIn lo hi).map (·.1)

/-- All keys, ascending. -/
def keys (m : IndexedMap α) : List Nat := m.entries.map (·.1)

/-- All values, in the order of their keys. -/
def values (m : IndexedMap α) : List α := m.entries.map (·.2)

/-- The length hides nothing that the store holds. -/
theorem get?_eq (m : IndexedMap α) (k : Nat) : m.get? k = m.elements.get? k := by
  by_cases hk : k < m.length
  · rw [get?, if_pos hk]
  · have hextent := m.extent_le
    rw [get?, if_neg hk, Elements.get?_eq_none_of_extent_le (by omega)]

theorem get?_eq_none_of_length_le {m : IndexedMap α} {k : Nat} (h : m.length ≤ k) :
    m.get? k = none := by
  rw [get?, if_neg (Nat.not_lt.mpr h)]

theorem lt_length_of_get? {m : IndexedMap α} {k : Nat} {v : α} (h : m.get? k = some v) :
    k < m.length := by
  rcases Nat.lt_or_ge k m.length with hlt | hge
  · exact hlt
  · rw [get?_eq_none_of_length_le hge] at h
    cases h

theorem mem_entriesIn {m : IndexedMap α} {lo hi k : Nat} {v : α} :
    (k, v) ∈ m.entriesIn lo hi ↔ m.get? k = some v ∧ lo ≤ k ∧ k < min hi m.length := by
  rw [entriesIn, List.mem_filter, Elements.mem_entries, get?_eq]
  simp

theorem pairwise_entriesIn (m : IndexedMap α) (lo hi : Nat) :
    (m.entriesIn lo hi).Pairwise fun a b => a.1 < b.1 :=
  m.elements.pairwise_entries.filter _

theorem mem_keysIn {m : IndexedMap α} {lo hi k : Nat} :
    k ∈ m.keysIn lo hi ↔ (m.get? k).isSome ∧ lo ≤ k ∧ k < min hi m.length := by
  simp only [keysIn, List.mem_map, Prod.exists, exists_and_right, exists_eq_right, mem_entriesIn,
    Option.isSome_iff_exists]

theorem pairwise_keysIn (m : IndexedMap α) (lo hi : Nat) : (m.keysIn lo hi).Pairwise (· < ·) :=
  (m.pairwise_entriesIn lo hi).map _ fun _ _ h => h

/-! ## Storing -/

/-- Store a value at a key, widening the length if the key is beyond it; yields
what was there. -/
def put (m : IndexedMap α) (k : Nat) (v : α) : Option α × IndexedMap α :=
  let ready := m.elements.prepare m.length k
  (ready.get? k,
    { length := max m.length (k + 1)
      elements := ready.write k v
      extent_le := by
        have hready : ready.extent = m.elements.extent :=
          Elements.extent_congr (Elements.get?_prepare m.length k m.elements)
        have hwrite := Elements.extent_write_le k v ready
        have hextent := m.extent_le
        omega })

/-- Store a value at a key. -/
def insert (m : IndexedMap α) (k : Nat) (v : α) : IndexedMap α := (m.put k v).2

/-- Replace the value at a key that has one. -/
def replace (m : IndexedMap α) (k : Nat) (v : α) : IndexedMap α :=
  if h : m.contains k then
    { m with
      elements := m.elements.write k v
      extent_le := by
        obtain ⟨w, hw⟩ := Option.isSome_iff_exists.mp h
        have hlength := lt_length_of_get? hw
        have hwrite := Elements.extent_write_le k v m.elements
        have hextent := m.extent_le
        omega }
  else
    m

theorem put_fst (m : IndexedMap α) (k : Nat) (v : α) : (m.put k v).1 = m.get? k := by
  rw [get?_eq]
  exact Elements.get?_prepare m.length k m.elements k

theorem get?_insert (m : IndexedMap α) (k j : Nat) (v : α) :
    (m.insert k v).get? j = if j = k then some v else m.get? j := by
  rw [get?_eq, get?_eq]
  change ((m.elements.prepare m.length k).write k v).get? j = _
  rw [Elements.get?_write, Elements.get?_prepare]

@[simp] theorem length_insert (m : IndexedMap α) (k : Nat) (v : α) :
    (m.insert k v).length = max m.length (k + 1) := rfl

/-! ## Removing -/

/-- Drop the entry at a key and keep the length; yields what was there. -/
def removeKeepingLength (m : IndexedMap α) (k : Nat) : Option α × IndexedMap α :=
  if k < m.length then
    (m.elements.get? k,
      { m with
        elements := m.elements.erase k
        extent_le := Nat.le_trans (Elements.extent_erase_le k m.elements) m.extent_le })
  else
    (none, m)

/-- Reconsider the store and pull the length down to the last entry. -/
def settle (m : IndexedMap α) : IndexedMap α where
  length := m.elements.settle.extent
  elements := m.elements.settle
  extent_le := Nat.le_refl _

/-- Drop the entry at a key and pull the length down to the last entry left; yields
what was there. A key without an entry changes no length. -/
def remove (m : IndexedMap α) (k : Nat) : Option α × IndexedMap α :=
  match m.removeKeepingLength k with
  | (some v, rest) => (some v, rest.settle)
  | (none, rest) => (none, rest)

/-- Drop the entry at a key and keep the length. -/
def eraseKeepingLength (m : IndexedMap α) (k : Nat) : IndexedMap α := (m.removeKeepingLength k).2

/-- Drop the entry at a key and pull the length down. -/
def erase (m : IndexedMap α) (k : Nat) : IndexedMap α := (m.remove k).2

theorem removeKeepingLength_fst (m : IndexedMap α) (k : Nat) :
    (m.removeKeepingLength k).1 = m.get? k := by
  rw [removeKeepingLength, get?]
  split <;> rfl

theorem get?_eraseKeepingLength (m : IndexedMap α) (k j : Nat) :
    (m.eraseKeepingLength k).get? j = if j = k then none else m.get? j := by
  rw [eraseKeepingLength, removeKeepingLength]
  by_cases hk : k < m.length
  · rw [if_pos hk, get?_eq, Elements.get?_erase, ← get?_eq]
  · rw [if_neg hk]
    change m.get? j = _
    split
    · next hj => exact get?_eq_none_of_length_le (hj ▸ Nat.le_of_not_lt hk)
    · rfl

@[simp] theorem length_eraseKeepingLength (m : IndexedMap α) (k : Nat) :
    (m.eraseKeepingLength k).length = m.length := by
  rw [eraseKeepingLength, removeKeepingLength]
  split <;> rfl

@[simp] theorem get?_settle (m : IndexedMap α) (k : Nat) : m.settle.get? k = m.get? k := by
  rw [get?_eq, get?_eq]
  exact Elements.get?_settle m.elements k

/-- Removing settles the store exactly when it took something out. -/
theorem erase_eq (m : IndexedMap α) (k : Nat) :
    m.erase k =
      if m.contains k then (m.eraseKeepingLength k).settle else m.eraseKeepingLength k := by
  rw [erase, remove, contains, eraseKeepingLength, ← removeKeepingLength_fst]
  rcases m.removeKeepingLength k with ⟨_ | v, rest⟩ <;> rfl

theorem remove_fst (m : IndexedMap α) (k : Nat) : (m.remove k).1 = m.get? k := by
  rw [remove, ← removeKeepingLength_fst]
  rcases m.removeKeepingLength k with ⟨_ | v, rest⟩ <;> rfl

theorem get?_erase (m : IndexedMap α) (k j : Nat) :
    (m.erase k).get? j = if j = k then none else m.get? j := by
  rw [← get?_eraseKeepingLength, erase_eq]
  split
  · exact get?_settle _ j
  · rfl

/-- Drop the entries with keys at or above `lo` and below `hi`, and keep the
length. -/
def eraseRange (m : IndexedMap α) (lo hi : Nat) : IndexedMap α :=
  { m with
    elements := (m.keysIn lo hi).foldl (fun e k => e.erase k) m.elements
    extent_le :=
      Nat.le_trans (Elements.extent_foldl_erase_le (m.keysIn lo hi) m.elements) m.extent_le }

theorem get?_eraseRange (m : IndexedMap α) (lo hi k : Nat) :
    (m.eraseRange lo hi).get? k = if lo ≤ k ∧ k < hi then none else m.get? k := by
  rw [get?_eq, eraseRange, Elements.get?_foldl_erase, ← get?_eq]
  by_cases hin : lo ≤ k ∧ k < hi
  · rw [if_pos hin]
    split
    · rfl
    · next hout =>
      rcases hget : m.get? k with _ | v
      · rfl
      · have hlength := lt_length_of_get? hget
        exact absurd (mem_keysIn.mpr ⟨by rw [hget]; rfl, hin.1, by omega⟩) hout
  · have hout : k ∉ m.keysIn lo hi := fun h => by
      obtain ⟨-, hlo, hhi⟩ := mem_keysIn.mp h
      omega
    rw [if_neg hin, if_neg hout]

/-- Set the length. Entries at or above it are dropped. -/
def setLength (m : IndexedMap α) (n : Nat) : IndexedMap α :=
  if h : n < m.length then
    { length := n
      elements := (m.eraseRange n m.length).elements.settle
      extent_le := by
        rw [Elements.extent_le_iff]
        intro k hk
        rw [Elements.get?_settle, ← get?_eq, get?_eraseRange]
        split
        · rfl
        · exact get?_eq_none_of_length_le (by omega) }
  else
    { length := n
      elements := m.elements
      extent_le := by
        have hextent := m.extent_le
        omega }

theorem get?_setLength (m : IndexedMap α) (n k : Nat) :
    (m.setLength n).get? k = if k < n then m.get? k else none := by
  by_cases hn : n < m.length
  · rw [setLength, dif_pos hn, get?_eq]
    rw [Elements.get?_settle, ← get?_eq, get?_eraseRange]
    by_cases hk : k < n
    · rw [if_neg (by omega), if_pos hk]
    · rw [if_neg hk]
      split
      · rfl
      · exact get?_eq_none_of_length_le (by omega)
  · rw [setLength, dif_neg hn, get?_eq, ← get?_eq m k]
    split
    · rfl
    · exact get?_eq_none_of_length_le (by omega)

@[simp] theorem length_setLength (m : IndexedMap α) (n : Nat) : (m.setLength n).length = n := by
  rw [setLength]
  split <;> rfl

/-! ## Turning dense again -/

/-- Every key fits a dense store. -/
def fitsDense (m : IndexedMap α) : Bool := m.elements.extent ≤ Elements.maxDenseKey + 1

/-- `makeDense` leaves no sparse store behind. -/
def canMakeDense (m : IndexedMap α) : Bool := !m.isSparse || m.fitsDense

/-- Turn a sparse store dense, if its keys fit. -/
def makeDense (m : IndexedMap α) : IndexedMap α :=
  if m.canMakeDense then
    { m with
      elements := m.elements.toDense
      extent_le := by
        rw [Elements.extent_congr (Elements.get?_toDense m.elements)]
        exact m.extent_le }
  else
    m

@[simp] theorem get?_makeDense (m : IndexedMap α) (k : Nat) : m.makeDense.get? k = m.get? k := by
  rw [makeDense]
  split
  · rw [get?_eq, get?_eq]
    exact Elements.get?_toDense m.elements k
  · rfl

@[simp] theorem length_makeDense (m : IndexedMap α) : m.makeDense.length = m.length := by
  rw [makeDense]
  split <;> rfl

end IndexedMap

end Ecma
