/-!
# Slot vectors

A slot vector holds the values of the keys from zero on, a hole being `none`. It
keeps count of the slots that are taken, so that its occupancy is known without
looking through it. That the count is right is part of the type: every operation
that changes a slot changes the count with it.

What a vector holds is said by `get?`. The lemmas here reduce every operation to
it; `used`, `entries` and `count` are functions of it too.
-/

namespace Ecma

universe u

/-- A vector of slots and the number of those that are taken. -/
structure Slots (α : Type u) where
  cells : Array (Option α)
  count : Nat
  /-- the count is that of the taken slots -/
  count_eq : count = cells.countP Option.isSome

namespace Slots

variable {α : Type u}

/-! ## Thresholds -/

/-- Fewest slots of a vector that was made for a key. -/
def minCapacity : Nat := 8

/-- Trailing holes are cut only from vectors longer than this. -/
def trimThreshold : Nat := 32

/-- Trailing holes are cut when more than one slot in this many is one. -/
def trimRatio : Nat := 4

/-- Slots set aside for key `k`: the power of two above it, and no fewer than
`minCapacity`. -/
def capacityFor (k : Nat) : Nat := max minCapacity (Nat.pow 2 (k.log2 + 1))

theorem lt_capacityFor (k : Nat) : k < capacityFor k :=
  Nat.lt_of_lt_of_le Nat.lt_log2_self (Nat.le_max_right _ _)

theorem capacityFor_le_two_mul {k : Nat} (hk : 4 ≤ k) : capacityFor k ≤ 2 * k := by
  have hlog : 2 ^ k.log2 ≤ k := Nat.log2_self_le (by omega)
  have hpow : Nat.pow 2 (k.log2 + 1) = 2 ^ k.log2 * 2 := Nat.pow_succ 2 k.log2
  rw [capacityFor, minCapacity, hpow]
  omega

/-! ## Reading -/

/-- Number of slots, holes included. -/
def size (s : Slots α) : Nat := s.cells.size

/-- What slot `k` holds; slots beyond the vector are holes. -/
def get? (s : Slots α) (k : Nat) : Option α := s.cells[k]?.join

/-- One past the last taken slot among the first `n`. -/
def usedBelow (s : Slots α) : Nat → Nat
  | 0 => 0
  | n + 1 => if (s.get? n).isSome then n + 1 else s.usedBelow n

/-- One past the last taken slot. -/
def used (s : Slots α) : Nat := s.usedBelow s.size

/-- The taken slots among those at `start` and after, with their positions. -/
def entriesFrom (start : Nat) : List (Option α) → List (Nat × α)
  | [] => []
  | none :: rest => entriesFrom (start + 1) rest
  | some v :: rest => (start, v) :: entriesFrom (start + 1) rest

/-- The taken slots with their positions, ascending. -/
def entries (s : Slots α) : List (Nat × α) := entriesFrom 0 s.cells.toList

theorem get?_eq_none_of_size_le {s : Slots α} {k : Nat} (h : s.size ≤ k) : s.get? k = none := by
  rw [get?, Array.getElem?_eq_none h]
  rfl

theorem lt_size_of_get? {s : Slots α} {k : Nat} {v : α} (h : s.get? k = some v) : k < s.size := by
  rcases Nat.lt_or_ge k s.size with hlt | hge
  · exact hlt
  · rw [get?_eq_none_of_size_le hge] at h
    cases h

/-! ## The last taken slot -/

theorem usedBelow_le (s : Slots α) : ∀ n, s.usedBelow n ≤ n
  | 0 => Nat.le_refl 0
  | n + 1 => by
      rw [usedBelow]
      split
      · exact Nat.le_refl _
      · exact Nat.le_succ_of_le (s.usedBelow_le n)

theorem used_le_size (s : Slots α) : s.used ≤ s.size := s.usedBelow_le s.size

theorem usedBelow_le_iff (s : Slots α) (n : Nat) : ∀ b,
    s.usedBelow b ≤ n ↔ ∀ k, n ≤ k → k < b → s.get? k = none
  | 0 => ⟨fun _ _ _ hk => absurd hk (Nat.not_lt_zero _), fun _ => Nat.zero_le n⟩
  | b + 1 => by
      have ih := s.usedBelow_le_iff n b
      rw [usedBelow]
      by_cases hb : (s.get? b).isSome
      · rw [if_pos hb]
        constructor
        · intro hle k hk hkb
          omega
        · intro hall
          rcases Nat.lt_or_ge b n with hlt | hge
          · exact hlt
          · rw [hall b hge (Nat.lt_succ_self b)] at hb
            cases hb
      · rw [if_neg hb, ih]
        constructor
        · intro hall k hk hkb
          rcases Nat.lt_succ_iff_lt_or_eq.mp hkb with hlt | rfl
          · exact hall k hk hlt
          · exact Option.not_isSome_iff_eq_none.mp hb
        · exact fun hall k hk hkb => hall k hk (Nat.lt_succ_of_lt hkb)

/-- The last taken slot is below `n` exactly when all slots from `n` on are
holes. -/
theorem used_le_iff (s : Slots α) (n : Nat) : s.used ≤ n ↔ ∀ k, n ≤ k → s.get? k = none := by
  rw [used, usedBelow_le_iff]
  constructor
  · intro hall k hk
    rcases Nat.lt_or_ge k s.size with hlt | hge
    · exact hall k hk hlt
    · exact get?_eq_none_of_size_le hge
  · exact fun hall k hk _ => hall k hk

/-! ## Entries -/

theorem mem_entriesFrom (k : Nat) (v : α) : ∀ (start : Nat) (l : List (Option α)),
    (k, v) ∈ entriesFrom start l ↔ start ≤ k ∧ l[k - start]?.join = some v
  | start, [] => by simp [entriesFrom]
  | start, x :: rest => by
      have ih := mem_entriesFrom k v (start + 1) rest
      rcases Nat.lt_trichotomy k start with hlt | rfl | hgt
      · cases x <;> simp [entriesFrom, ih] <;> omega
      · have hfree : (k, v) ∉ entriesFrom (k + 1) rest := fun h => by have := (ih.mp h).1; omega
        cases x <;> simp [entriesFrom, hfree, eq_comm]
      · have hsub : k - start = (k - (start + 1)) + 1 := by omega
        have hne : k ≠ start := by omega
        have hle : start ≤ k := by omega
        cases x <;> simp [entriesFrom, ih, hsub, hne, hle] <;> omega

theorem pairwise_entriesFrom : ∀ (start : Nat) (l : List (Option α)),
    (entriesFrom start l).Pairwise fun a b => a.1 < b.1
  | _, [] => List.Pairwise.nil
  | start, none :: rest => pairwise_entriesFrom (start + 1) rest
  | start, some v :: rest => by
      refine List.Pairwise.cons ?_ (pairwise_entriesFrom (start + 1) rest)
      intro e he
      exact ((mem_entriesFrom e.1 e.2 (start + 1) rest).mp he).1

theorem length_entriesFrom : ∀ (start : Nat) (l : List (Option α)),
    (entriesFrom start l).length = l.countP Option.isSome
  | _, [] => rfl
  | start, none :: rest => by simp [entriesFrom, length_entriesFrom (start + 1) rest]
  | start, some v :: rest => by simp [entriesFrom, length_entriesFrom (start + 1) rest]

theorem mem_entries {s : Slots α} {k : Nat} {v : α} : (k, v) ∈ s.entries ↔ s.get? k = some v := by
  rw [entries, mem_entriesFrom, get?]
  simp

theorem pairwise_entries (s : Slots α) : s.entries.Pairwise fun a b => a.1 < b.1 :=
  pairwise_entriesFrom 0 _

theorem length_entries (s : Slots α) : s.entries.length = s.count := by
  rw [entries, length_entriesFrom, s.count_eq, ← Array.countP_toList]

/-! ## Changing -/

/-- A vector of `n` holes. -/
def vacant (n : Nat) : Slots α where
  cells := Array.replicate n none
  count := 0
  count_eq := by simp [Array.countP_replicate]

/-- Lengthen a vector with holes until it has a slot for `k`. -/
def grow (s : Slots α) (k : Nat) : Slots α :=
  if k < s.size then s
  else
    { cells := s.cells ++ Array.replicate (capacityFor k - s.size) none
      count := s.count
      count_eq := by simp [s.count_eq, Array.countP_replicate] }

/-- Setting one slot of a vector moves the count by what it held and by what it
holds now. -/
theorem countP_setIfInBounds (cells : Array (Option α)) {k : Nat} (x : Option α)
    (hk : k < cells.size) :
    (cells.setIfInBounds k x).countP Option.isSome + (cells[k]?.join).isSome.toNat =
      cells.countP Option.isSome + x.isSome.toNat := by
  have hset : cells.setIfInBounds k x = cells.set k x hk := by simp [Array.setIfInBounds, hk]
  have hget : cells[k]?.join = cells[k] := by simp [hk]
  rw [hset, hget, Array.countP_set hk]
  by_cases hold : cells[k].isSome
  · have hpos : 0 < cells.countP Option.isSome :=
      Array.countP_pos_iff.mpr ⟨cells[k], Array.getElem_mem hk, hold⟩
    cases hx : x.isSome <;> simp [hold] <;> omega
  · cases hx : x.isSome <;> simp [hold]

theorem size_grow_of_le {s : Slots α} {k : Nat} (h : s.size ≤ k) :
    (s.grow k).size = capacityFor k := by
  have hcap := lt_capacityFor k
  have hk : ¬ k < s.size := Nat.not_lt.mpr h
  rw [grow, if_neg hk]
  simp only [size, Array.size_append, Array.size_replicate] at h hcap ⊢
  omega

theorem lt_size_grow (s : Slots α) (k : Nat) : k < (s.grow k).size := by
  rcases Nat.lt_or_ge k s.size with hlt | hge
  · rwa [grow, if_pos hlt]
  · rw [size_grow_of_le hge]
    exact lt_capacityFor k

/-- Fill slot `k`, lengthening the vector if it has none. -/
def put (s : Slots α) (k : Nat) (v : α) : Slots α where
  cells := (s.grow k).cells.setIfInBounds k (some v)
  count := if ((s.grow k).get? k).isSome then (s.grow k).count else (s.grow k).count + 1
  count_eq := by
    have hset := countP_setIfInBounds (s.grow k).cells (some v) (s.lt_size_grow k)
    have hcount := (s.grow k).count_eq
    rw [get?]
    cases hold : ((s.grow k).cells[k]?.join).isSome <;> simp [hold] at hset ⊢ <;> omega

/-- Empty slot `k`. -/
def take (s : Slots α) (k : Nat) : Slots α where
  cells := s.cells.setIfInBounds k none
  count := if (s.get? k).isSome then s.count - 1 else s.count
  count_eq := by
    have hcount := s.count_eq
    rcases Nat.lt_or_ge k s.size with hlt | hge
    · have hset := countP_setIfInBounds s.cells none hlt
      rw [get?]
      cases hold : (s.cells[k]?.join).isSome <;> simp [hold] at hset ⊢ <;> omega
    · have hle : s.cells.size ≤ k := hge
      simp [get?_eq_none_of_size_le hge, Array.setIfInBounds_eq_of_size_le hle, hcount]

/-- The slots from `n` on hold nothing that counts. -/
theorem countP_extract_of_used_le (s : Slots α) {n : Nat} (h : s.used ≤ n) :
    (s.cells.extract 0 n).countP Option.isSome = s.count := by
  have hsplit : s.cells.toList = s.cells.toList.take n ++ s.cells.toList.drop n :=
    (List.take_append_drop n _).symm
  have hholes : (s.cells.toList.drop n).countP Option.isSome = 0 := by
    rw [List.countP_eq_zero]
    intro x hx
    obtain ⟨i, hi, rfl⟩ := List.getElem_of_mem hx
    have hnone := (s.used_le_iff n).mp h (n + i) (Nat.le_add_right n i)
    simp only [List.length_drop, Array.length_toList] at hi
    have hlt : n + i < s.cells.size := by omega
    simp only [get?, Array.getElem?_eq_getElem hlt, Option.join_some] at hnone
    simp [hnone]
  rw [s.count_eq, ← Array.countP_toList, ← Array.countP_toList, Array.toList_extract]
  rw [hsplit, List.countP_append, hholes]
  simp

/-- The first `n` slots of a vector that has only holes after them. -/
def cut (s : Slots α) (n : Nat) (h : s.used ≤ n) : Slots α where
  cells := s.cells.extract 0 n
  count := s.count
  count_eq := (s.countP_extract_of_used_le h).symm

/-- The vector without its trailing holes, when it is long and they are more
than a quarter of it. -/
def trim? (s : Slots α) : Option (Slots α) :=
  if trimThreshold < s.size ∧ s.size < (s.size - s.used) * trimRatio then
    some (s.cut (max s.used minCapacity) (Nat.le_max_left _ _))
  else
    none

@[simp] theorem get?_vacant (n k : Nat) : (vacant n : Slots α).get? k = none := by
  simp only [get?, vacant, Array.getElem?_replicate]
  split <;> rfl

@[simp] theorem get?_grow (s : Slots α) (k j : Nat) : (s.grow k).get? j = s.get? j := by
  by_cases hk : k < s.size
  · rw [grow, if_pos hk]
  · rw [grow, if_neg hk]
    simp only [get?, Array.getElem?_append, Array.getElem?_replicate]
    split
    · rfl
    · next hj =>
      rw [Array.getElem?_eq_none (Nat.le_of_not_lt hj)]
      split <;> rfl

theorem get?_put (s : Slots α) (k j : Nat) (v : α) :
    (s.put k v).get? j = if j = k then some v else s.get? j := by
  have hk : k < (s.grow k).cells.size := s.lt_size_grow k
  rw [get?, put, Array.getElem?_setIfInBounds]
  by_cases hj : j = k
  · subst hj
    simp [hk]
  · rw [if_neg (Ne.symm hj), if_neg hj, ← s.get?_grow k j]
    rfl

theorem get?_take (s : Slots α) (k j : Nat) :
    (s.take k).get? j = if j = k then none else s.get? j := by
  rw [get?, take, Array.getElem?_setIfInBounds]
  by_cases hj : j = k
  · subst hj
    simp only [if_true]
    split <;> rfl
  · rw [if_neg (Ne.symm hj), if_neg hj]
    rfl

@[simp] theorem get?_cut (s : Slots α) (n : Nat) (h : s.used ≤ n) (k : Nat) :
    (s.cut n h).get? k = s.get? k := by
  rcases Nat.lt_or_ge k n with hlt | hge
  · simp only [get?, cut, Array.getElem?_extract, Nat.sub_zero, Nat.zero_add]
    split
    · rfl
    · rw [Array.getElem?_eq_none (by omega)]
  · rw [(s.used_le_iff n).mp h k hge, get?_eq_none_of_size_le]
    simp only [size, cut, Array.size_extract]
    omega

/-! ## Sizes and counts -/

theorem count_put (s : Slots α) (k : Nat) (v : α) :
    (s.put k v).count = if (s.get? k).isSome then s.count else s.count + 1 := by
  have hgrow : (s.grow k).count = s.count := by
    rw [grow]
    split <;> rfl
  simp only [put, get?_grow, hgrow]

theorem count_pos_of_get? {s : Slots α} {k : Nat} {v : α} (h : s.get? k = some v) :
    0 < s.count := by
  rw [← s.length_entries]
  exact List.length_pos_of_mem (mem_entries.mpr h)

/-- Taking a value out first and putting one in counts the slot once. -/
theorem count_take_put (s : Slots α) (k : Nat) (v : α) :
    ((s.take k).put k v).count = if (s.get? k).isSome then s.count else s.count + 1 := by
  rw [count_put, get?_take, if_pos rfl]
  rcases hget : s.get? k with _ | w
  · simp [take, hget]
  · have hpos := count_pos_of_get? hget
    simp [take, hget]
    omega

@[simp] theorem size_vacant (n : Nat) : (vacant n : Slots α).size = n := by
  simp [size, vacant]

theorem size_put (s : Slots α) (k : Nat) (v : α) :
    (s.put k v).size = if k < s.size then s.size else capacityFor k := by
  have hsize : (s.put k v).size = (s.grow k).size := by simp [size, put]
  rw [hsize]
  by_cases hk : k < s.size
  · rw [if_pos hk, grow, if_pos hk]
  · rw [if_neg hk, size_grow_of_le (Nat.le_of_not_lt hk)]

@[simp] theorem size_take (s : Slots α) (k : Nat) : (s.take k).size = s.size := by
  simp [size, take]

theorem size_cut (s : Slots α) (n : Nat) (h : s.used ≤ n) : (s.cut n h).size = min n s.size := by
  simp [size, cut]

end Slots

end Ecma
