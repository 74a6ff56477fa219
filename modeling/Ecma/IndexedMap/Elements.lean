import Std.Data.TreeMap
import Ecma.IndexedMap.Slots

/-!
# Stores that adapt to their contents

The store of an indexed map is one of

* `empty`: nothing was ever stored;
* `dense`: a vector of slots;
* `sparse`: an ordered tree.

A dense store turns sparse when a key would make it long while fewer than one
slot in eight is taken, unless cutting its trailing holes already helps; a key
above `maxDenseKey` always turns it sparse. Only `toDense` leads back.

The choice is a matter of space alone. What a store holds is said by `get?`: the
operations that change the kind of store keep it, `write` and `erase` change it
at one key, and `count`, `extent` and `entries` are functions of it.
-/

namespace Ecma

universe u

/-- The store of an indexed map. -/
inductive Elements (α : Type u) where
  | empty
  | dense (slots : Slots α)
  | sparse (entries : Std.TreeMap Nat α)

/-- Which kind of store a map uses. -/
inductive Representation where
  | empty
  | dense
  | sparse
  deriving DecidableEq, Repr

namespace Elements

variable {α : Type u}

/-! ## Thresholds -/

/-- Greatest key that a dense store may hold. -/
def maxDenseKey : Nat := 134217727

/-- A dense store of at most this many slots is never too thin. -/
def minSparseLength : Nat := 32

/-- A longer dense store needs one entry for this many slots. -/
def sparseRatio : Nat := 8

/-- A store of `size` slots with `count` entries is too thin to stay dense. -/
def isThin (size count : Nat) : Bool := minSparseLength < size && count * sparseRatio < size

/-! ## Reading a store -/

/-- The kind of store. -/
def representation : Elements α → Representation
  | empty => .empty
  | dense _ => .dense
  | sparse _ => .sparse

/-- Number of entries. -/
def count : Elements α → Nat
  | empty => 0
  | dense slots => slots.count
  | sparse t => t.size

/-- One past the greatest key, zero if there is none. -/
def extent : Elements α → Nat
  | empty => 0
  | dense slots => slots.used
  | sparse t => match t.maxKey? with
    | some k => k + 1
    | none => 0

/-- The value at a key. -/
def get? (k : Nat) : Elements α → Option α
  | empty => none
  | dense slots => slots.get? k
  | sparse t => t[k]?

/-- All entries, keys ascending. -/
def entries : Elements α → List (Nat × α)
  | empty => []
  | dense slots => slots.entries
  | sparse t => t.toList

theorem mem_entries {e : Elements α} {k : Nat} {v : α} :
    (k, v) ∈ e.entries ↔ e.get? k = some v := by
  cases e with
  | empty => simp [entries, get?]
  | dense slots => exact Slots.mem_entries
  | sparse t => exact Std.TreeMap.mem_toList_iff_getElem?_eq_some

theorem pairwise_entries (e : Elements α) : e.entries.Pairwise fun a b => a.1 < b.1 := by
  cases e with
  | empty => exact List.Pairwise.nil
  | dense slots => exact slots.pairwise_entries
  | sparse t => exact t.ordered_keys_toList.imp fun h => Nat.compare_eq_lt.mp h

theorem length_entries (e : Elements α) : e.entries.length = e.count := by
  cases e with
  | empty => rfl
  | dense slots => exact slots.length_entries
  | sparse t => exact Std.TreeMap.length_toList

/-- All keys are below `n` exactly when nothing is found from `n` on. -/
theorem extent_le_iff {e : Elements α} {n : Nat} :
    e.extent ≤ n ↔ ∀ k, n ≤ k → e.get? k = none := by
  cases e with
  | empty => simp [extent, get?]
  | dense slots => exact slots.used_le_iff n
  | sparse t =>
    simp only [extent, get?]
    rcases hmax : t.maxKey? with _ | m
    · have hempty : t.isEmpty = true := Std.TreeMap.maxKey?_eq_none_iff.mp hmax
      simp [Std.TreeMap.getElem?_of_isEmpty hempty]
    · obtain ⟨hmem, hle⟩ := Std.TreeMap.maxKey?_eq_some_iff_mem_and_forall.mp hmax
      change m + 1 ≤ n ↔ _
      constructor
      · intro hm k hk
        by_cases hkt : k ∈ t
        · have := Nat.isLE_compare.mp (hle k hkt)
          omega
        · exact Std.TreeMap.getElem?_eq_none hkt
      · intro hall
        rcases Nat.lt_or_ge m n with hlt | hge
        · exact hlt
        · have hsome := Std.TreeMap.mem_iff_isSome_getElem?.mp hmem
          rw [hall m hge] at hsome
          cases hsome

theorem get?_eq_none_of_extent_le {e : Elements α} {k : Nat} (h : e.extent ≤ k) :
    e.get? k = none :=
  extent_le_iff.mp (Nat.le_refl _) k h

/-- Stores that hold the same have the same extent. -/
theorem extent_congr {e e' : Elements α} (h : ∀ k, e.get? k = e'.get? k) :
    e.extent = e'.extent := by
  apply Nat.le_antisymm
  · rw [extent_le_iff]
    exact fun k hk => (h k).trans (get?_eq_none_of_extent_le hk)
  · rw [extent_le_iff]
    exact fun k hk => (h k).symm.trans (get?_eq_none_of_extent_le hk)

/-! ## Changing the kind of store -/

/-- A list of entries as a tree, later entries going over earlier ones. -/
def treeOf (l : List (Nat × α)) : Std.TreeMap Nat α := l.foldl (fun t e => t.insert e.1 e.2) ∅

/-- A list of entries as a vector of slots of at least the given size. -/
def slotsOf (size : Nat) (l : List (Nat × α)) : Slots α :=
  l.foldl (fun s e => s.put e.1 e.2) (.vacant size)

/-- Move the entries of a store to a tree. -/
def toSparse : Elements α → Elements α
  | empty => sparse ∅
  | dense slots => sparse (treeOf slots.entries)
  | sparse t => sparse t

/-- Move the entries of a tree to a vector of slots. -/
def toDense : Elements α → Elements α
  | sparse t => dense (slotsOf (Slots.capacityFor ((sparse t).extent - 1)) t.toList)
  | e => e

/-- Give up a thin vector: keep it dense if cutting trailing holes is enough,
otherwise move its entries to a tree. -/
def relieve (slots : Slots α) : Elements α :=
  match slots.trim? with
  | some kept => if isThin kept.size kept.count then (dense kept).toSparse else dense kept
  | none => (dense slots).toSparse

/-- Choose the store that will take key `k` of a map of the given length. -/
def prepare (length k : Nat) : Elements α → Elements α
  | empty => if k < minSparseLength then dense (.vacant (Slots.capacityFor k)) else sparse ∅
  | dense slots =>
    if maxDenseKey < k then (dense slots).toSparse
    else if length ≤ k ∧ isThin (k + 1) slots.count then relieve slots
    else dense slots
  | sparse t => sparse t

/-- Reconsider a dense store after entries were dropped. -/
def settle : Elements α → Elements α
  | dense slots => if isThin slots.size slots.count then relieve slots else dense slots
  | e => e

/-- Entries with different keys, stored one after the other where there is
nothing yet, are what is found afterwards; `get` says what is found in whatever
`put` stores to. -/
theorem get_foldl_put {S : Type u} {get : S → Nat → Option α} {put : S → Nat × α → S}
    (hput : ∀ s e j, get (put s e) j = if j = e.1 then some e.2 else get s j) (k : Nat) (v : α)
    (l : List (Nat × α)) (hl : l.Pairwise fun a b => a.1 < b.1) (s : S)
    (hs : ∀ e ∈ l, get s e.1 = none) :
    get (l.foldl put s) k = some v ↔ (k, v) ∈ l ∨ get s k = some v := by
  induction l generalizing s with
  | nil => simp
  | cons e rest ih =>
    obtain ⟨he, hrest⟩ := List.pairwise_cons.mp hl
    have hfree : ∀ f ∈ rest, get (put s e) f.1 = none := by
      intro f hf
      have hne : f.1 ≠ e.1 := Nat.ne_of_gt (he f hf)
      rw [hput, if_neg hne]
      exact hs f (List.mem_cons_of_mem e hf)
    rw [List.foldl_cons, ih hrest _ hfree, hput, List.mem_cons]
    by_cases hk : k = e.1
    · subst hk
      have hnew : get s e.1 = none := hs e List.mem_cons_self
      have hnot : (e.1, v) ∉ rest := fun h => Nat.lt_irrefl _ (he (e.1, v) h)
      simp [hnot, hnew, Prod.ext_iff, eq_comm]
    · have hne : (k, v) ≠ e := fun h => hk (congrArg Prod.fst h)
      simp [hk, hne]

theorem getElem?_tree_insert (t : Std.TreeMap Nat α) (k j : Nat) (v : α) :
    (t.insert k v)[j]? = if j = k then some v else t[j]? := by
  simp only [Std.TreeMap.getElem?_insert, Nat.compare_eq_eq]
  simp only [eq_comm]

theorem getElem?_tree_erase (t : Std.TreeMap Nat α) (k j : Nat) :
    (t.erase k)[j]? = if j = k then none else t[j]? := by
  simp only [Std.TreeMap.getElem?_erase, Nat.compare_eq_eq]
  simp only [eq_comm]

theorem getElem?_treeOf {l : List (Nat × α)} (hl : l.Pairwise fun a b => a.1 < b.1) {k : Nat}
    {v : α} : (treeOf l)[k]? = some v ↔ (k, v) ∈ l := by
  have hput : ∀ (t : Std.TreeMap Nat α) (e : Nat × α) (j : Nat),
      (t.insert e.1 e.2)[j]? = if j = e.1 then some e.2 else t[j]? :=
    fun t e j => getElem?_tree_insert t e.1 j e.2
  rw [treeOf, get_foldl_put hput k v l hl ∅ fun e _ => Std.TreeMap.getElem?_emptyc]
  simp

theorem get?_slotsOf (size : Nat) {l : List (Nat × α)} (hl : l.Pairwise fun a b => a.1 < b.1)
    {k : Nat} {v : α} : (slotsOf size l).get? k = some v ↔ (k, v) ∈ l := by
  have hput : ∀ (s : Slots α) (e : Nat × α) (j : Nat),
      (s.put e.1 e.2).get? j = if j = e.1 then some e.2 else s.get? j :=
    fun s e j => s.get?_put e.1 j e.2
  rw [slotsOf, get_foldl_put hput k v l hl _ fun e _ => Slots.get?_vacant size e.1]
  simp

@[simp] theorem get?_toSparse (e : Elements α) (k : Nat) : e.toSparse.get? k = e.get? k := by
  cases e with
  | empty => rfl
  | dense slots =>
    apply Option.ext
    intro v
    simp only [toSparse, get?]
    rw [getElem?_treeOf slots.pairwise_entries, Slots.mem_entries]
  | sparse t => rfl

@[simp] theorem get?_toDense (e : Elements α) (k : Nat) : e.toDense.get? k = e.get? k := by
  cases e with
  | empty => rfl
  | dense slots => rfl
  | sparse t =>
    apply Option.ext
    intro v
    have hsorted : t.toList.Pairwise fun a b => a.1 < b.1 := pairwise_entries (sparse t)
    exact (get?_slotsOf _ hsorted).trans (mem_entries (e := sparse t))

@[simp] theorem get?_relieve (slots : Slots α) (k : Nat) :
    (relieve slots).get? k = slots.get? k := by
  simp only [relieve, Slots.trim?]
  by_cases hcut : Slots.trimThreshold < slots.size ∧
      slots.size < (slots.size - slots.used) * Slots.trimRatio
  · rw [if_pos hcut]
    dsimp only
    split
    · rw [get?_toSparse]
      exact slots.get?_cut _ _ k
    · exact slots.get?_cut _ _ k
  · rw [if_neg hcut]
    exact get?_toSparse (dense slots) k

@[simp] theorem get?_prepare (length j : Nat) (e : Elements α) (k : Nat) :
    (e.prepare length j).get? k = e.get? k := by
  cases e with
  | empty =>
    simp only [prepare]
    split
    · exact Slots.get?_vacant _ k
    · rfl
  | dense slots =>
    simp only [prepare]
    split
    · exact get?_toSparse (dense slots) k
    · split
      · exact get?_relieve slots k
      · rfl
  | sparse t => rfl

@[simp] theorem get?_settle (e : Elements α) (k : Nat) : e.settle.get? k = e.get? k := by
  cases e with
  | empty => rfl
  | dense slots =>
    simp only [settle]
    split
    · exact get?_relieve slots k
    · rfl
  | sparse t => rfl

/-! ## Changing entries -/

/-- Store a value in the store as it is. -/
def write (k : Nat) (v : α) : Elements α → Elements α
  | empty => sparse ((∅ : Std.TreeMap Nat α).insert k v)
  | dense slots => dense ((slots.take k).put k v)
  | sparse t => sparse (t.insert k v)

/-- Drop the entry at a key. -/
def erase (k : Nat) : Elements α → Elements α
  | empty => empty
  | dense slots => dense (slots.take k)
  | sparse t => sparse (t.erase k)

theorem get?_write (k j : Nat) (v : α) (e : Elements α) :
    (e.write k v).get? j = if j = k then some v else e.get? j := by
  cases e with
  | empty => exact getElem?_tree_insert ∅ k j v
  | dense slots =>
    simp only [write, get?, Slots.get?_put, Slots.get?_take]
    split <;> rfl
  | sparse t => exact getElem?_tree_insert t k j v

theorem get?_erase (k j : Nat) (e : Elements α) :
    (e.erase k).get? j = if j = k then none else e.get? j := by
  cases e with
  | empty => simp [erase, get?]
  | dense slots => exact slots.get?_take k j
  | sparse t => exact getElem?_tree_erase t k j

theorem get?_foldl_erase (j : Nat) : ∀ (ks : List Nat) (e : Elements α),
    (ks.foldl (fun e k => e.erase k) e).get? j = if j ∈ ks then none else e.get? j
  | [], e => by simp
  | k :: rest, e => by
      rw [List.foldl_cons, get?_foldl_erase j rest, get?_erase]
      by_cases hj : j = k <;> simp [hj]

/-- Storing at a key reaches no further than the key. -/
theorem extent_write_le (k : Nat) (v : α) (e : Elements α) :
    (e.write k v).extent ≤ max e.extent (k + 1) := by
  rw [extent_le_iff]
  intro j hj
  have hjk : j ≠ k := by omega
  have hje : e.extent ≤ j := by omega
  rw [get?_write, if_neg hjk, get?_eq_none_of_extent_le hje]

/-- Dropping entries never makes a store reach further. -/
theorem extent_foldl_erase_le (ks : List Nat) (e : Elements α) :
    (ks.foldl (fun e k => e.erase k) e).extent ≤ e.extent := by
  rw [extent_le_iff]
  intro j hj
  rw [get?_foldl_erase, get?_eq_none_of_extent_le hj]
  split <;> rfl

theorem extent_erase_le (k : Nat) (e : Elements α) : (e.erase k).extent ≤ e.extent :=
  extent_foldl_erase_le [k] e

end Elements

end Ecma
