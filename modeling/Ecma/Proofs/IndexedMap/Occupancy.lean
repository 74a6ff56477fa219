import Mathlib.Data.List.Induction
import Ecma.IndexedMap.Basic

/-!
# How many slots a dense store has for its entries

Slots are memory. A dense store is **compact** if it has at most 32 slots, or at
most 16 for each entry: one slot in eight taken, and a factor of two because the
number of slots is a power of two. Objects change their integer keys by `put` and
`remove` alone, and one would like every map they lead to to be compact.

It is not so. A key far beyond the end makes a store sparse if too few slots would
be taken; but if cutting trailing holes makes the vector *as it was* dense enough,
the store stays dense, and the vector is then lengthened for the key all the same.
`Overreaches` says when that goes beyond the bound. It is the only way: a `put`
that does not overreach and every `remove` keep a map compact (`compact_insert_iff`,
`compact_erase`), so the maps of a run are all compact exactly when no `put` of the
run overreaches (`compact_iff_not_overreaches`).
-/

namespace Ecma

universe u

variable {α : Type u}

/-- At most 32 slots, or at most 16 for each entry. -/
def Elements.Compact : Elements α → Prop
  | .dense s => s.size ≤ 32 ∨ s.size ≤ 16 * s.count
  | _ => True

instance (e : Elements α) : Decidable e.Compact :=
  match e with
  | .empty => .isTrue trivial
  | .dense s => inferInstanceAs (Decidable (s.size ≤ 32 ∨ s.size ≤ 16 * s.count))
  | .sparse _ => .isTrue trivial

namespace Elements

/-! ## Stores that are not thin -/

theorem isThin_iff {size count : Nat} : isThin size count ↔ 32 < size ∧ count * 8 < size := by
  rw [isThin, Bool.and_eq_true, decide_eq_true_iff, decide_eq_true_iff]
  rfl

/-- A vector that is not thin is compact, with room to spare. -/
theorem compact_dense_of_not_isThin {s : Slots α} (h : ¬ isThin s.size s.count) :
    (dense s).Compact := by
  change s.size ≤ 32 ∨ s.size ≤ 16 * s.count
  rw [isThin_iff] at h
  omega

/-- Cutting its trailing holes makes a vector dense enough: it is long, more than a
quarter of it is trailing holes, and what is left is short or has one slot in eight
taken. -/
def Trims (s : Slots α) : Prop :=
  32 < s.size ∧ s.size < (s.size - s.used) * 4 ∧ (s.used ≤ 32 ∨ s.used ≤ 8 * s.count)

/-- Giving up a vector keeps what is left of it if cutting the trailing holes helps,
and makes a tree otherwise. -/
theorem relieve_cases (s : Slots α) :
    (Trims s ∧ ∃ kept, relieve s = dense kept ∧ kept.size = max s.used 8 ∧ kept.count = s.count) ∨
      (¬ Trims s ∧ ∃ t, relieve s = sparse t) := by
  simp only [relieve, Slots.trim?]
  by_cases hcut : Slots.trimThreshold < s.size ∧ s.size < (s.size - s.used) * Slots.trimRatio
  · rw [if_pos hcut]
    dsimp only
    change 32 < s.size ∧ s.size < (s.size - s.used) * 4 at hcut
    have hsize : (s.cut (max s.used Slots.minCapacity) (Nat.le_max_left _ _)).size =
        max s.used 8 := by
      have hle := s.used_le_size
      rw [Slots.size_cut, Slots.minCapacity]
      omega
    split
    · next hthin =>
      rw [hsize, isThin_iff] at hthin
      change _ ∧ s.count * 8 < _ at hthin
      refine Or.inr ⟨?_, _, rfl⟩
      simp only [Trims]
      omega
    · next hthin =>
      rw [hsize, isThin_iff] at hthin
      change ¬ (_ ∧ s.count * 8 < _) at hthin
      refine Or.inl ⟨?_, _, rfl, hsize, rfl⟩
      simp only [Trims]
      omega
  · rw [if_neg hcut]
    change ¬ (32 < s.size ∧ s.size < (s.size - s.used) * 4) at hcut
    refine Or.inr ⟨?_, _, rfl⟩
    simp only [Trims]
    omega

/-- Giving up a vector leaves one that is not thin, or none. -/
theorem compact_relieve (s : Slots α) : (relieve s).Compact := by
  obtain ⟨⟨-, -, hleft⟩, kept, hkept, hsize, hcount⟩ | ⟨-, t, ht⟩ := relieve_cases s
  · rw [hkept]
    change kept.size ≤ 32 ∨ kept.size ≤ 16 * kept.count
    omega
  · rw [ht]
    exact trivial

/-- A store that was reconsidered is compact, whatever it was before. -/
theorem compact_settle (e : Elements α) : e.settle.Compact := by
  cases e with
  | empty => exact trivial
  | dense s =>
    simp only [settle]
    split
    · exact compact_relieve s
    · next hthin => exact compact_dense_of_not_isThin hthin
  | sparse t => exact trivial

/-- Taking nothing out of a vector leaves it as compact as it was. -/
theorem compact_erase_of_get?_eq_none {e : Elements α} (h : e.Compact) {k : Nat}
    (hk : e.get? k = none) : (e.erase k).Compact := by
  cases e with
  | empty => exact trivial
  | dense s =>
    change s.get? k = none at hk
    have hcount : (s.take k).count = s.count := by simp [Slots.take, hk]
    change (s.take k).size ≤ 32 ∨ (s.take k).size ≤ 16 * (s.take k).count
    rw [Slots.size_take, hcount]
    exact h
  | sparse t => exact trivial

/-- Storing at a key that has a slot keeps a dense store compact. -/
theorem compact_write_of_lt {s : Slots α} (h : (dense s).Compact) {k : Nat} (hk : k < s.size)
    (v : α) : ((dense s).write k v).Compact := by
  change s.size ≤ 32 ∨ s.size ≤ 16 * s.count at h
  change ((s.take k).put k v).size ≤ 32 ∨ ((s.take k).put k v).size ≤ 16 * ((s.take k).put k v).count
  rw [Slots.size_put, Slots.size_take, if_pos hk, Slots.count_take_put]
  split <;> omega

/-- Storing at a key beyond a vector makes it as long as the key asks for. -/
theorem compact_write_iff_of_le {s : Slots α} {k : Nat} (hk : s.size ≤ k) (v : α) :
    ((dense s).write k v).Compact ↔
      Slots.capacityFor k ≤ 32 ∨ Slots.capacityFor k ≤ 16 * (s.count + 1) := by
  change ((s.take k).put k v).size ≤ 32 ∨ _ ≤ 16 * ((s.take k).put k v).count ↔ _
  rw [Slots.size_put, Slots.size_take, if_neg (Nat.not_lt.mpr hk), Slots.count_take_put,
    Slots.get?_eq_none_of_size_le hk]
  rfl

/-- A new vector for a key below 32 is short. -/
theorem capacityFor_le_of_lt {k : Nat} (hk : k < 32) : Slots.capacityFor k ≤ 32 := by
  revert k
  decide

end Elements

namespace IndexedMap

/-- The store is compact. -/
def Compact (m : IndexedMap α) : Prop := m.elements.Compact

instance (m : IndexedMap α) : Decidable m.Compact := inferInstanceAs (Decidable m.elements.Compact)

/-- The length is that of the entries: it was never widened on its own. -/
def Tight (m : IndexedMap α) : Prop := m.length = m.elements.extent

/-- A `put` at key `k` would lengthen a vector too far: the key is beyond the end,
cutting trailing holes makes the vector dense enough to stay, and the key asks for
more than 16 slots for each entry. -/
def Overreaches (m : IndexedMap α) (k : Nat) : Prop :=
  ∃ s, m.elements = .dense s ∧ m.length ≤ k ∧ 32 ≤ k ∧ k ≤ Elements.maxDenseKey ∧
    Elements.Trims s ∧ 16 * (s.count + 1) < Slots.capacityFor k

/-! ## One change -/

theorem tight_empty : (∅ : IndexedMap α).Tight := rfl

theorem Tight.length_eq {m : IndexedMap α} (h : m.Tight) {s : Slots α}
    (hs : m.elements = .dense s) : m.length = s.used := by
  rw [show m.length = m.elements.extent from h, hs]
  rfl

theorem Tight.insert {m : IndexedMap α} (h : m.Tight) (k : Nat) (v : α) : (m.insert k v).Tight := by
  have hreach : k < (m.insert k v).elements.extent := by
    rcases Nat.lt_or_ge k (m.insert k v).elements.extent with hlt | hge
    · exact hlt
    · have hnone := Elements.get?_eq_none_of_extent_le hge
      rw [← get?_eq, get?_insert, if_pos rfl] at hnone
      cases hnone
  -- no entry was lost, so that the store reaches at least as far as before
  have hold : m.elements.extent ≤ (m.insert k v).elements.extent := by
    rw [Elements.extent_le_iff]
    intro j hj
    have hnone := Elements.get?_eq_none_of_extent_le hj
    rw [← get?_eq, get?_insert, if_neg (by omega)] at hnone
    rw [← get?_eq, hnone]
  have hnew := (m.insert k v).extent_le
  rw [length_insert] at hnew
  rw [Tight, length_insert]
  rw [Tight] at h
  omega

/-- A key that is not there leaves the store without it as it is. -/
theorem eraseKeepingLength_of_not_contains {m : IndexedMap α} {k : Nat} (h : ¬ m.contains k)
    (j : Nat) : (m.eraseKeepingLength k).get? j = m.get? j := by
  rw [get?_eraseKeepingLength]
  split
  · next hj => rw [hj, Option.not_isSome_iff_eq_none.mp h]
  · rfl

theorem Tight.erase {m : IndexedMap α} (h : m.Tight) (k : Nat) : (m.erase k).Tight := by
  rw [erase_eq]
  split
  · rfl
  · next hk =>
    rw [Tight, length_eraseKeepingLength, show m.length = m.elements.extent from h]
    apply Elements.extent_congr
    intro j
    rw [← get?_eq, ← get?_eq, eraseKeepingLength_of_not_contains hk]

/-- Removing keeps a map compact: the store is reconsidered whenever an entry went. -/
theorem compact_erase {m : IndexedMap α} (hm : m.Compact) (k : Nat) : (m.erase k).Compact := by
  rw [erase_eq]
  split
  · exact Elements.compact_settle _
  · next hk =>
    have hnone : m.elements.get? k = none := by
      rw [← get?_eq]
      exact Option.not_isSome_iff_eq_none.mp hk
    rw [eraseKeepingLength, removeKeepingLength]
    split
    · exact Elements.compact_erase_of_get?_eq_none hm hnone
    · exact hm

/-- On a dense store, overreaching is a matter of the key and the vector. -/
theorem overreaches_iff {m : IndexedMap α} {s : Slots α} (hs : m.elements = .dense s) {k : Nat} :
    m.Overreaches k ↔ m.length ≤ k ∧ 32 ≤ k ∧ k ≤ Elements.maxDenseKey ∧ Elements.Trims s ∧
      16 * (s.count + 1) < Slots.capacityFor k := by
  constructor
  · rintro ⟨s', hs', h⟩
    obtain rfl := Elements.dense.inj (hs.symm.trans hs')
    exact h
  · exact fun h => ⟨s, hs, h⟩

/-- A key beyond the end that too few slots would be taken for goes to a tree, unless
trimming the vector helps; then the trimmed vector is lengthened for it. -/
theorem compact_relieve_write {m : IndexedMap α} (ht : m.Tight) {s : Slots α}
    (hs : m.elements = .dense s) {k : Nat} (hlen : m.length ≤ k) (hk : k ≤ Elements.maxDenseKey)
    (hthin : Elements.isThin (k + 1) s.count) (v : α) :
    ((Elements.relieve s).write k v).Compact ↔ ¬ m.Overreaches k := by
  have hext := ht.length_eq hs
  rw [Elements.isThin_iff] at hthin
  rw [overreaches_iff hs]
  obtain ⟨htrims, kept, hkept, hsize, hcount⟩ | ⟨htrims, t, ht'⟩ := Elements.relieve_cases s
  · -- the vector was cut to its entries, so that the key is beyond it and lengthens it
    have hcap := Slots.lt_capacityFor k
    rw [hkept, Elements.compact_write_iff_of_le (by omega), hcount]
    simp only [htrims, true_and]
    omega
  · rw [ht']
    refine iff_of_true trivial ?_
    rintro ⟨-, -, -, h, -⟩
    exact htrims h

/-- A key that is not beyond the end, or that enough slots would be taken for, asks
for few slots. -/
theorem compact_write_near {s : Slots α} (hm : (Elements.dense s).Compact) {k : Nat}
    (hnear : s.used ≤ k → ¬ Elements.isThin (k + 1) s.count) (v : α) :
    ((Elements.dense s).write k v).Compact := by
  rcases Nat.lt_or_ge k s.size with hlt | hge
  · exact Elements.compact_write_of_lt hm hlt v
  rw [Elements.compact_write_iff_of_le hge]
  have hdense := hnear (Nat.le_trans s.used_le_size hge)
  rw [Elements.isThin_iff] at hdense
  rcases Nat.lt_or_ge k 32 with hsmall | hlarge
  · exact Or.inl (Elements.capacityFor_le_of_lt hsmall)
  · -- one slot in eight up to the key is taken, and the capacity is at most twice that
    have hcap := Slots.capacityFor_le_two_mul (k := k) (by omega)
    refine Or.inr ?_
    omega

/-- **What a `put` does to a compact map**: it stays compact unless the key
overreaches. -/
theorem compact_insert_iff {m : IndexedMap α} (hm : m.Compact) (ht : m.Tight) (k : Nat) (v : α) :
    (m.insert k v).Compact ↔ ¬ m.Overreaches k := by
  change ((m.elements.prepare m.length k).write k v).Compact ↔ _
  change m.elements.Compact at hm
  rcases he : m.elements with _ | s | t
  · refine iff_of_true ?_ ?_
    · rw [Elements.prepare]
      split
      · next hk =>
        refine Elements.compact_write_of_lt (Or.inl ?_) ?_ v
        · rw [Slots.size_vacant]
          exact Elements.capacityFor_le_of_lt hk
        · rw [Slots.size_vacant]
          exact Slots.lt_capacityFor k
      · exact trivial
    · rintro ⟨s, hs, -⟩
      rw [he] at hs
      cases hs
  · rw [he] at hm
    simp only [Elements.prepare]
    by_cases hmax : Elements.maxDenseKey < k
    · rw [if_pos hmax]
      refine iff_of_true trivial ?_
      rintro ⟨s', -, -, -, hk, -⟩
      omega
    rw [if_neg hmax]
    by_cases hfar : m.length ≤ k ∧ Elements.isThin (k + 1) s.count
    · rw [if_pos hfar]
      exact compact_relieve_write ht he hfar.1 (Nat.le_of_not_lt hmax) hfar.2 v
    rw [if_neg hfar]
    have hext := ht.length_eq he
    refine iff_of_true (compact_write_near hm (fun hk hthin => hfar ⟨hext ▸ hk, hthin⟩) v) ?_
    rw [overreaches_iff he]
    rintro ⟨hlen, hk, -, ⟨-, -, -⟩, hcap⟩
    refine hfar ⟨hlen, ?_⟩
    have hle := Slots.capacityFor_le_two_mul (k := k) (by omega)
    rw [Elements.isThin_iff]
    omega
  · refine iff_of_true trivial ?_
    rintro ⟨s, hs, -⟩
    rw [he] at hs
    cases hs

/-! ## Runs -/

/-- A change that leaves the length to the entries. -/
inductive Edit (α : Type u) where
  | put (k : Nat) (v : α)
  | remove (k : Nat)

/-- Carry out an edit. -/
def edit (m : IndexedMap α) : Edit α → IndexedMap α
  | .put k v => m.insert k v
  | .remove k => m.erase k

/-- The map that edits lead to from the empty one. -/
def edited (es : List (Edit α)) : IndexedMap α := es.foldl edit ∅

theorem edited_append (es : List (Edit α)) (e : Edit α) :
    edited (es ++ [e]) = (edited es).edit e := by
  rw [edited, List.foldl_append]
  rfl

/-- Edits never leave the length above the entries. -/
theorem tight_edited (es : List (Edit α)) : (edited es).Tight := by
  rw [edited]
  refine List.foldlRecOn es edit tight_empty ?_
  intro m hm e _
  cases e with
  | put k v => exact hm.insert k v
  | remove k => exact hm.erase k

/-- One edit of a compact map keeps it compact unless it is a `put` that
overreaches. -/
theorem compact_edit_iff {m : IndexedMap α} (hm : m.Compact) (ht : m.Tight) (e : Edit α) :
    (m.edit e).Compact ↔ ∀ k v, e = .put k v → ¬ m.Overreaches k := by
  cases e with
  | put k v =>
    rw [edit, compact_insert_iff hm ht]
    constructor
    · rintro h k' v' ⟨⟩
      exact h
    · exact fun h => h k v rfl
  | remove k =>
    refine iff_of_true (compact_erase hm k) ?_
    intro k' v' h
    cases h

/-- **When slots stay in proportion.** The maps that a run of edits goes through are
all compact exactly when no `put` of the run overreaches. -/
theorem compact_iff_not_overreaches (es : List (Edit α)) :
    (∀ done, done <+: es → (edited done).Compact) ↔
      ∀ done k v, done ++ [.put k v] <+: es → ¬ (edited done).Overreaches k := by
  constructor
  · intro hall done k v hput
    have hbefore := hall done ((List.prefix_append done _).trans hput)
    have hafter := hall _ hput
    rw [edited_append] at hafter
    exact (compact_edit_iff hbefore (tight_edited done) (.put k v)).mp hafter k v rfl
  · intro hall done hdone
    -- the edits made so far, taken from the last one backwards
    induction done using List.reverseRecOn with
    | nil => exact trivial
    | append_singleton done e ih =>
      have hbefore := ih ((List.prefix_append done _).trans hdone)
      rw [edited_append, compact_edit_iff hbefore (tight_edited done)]
      rintro k v rfl
      exact hall done k v hdone

/-- Five keys from zero on and key 32 take six slots of 64; key 200 then makes that 256
slots for seven entries. -/
theorem not_compact_far_put :
    ¬ (edited ([0, 1, 2, 3, 4, 32, 200].map fun k => Edit.put k k)).Compact := by
  decide +kernel

end IndexedMap

end Ecma
