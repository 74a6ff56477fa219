import Mathlib.Data.Finset.Card
import Mathlib.Data.Finset.Range
import Std.Data.ExtTreeMap
import Ecma.IndexedMap.Bounds
import Ecma.Proofs.IndexedMap.Iteration

/-!
# An indexed map is a plain finite map with a length

The kind of store that an indexed map uses cannot be observed. `Plain` is the map
that a caller has in mind: a finite map, in which two maps with the same entries
are equal, and a length. A `Command` changes either of them; `Plain.apply` says
what it means.

The two are related by `Refines`: the same length and the same value at every
key. One command keeps the relation and gives the same answer (`Refines.apply`), so
a run of commands does, by induction (`Refines.run`). Related maps agree on
everything that can be read off an indexed map (`Refines.shows`).
-/

namespace Ecma

universe u

variable {α : Type u}

/-! ## Commands -/

/-- A change of an indexed map. -/
inductive Command (α : Type u) where
  | put (k : Nat) (v : α)
  | remove (k : Nat)
  | removeKeepingLength (k : Nat)
  | removeRange (lo hi : Nat)
  | setLength (n : Nat)
  | makeDense
  deriving DecidableEq, Repr

/-- The arguments are among those that an indexed map accepts. -/
def Command.inBounds : Command α → Bool
  | put k _ => isIndex k
  | removeRange lo hi => lo ≤ hi
  | setLength n => n ≤ maxLength
  | _ => true

namespace IndexedMap

/-- Carry out a command; yields the value that it takes out or replaces. -/
def apply (m : IndexedMap α) : Command α → Except BoundsError (Option α × IndexedMap α)
  | .put k v => m.tryPut k v
  | .remove k => .ok (m.remove k)
  | .removeKeepingLength k => .ok (m.removeKeepingLength k)
  | .removeRange lo hi => (m.tryEraseRange lo hi).map fun m => (none, m)
  | .setLength n => (m.trySetLength n).map fun m => (none, m)
  | .makeDense => .ok (none, m.makeDense)

/-- Carry out commands one after the other; yields what each of them yields. -/
def run (m : IndexedMap α) : List (Command α) → Except BoundsError (List (Option α) × IndexedMap α)
  | [] => .ok ([], m)
  | c :: cs => do
    let (answer, m) ← m.apply c
    let (answers, m) ← m.run cs
    return (answer :: answers, m)

end IndexedMap

/-! ## Plain maps -/

/-- A finite map with a length. -/
structure Plain (α : Type u) where
  entries : Std.ExtTreeMap Nat α
  length : Nat

namespace Plain

/-- A map of the given length without entries. -/
def withLength (n : Nat) : Plain α := ⟨∅, n⟩

/-- Keeping the keys of a finite map that pass a test. -/
theorem getElem?_filter_key (t : Std.ExtTreeMap Nat α) (p : Nat → Bool) (k : Nat) :
    (t.filter fun k _ => p k)[k]? = if p k then t[k]? else none := by
  rw [Std.ExtTreeMap.getElem?_filter']
  cases hp : p k <;> rcases t[k]? with _ | v <;> rfl

/-- One past the greatest key of a finite map, zero if there is none. -/
def bound (t : Std.ExtTreeMap Nat α) : Nat :=
  match t.maxKey? with
  | some k => k + 1
  | none => 0

/-- What a command means. -/
def apply (a : Plain α) : Command α → Option α × Plain α
  | .put k v => (a.entries[k]?, ⟨a.entries.insert k v, max a.length (k + 1)⟩)
  | .remove k =>
    if k ∈ a.entries then (a.entries[k]?, ⟨a.entries.erase k, bound (a.entries.erase k)⟩)
    else (none, a)
  | .removeKeepingLength k => (a.entries[k]?, ⟨a.entries.erase k, a.length⟩)
  | .removeRange lo hi => (none, ⟨a.entries.filter fun k _ => !(lo ≤ k && k < hi), a.length⟩)
  | .setLength n => (none, ⟨a.entries.filter fun k _ => k < n, n⟩)
  | .makeDense => (none, a)

/-- What commands mean one after the other. -/
def run (a : Plain α) : List (Command α) → List (Option α) × Plain α
  | [] => ([], a)
  | c :: cs =>
    let (answer, a) := a.apply c
    let (answers, a) := a.run cs
    (answer :: answers, a)

/-- The keys of a plain map are below its length, and no length is above
`maxLength`. -/
structure InRange (a : Plain α) : Prop where
  lt_length : ∀ k ∈ a.entries, k < a.length
  length_le : a.length ≤ maxLength

theorem bound_le_iff {t : Std.ExtTreeMap Nat α} {n : Nat} :
    bound t ≤ n ↔ ∀ k, n ≤ k → t[k]? = none := by
  simp only [bound]
  rcases hmax : t.maxKey? with _ | g
  · have hempty : t = ∅ := Std.ExtTreeMap.maxKey?_eq_none_iff.mp hmax
    simp [hempty]
  · obtain ⟨hmem, hle⟩ := Std.ExtTreeMap.maxKey?_eq_some_iff_mem_and_forall.mp hmax
    change g + 1 ≤ n ↔ _
    constructor
    · intro hg k hk
      apply Std.ExtTreeMap.getElem?_eq_none
      intro hkt
      have := Nat.isLE_compare.mp (hle k hkt)
      omega
    · intro hall
      by_contra hlt
      have hsome := Std.ExtTreeMap.mem_iff_isSome_getElem?.mp hmem
      rw [hall g (by omega)] at hsome
      cases hsome

theorem InRange.getElem?_eq_none {a : Plain α} (h : a.InRange) {k : Nat} (hk : a.length ≤ k) :
    a.entries[k]? = none :=
  Std.ExtTreeMap.getElem?_eq_none fun hmem => Nat.not_lt.mpr hk (h.lt_length k hmem)

/-- Commands within the bounds keep keys and lengths where they belong. -/
theorem InRange.apply {a : Plain α} (h : a.InRange) {c : Command α} (hc : c.inBounds) :
    (a.apply c).2.InRange := by
  have hlt := h.lt_length
  have hle := h.length_le
  cases c with
  | put k v =>
    have hk : k < maxLength := of_decide_eq_true hc
    refine ⟨fun j hj => ?_, by dsimp only [Plain.apply]; omega⟩
    rcases Std.ExtTreeMap.mem_insert.mp hj with hjk | hj
    · rw [← Nat.compare_eq_eq.mp hjk]
      exact Nat.lt_of_lt_of_le (Nat.lt_succ_self k) (Nat.le_max_right _ _)
    · exact Nat.lt_of_lt_of_le (hlt j hj) (Nat.le_max_left _ _)
  | remove k =>
    simp only [Plain.apply]
    split
    · refine ⟨fun j hj => ?_, ?_⟩
      · by_contra hge
        have hnone := bound_le_iff.mp (Nat.le_refl _) j (Nat.le_of_not_lt hge)
        rw [Std.ExtTreeMap.mem_iff_isSome_getElem?, hnone] at hj
        cases hj
      · have hbound : bound (a.entries.erase k) ≤ a.length := by
          rw [bound_le_iff]
          intro j hj
          rw [Std.ExtTreeMap.getElem?_erase, h.getElem?_eq_none hj]
          split <;> rfl
        exact Nat.le_trans hbound hle
    · exact h
  | removeKeepingLength k =>
    exact ⟨fun j hj => hlt j (Std.ExtTreeMap.mem_of_mem_erase hj), hle⟩
  | removeRange lo hi =>
    exact ⟨fun j hj => hlt j (Std.ExtTreeMap.mem_of_mem_filter hj), hle⟩
  | setLength n =>
    refine ⟨fun j hj => ?_, of_decide_eq_true hc⟩
    rw [Plain.apply, Std.ExtTreeMap.mem_iff_isSome_getElem?, getElem?_filter_key] at hj
    change j < n
    by_contra hge
    rw [if_neg (by simpa using hge)] at hj
    cases hj
  | makeDense => exact h

theorem InRange.run {a : Plain α} (h : a.InRange) {cs : List (Command α)}
    (hcs : ∀ c ∈ cs, c.inBounds) : (a.run cs).2.InRange := by
  induction cs generalizing a with
  | nil => exact h
  | cons c cs ih =>
    exact ih (h.apply (hcs c List.mem_cons_self)) fun d hd => hcs d (List.mem_cons_of_mem c hd)

theorem inRange_withLength {n : Nat} (hn : n ≤ maxLength) : (withLength n : Plain α).InRange :=
  ⟨fun _ hk => absurd hk Std.ExtTreeMap.not_mem_empty, hn⟩

end Plain

/-! ## The relation, and one command -/

namespace IndexedMap

/-- The same length, and the same value at every key. -/
structure Refines (m : IndexedMap α) (a : Plain α) : Prop where
  length : m.length = a.length
  get? : ∀ k, m.get? k = a.entries[k]?

theorem refines_withLength (n : Nat) : Refines (withLength n : IndexedMap α) (.withLength n) where
  length := rfl
  get? k := by
    rw [get?_eq]
    exact Std.ExtTreeMap.getElem?_empty.symm

namespace Refines

variable {m : IndexedMap α} {a : Plain α}

theorem insert (h : Refines m a) (k : Nat) (v : α) :
    Refines (m.insert k v) ⟨a.entries.insert k v, max a.length (k + 1)⟩ where
  length := by rw [length_insert, h.length]
  get? j := by
    rw [get?_insert, h.get?]
    simp only [Std.ExtTreeMap.getElem?_insert, Nat.compare_eq_eq]
    simp only [eq_comm]

/-- Dropping an entry, whatever becomes of the length. -/
theorem get?_erase (h : Refines m a) (k j : Nat) :
    (if j = k then none else m.get? j) = (a.entries.erase k)[j]? := by
  rw [h.get?]
  simp only [Std.ExtTreeMap.getElem?_erase, Nat.compare_eq_eq]
  simp only [eq_comm]

theorem eraseKeepingLength (h : Refines m a) (k : Nat) :
    Refines (m.eraseKeepingLength k) ⟨a.entries.erase k, a.length⟩ where
  length := by rw [length_eraseKeepingLength, h.length]
  get? j := by rw [get?_eraseKeepingLength, h.get?_erase]

/-- A settled map is as long as its entries reach. -/
theorem settle (h : Refines m a) : Refines m.settle ⟨a.entries, Plain.bound a.entries⟩ where
  length := by
    have hiff : ∀ n, m.settle.length ≤ n ↔ Plain.bound a.entries ≤ n := by
      intro n
      rw [Plain.bound_le_iff]
      refine Elements.extent_le_iff.trans (forall₂_congr fun k _ => ?_)
      rw [Elements.get?_settle, ← get?_eq, h.get?]
    exact Nat.le_antisymm ((hiff _).mpr (Nat.le_refl _)) ((hiff _).mp (Nat.le_refl _))
  get? k := by rw [get?_settle, h.get?]

theorem contains_iff (h : Refines m a) (k : Nat) : m.contains k = true ↔ k ∈ a.entries := by
  rw [contains, h.get?, Std.ExtTreeMap.mem_iff_isSome_getElem?]

theorem remove (h : Refines m a) (k : Nat) :
    (m.remove k).1 = (a.apply (.remove k)).1 ∧ Refines (m.remove k).2 (a.apply (.remove k)).2 := by
  change _ ∧ Refines (m.erase k) _
  rw [remove_fst, h.get?, erase_eq]
  by_cases hk : k ∈ a.entries
  · rw [if_pos ((h.contains_iff k).mpr hk), Plain.apply, if_pos hk]
    exact ⟨rfl, (h.eraseKeepingLength k).settle⟩
  · -- nothing to take out: the entries without `k` are the entries
    have hsame : a.entries.erase k = a.entries := by
      apply Std.ExtTreeMap.ext_getElem?
      intro j
      rw [← h.get?_erase, ← h.get?]
      split
      · next hj => rw [hj, h.get?, Std.ExtTreeMap.getElem?_eq_none hk]
      · rfl
    have herase := h.eraseKeepingLength k
    rw [hsame] at herase
    rw [if_neg (mt (h.contains_iff k).mp hk), Plain.apply, if_neg hk]
    exact ⟨Std.ExtTreeMap.getElem?_eq_none hk, herase⟩

theorem eraseRange (h : Refines m a) (lo hi : Nat) :
    Refines (m.eraseRange lo hi)
      ⟨a.entries.filter fun k _ => !(lo ≤ k && k < hi), a.length⟩ where
  length := h.length
  get? k := by
    rw [get?_eraseRange, h.get?, Plain.getElem?_filter_key]
    by_cases hk : lo ≤ k ∧ k < hi
    · simp [hk]
    · simp only [if_neg hk, Bool.not_eq_true', Bool.and_eq_false_iff, decide_eq_false_iff_not]
      rw [if_pos (by omega)]

theorem setLength (h : Refines m a) (n : Nat) :
    Refines (m.setLength n) ⟨a.entries.filter fun k _ => k < n, n⟩ where
  length := length_setLength m n
  get? k := by
    rw [get?_setLength, h.get?, Plain.getElem?_filter_key]
    simp only [decide_eq_true_eq]

theorem makeDense (h : Refines m a) : Refines m.makeDense a where
  length := by rw [length_makeDense, h.length]
  get? k := by rw [get?_makeDense, h.get?]

/-- **One command.** Within the bounds a command is carried out, answers what it
means, and keeps the relation. -/
theorem apply (h : Refines m a) {c : Command α} (hc : c.inBounds) :
    ∃ m', m.apply c = .ok ((a.apply c).1, m') ∧ Refines m' (a.apply c).2 := by
  cases c with
  | put k v =>
    refine ⟨m.insert k v, ?_, h.insert k v⟩
    have hk : isIndex k = true := hc
    rw [IndexedMap.apply, tryPut, if_pos hk, ← Prod.mk.eta (p := m.put k v), put_fst, h.get?]
    rfl
  | remove k =>
    obtain ⟨hanswer, hrest⟩ := h.remove k
    refine ⟨(m.remove k).2, ?_, hrest⟩
    rw [IndexedMap.apply, ← hanswer]
  | removeKeepingLength k =>
    refine ⟨m.eraseKeepingLength k, ?_, h.eraseKeepingLength k⟩
    rw [IndexedMap.apply, ← Prod.mk.eta (p := m.removeKeepingLength k), removeKeepingLength_fst,
      h.get?]
    rfl
  | removeRange lo hi =>
    refine ⟨m.eraseRange lo hi, ?_, h.eraseRange lo hi⟩
    rw [IndexedMap.apply, tryEraseRange, if_pos (of_decide_eq_true hc)]
    rfl
  | setLength n =>
    refine ⟨m.setLength n, ?_, h.setLength n⟩
    rw [IndexedMap.apply, trySetLength, if_pos (of_decide_eq_true hc)]
    rfl
  | makeDense => exact ⟨m.makeDense, rfl, h.makeDense⟩

/-- **A run of commands**, by induction from one command. -/
theorem run (h : Refines m a) {cs : List (Command α)} (hcs : ∀ c ∈ cs, c.inBounds) :
    ∃ m', m.run cs = .ok ((a.run cs).1, m') ∧ Refines m' (a.run cs).2 := by
  induction cs generalizing m a with
  | nil => exact ⟨m, rfl, h⟩
  | cons c cs ih =>
    obtain ⟨m₁, hm₁, h₁⟩ := h.apply (hcs c List.mem_cons_self)
    obtain ⟨m₂, hm₂, h₂⟩ := ih h₁ fun d hd => hcs d (List.mem_cons_of_mem c hd)
    refine ⟨m₂, ?_, h₂⟩
    rw [IndexedMap.run, hm₁]
    change (m₁.run cs >>= fun r => _) = _
    rw [hm₂]
    rfl

end Refines

/-! ## What can be read off a map -/

/-- Everything that can be read off an indexed map is what a plain map says. The
cursors cover all ranges; one that starts beyond its end is empty. -/
structure Shows (m : IndexedMap α) (a : Plain α) : Prop where
  length : m.length = a.length
  get? : ∀ k, m.get? k = a.entries[k]?
  contains : ∀ k, m.contains k = true ↔ k ∈ a.entries
  count : m.count = a.entries.size
  isEmpty : m.isEmpty = true ↔ a.entries = ∅
  hasHoles : m.hasHoles = true ↔ ∃ k < a.length, k ∉ a.entries
  iter : (m.cursor 0 m.length).ascending = a.entries.toList
  sorted : ∀ lo hi, (m.cursor lo hi).ascending.Pairwise fun d e => d.1 < e.1
  ascending : ∀ lo hi k v, (k, v) ∈ (m.cursor lo hi).ascending ↔
    a.entries[k]? = some v ∧ lo ≤ k ∧ k < min hi a.length
  descending : ∀ lo hi, (m.cursor lo hi).descending = (m.cursor lo hi).ascending.reverse

namespace Refines

variable {m : IndexedMap α} {a : Plain α}

theorem entries_eq (h : Refines m a) : m.elements.entries = a.entries.toList := by
  refine eq_of_ascending m.elements.pairwise_entries
    (a.entries.ordered_keys_toList.imp fun hlt => Nat.compare_eq_lt.mp hlt) fun k v => ?_
  rw [Elements.mem_entries, ← get?_eq, h.get?, Std.ExtTreeMap.mem_toList_iff_getElem?_eq_some]

theorem count_eq (h : Refines m a) : m.count = a.entries.size := by
  rw [count, ← Elements.length_entries, h.entries_eq, Std.ExtTreeMap.length_toList]

theorem entries_cursor (h : Refines m a) : m.entriesIn 0 m.length = a.entries.toList := by
  rw [← h.entries_eq, entriesIn, List.filter_eq_self]
  rintro ⟨k, v⟩ hkv
  rw [Elements.mem_entries, ← get?_eq] at hkv
  simpa using lt_length_of_get? hkv

theorem lt_length (h : Refines m a) {k : Nat} (hk : k ∈ a.entries) : k < a.length := by
  obtain ⟨v, hv⟩ := Option.isSome_iff_exists.mp (Std.ExtTreeMap.mem_iff_isSome_getElem?.mp hk)
  rw [← h.get?] at hv
  exact h.length ▸ lt_length_of_get? hv

/-- As many entries as the length says means that no key below it is free: keys
are below the length and different. -/
theorem hasHoles_iff (h : Refines m a) : m.hasHoles = true ↔ ∃ k < a.length, k ∉ a.entries := by
  have hsub : a.entries.keys.toFinset ⊆ Finset.range a.length := by
    intro k hk
    rw [List.mem_toFinset, Std.ExtTreeMap.mem_keys] at hk
    exact Finset.mem_range.mpr (h.lt_length hk)
  have hcard : a.entries.keys.toFinset.card = m.count := by
    rw [List.toFinset_card_of_nodup Std.ExtTreeMap.nodup_keys, Std.ExtTreeMap.length_keys,
      h.count_eq]
  rw [hasHoles, decide_eq_true_iff, h.length]
  constructor
  · intro hlt
    by_contra hfull
    push Not at hfull
    have hsup : Finset.range a.length ⊆ a.entries.keys.toFinset := fun k hk =>
      List.mem_toFinset.mpr (Std.ExtTreeMap.mem_keys.mpr (hfull k (Finset.mem_range.mp hk)))
    have hle := Finset.card_le_card hsup
    rw [Finset.card_range, hcard] at hle
    omega
  · rintro ⟨k, hk, hfree⟩
    have hne : a.entries.keys.toFinset ≠ Finset.range a.length := by
      intro heq
      have hmem := Finset.mem_range.mpr hk
      rw [← heq, List.mem_toFinset, Std.ExtTreeMap.mem_keys] at hmem
      exact hfree hmem
    have hlt := Finset.card_lt_card (Finset.ssubset_iff_subset_ne.mpr ⟨hsub, hne⟩)
    rwa [Finset.card_range, hcard] at hlt

theorem shows (h : Refines m a) : Shows m a where
  length := h.length
  get? := h.get?
  contains := h.contains_iff
  count := h.count_eq
  isEmpty := by
    rw [IndexedMap.isEmpty, decide_eq_true_iff, h.count_eq, Std.ExtTreeMap.eq_empty_iff_size_eq_zero]
  hasHoles := h.hasHoles_iff
  iter := by rw [ascending_cursor, h.entries_cursor]
  sorted lo hi := by
    rw [ascending_cursor]
    exact m.pairwise_entriesIn lo hi
  ascending lo hi k v := by
    rw [ascending_cursor, mem_entriesIn, h.get?, h.length]
  descending lo hi := by
    rw [ascending_cursor, descending_cursor]

end Refines

/-- **Refinement.** Start with an empty map of any length and let any commands
within the bounds follow. Every command is carried out and answers what it means
for a plain map; the map that is left shows what the plain map is, whatever kinds
of store it went through, and the plain map has its keys below its length. -/
theorem run_refines_plain (n : Nat) (hn : n ≤ maxLength) (cs : List (Command α))
    (hcs : ∀ c ∈ cs, c.inBounds) :
    ∃ m, (withLength n).run cs = .ok (((Plain.withLength n).run cs).1, m) ∧
      m.Shows ((Plain.withLength n).run cs).2 ∧ ((Plain.withLength n).run cs).2.InRange := by
  obtain ⟨m, hrun, hm⟩ := (refines_withLength n).run hcs
  exact ⟨m, hrun, hm.shows, (Plain.inRange_withLength hn).run hcs⟩

/-- A run that widens the length, goes through a dense store, a sparse one and back,
and removes in every way. -/
theorem run_refines_plain_through_stores :
    let cs : List (Command Nat) :=
      [.put 3 30, .put 200 5, .put 140000000 7, .remove 140000000, .makeDense,
        .removeKeepingLength 200, .removeRange 2 4, .put 9 1, .put 9 2, .setLength 5]
    (40 ≤ maxLength ∧ ∀ c ∈ cs, c.inBounds) ∧
      ∃ m, (withLength 40).run cs = .ok (((Plain.withLength 40).run cs).1, m) ∧
        m.Shows ((Plain.withLength 40).run cs).2 ∧ ((Plain.withLength 40).run cs).2.InRange := by
  intro cs
  have hn : 40 ≤ maxLength := by decide
  have hcs : ∀ c ∈ cs, c.inBounds := by decide
  exact ⟨⟨hn, hcs⟩, run_refines_plain 40 hn cs hcs⟩

end IndexedMap

end Ecma
