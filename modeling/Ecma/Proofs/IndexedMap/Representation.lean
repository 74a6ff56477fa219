import Ecma.Proofs.IndexedMap.Occupancy
import Ecma.Proofs.IndexedMap.Refinement

/-!
# Which kind of store a map has

A map starts without a store. The first `put` makes one, dense or sparse; from then on a dense
store may turn sparse, and only `makeDense` leads back. A call does one of three things to the
kind of store (`IndexedMap.Call.next_cases`): it stores at a key, it makes the store dense, or
it **sheds**, that is, it adds no key and keeps the kind of store, unless it gives up a vector
for a tree.

The ceiling for dense keys is an invariant of runs: a dense store holds no key above it
(`bounded_after`). It is what makes `makeDense` answer by the keys alone, whatever the store.
-/

namespace Ecma

universe u

variable {α : Type u}

namespace Elements

/-! ## Shedding -/

/-- No key is new, and the kind of store stays or a vector gives way to a tree. -/
structure Sheds (e e' : Elements α) : Prop where
  kind : e'.representation = e.representation ∨
    e.representation = .dense ∧ e'.representation = .sparse
  extent_le : e'.extent ≤ e.extent

theorem Sheds.refl (e : Elements α) : e.Sheds e := ⟨.inl rfl, Nat.le_refl _⟩

theorem Sheds.trans {e₁ e₂ e₃ : Elements α} (h : e₁.Sheds e₂) (h' : e₂.Sheds e₃) :
    e₁.Sheds e₃ := by
  refine ⟨?_, Nat.le_trans h'.extent_le h.extent_le⟩
  rcases h.kind with hkind | ⟨hdense, hsparse⟩
  · rw [← hkind]
    exact h'.kind
  · rcases h'.kind with hkind' | ⟨hdense', -⟩
    · exact .inr ⟨hdense, hkind'.trans hsparse⟩
    · cases hsparse.symm.trans hdense'

theorem representation_erase (k : Nat) (e : Elements α) :
    (e.erase k).representation = e.representation := by
  cases e <;> rfl

theorem sheds_foldl_erase (ks : List Nat) (e : Elements α) :
    e.Sheds (ks.foldl (fun e k => e.erase k) e) := by
  refine ⟨.inl ?_, extent_foldl_erase_le ks e⟩
  induction ks generalizing e with
  | nil => rfl
  | cons k ks ih => rw [List.foldl_cons, ih, representation_erase]

theorem sheds_erase (k : Nat) (e : Elements α) : e.Sheds (e.erase k) := sheds_foldl_erase [k] e

theorem representation_relieve (s : Slots α) :
    (relieve s).representation = .dense ∨ (relieve s).representation = .sparse := by
  obtain ⟨-, kept, hkept, -⟩ | ⟨-, t, ht⟩ := relieve_cases s
  · exact .inl (by rw [hkept]; rfl)
  · exact .inr (by rw [ht]; rfl)

theorem sheds_settle (e : Elements α) : e.Sheds e.settle := by
  refine ⟨?_, Nat.le_of_eq (extent_congr (get?_settle e))⟩
  cases e with
  | empty => exact .inl rfl
  | dense s =>
    rw [settle]
    split
    · exact (representation_relieve s).imp id fun hsparse => ⟨rfl, hsparse⟩
    · exact .inl rfl
  | sparse t => exact .inl rfl

theorem representation_write {e : Elements α} (h : e.representation ≠ .empty) (k : Nat) (v : α) :
    (e.write k v).representation = e.representation := by
  cases e with
  | empty => exact absurd rfl h
  | dense s => rfl
  | sparse t => rfl

theorem lt_extent_of_isSome {e : Elements α} {k : Nat} (h : (e.get? k).isSome) : k < e.extent := by
  by_contra hge
  rw [get?_eq_none_of_extent_le (Nat.le_of_not_lt hge)] at h
  cases h

/-- Storing over a value sheds. -/
theorem sheds_write {e : Elements α} {k : Nat} {w : α} (h : e.get? k = some w) (v : α) :
    e.Sheds (e.write k v) := by
  have hkind : e.representation ≠ .empty := by
    cases e with
    | empty => cases h
    | dense s => simp [representation]
    | sparse t => simp [representation]
  have hlt := lt_extent_of_isSome (Option.isSome_of_eq_some h)
  have hwrite := extent_write_le k v e
  exact ⟨.inl (representation_write hkind k v), by omega⟩

/-! ## The ceiling of dense stores -/

/-- A dense store holds no key above the greatest that it may hold. -/
def Bounded (e : Elements α) : Prop := e.representation = .dense → e.extent ≤ maxDenseKey + 1

theorem Bounded.sheds {e e' : Elements α} (h : e.Bounded) (hsheds : e.Sheds e') : e'.Bounded := by
  intro hdense
  rcases hsheds.kind with hkind | ⟨-, hsparse⟩
  · exact Nat.le_trans hsheds.extent_le (h (hkind ▸ hdense))
  · cases hsparse.symm.trans hdense

/-- The store that will take a key is sparse, or it is dense and was not sparse, and the key
is below the ceiling. -/
theorem representation_prepare (length k : Nat) (e : Elements α) :
    (e.prepare length k).representation = .sparse ∨
      (e.prepare length k).representation = .dense ∧ e.representation ≠ .sparse ∧
        k ≤ maxDenseKey := by
  cases e with
  | empty =>
    rw [prepare]
    split
    · next hk =>
      have hmin : minSparseLength ≤ maxDenseKey := by decide
      exact .inr ⟨rfl, by simp [representation], by omega⟩
    · exact .inl rfl
  | dense s =>
    have hkind : (dense s).representation ≠ .sparse := by simp [representation]
    rw [prepare]
    split
    · exact .inl rfl
    · next hk =>
      have hle := Nat.le_of_not_lt hk
      split
      · exact (representation_relieve s).symm.imp id fun hdense => ⟨hdense, hkind, hle⟩
      · exact .inr ⟨rfl, hkind, hle⟩
  | sparse t => exact .inl rfl

/-- What becomes of the kind of store when a value is stored at a key. -/
theorem representation_put (length k : Nat) (v : α) (e : Elements α) :
    ((e.prepare length k).write k v).representation = .sparse ∨
      ((e.prepare length k).write k v).representation = .dense ∧ e.representation ≠ .sparse ∧
        k ≤ maxDenseKey := by
  have hready := representation_prepare length k e
  have hkind : (e.prepare length k).representation ≠ .empty := by
    rcases hready with hkind | ⟨hkind, -⟩ <;> simp [hkind]
  rwa [representation_write hkind]

theorem Bounded.put {e : Elements α} (h : e.Bounded) (length k : Nat) (v : α) :
    ((e.prepare length k).write k v).Bounded := by
  intro hdense
  rcases representation_put length k v e with hsparse | ⟨-, hkind, hk⟩
  · cases hsparse.symm.trans hdense
  · have hold : e.extent ≤ maxDenseKey + 1 := by
      cases e with
      | empty => exact Nat.zero_le _
      | dense s => exact h rfl
      | sparse t => exact absurd rfl hkind
    have hready : (e.prepare length k).extent = e.extent := extent_congr (get?_prepare length k e)
    have hwrite := extent_write_le k v (e.prepare length k)
    omega

theorem representation_toDense (e : Elements α) :
    e.toDense.representation =
      if e.representation = .sparse then .dense else e.representation := by
  cases e <;> rfl

/-! ## Thin vectors -/

/-- A vector of more than 32 slots, of which fewer than one in eight is taken. -/
def Thin (e : Elements α) : Prop := ∃ s, e = dense s ∧ 32 < s.size ∧ s.count * 8 < s.size

/-- A store that was reconsidered is not thin. If cutting trailing holes was not enough, the
vector was given up, after its cut form was looked at again. -/
theorem not_thin_settle (e : Elements α) : ¬ e.settle.Thin := by
  rintro ⟨s, hs, hlong, hfew⟩
  cases e with
  | empty => cases hs
  | dense old =>
    rw [settle] at hs
    split at hs
    · obtain ⟨⟨-, -, hleft⟩, kept, hkept, hsize, hcount⟩ | ⟨-, t, ht⟩ := relieve_cases old
      · obtain rfl := dense.inj (hkept.symm.trans hs)
        omega
      · cases ht.symm.trans hs
    · next hthin =>
      obtain rfl := dense.inj hs
      exact hthin (isThin_iff.mpr ⟨hlong, hfew⟩)
  | sparse t => cases hs

end Elements

namespace IndexedMap

/-! ## One call -/

/-- A call that may change a map. -/
inductive Call (α : Type u) where
  | command (c : Command α)
  /-- put another value in the place of one that is there -/
  | replace (k : Nat) (v : α)
  deriving DecidableEq, Repr

namespace Call

/-- The map after a call. A command with arguments out of bounds is refused and changes
nothing. -/
def next (m : IndexedMap α) : Call α → IndexedMap α
  | command c => match m.apply c with
    | .ok (_, m') => m'
    | .error _ => m
  | replace k v => m.replace k v

/-- The call is a `put` that is not refused. -/
def stores : Call α → Bool
  | command (.put k _) => isIndex k
  | _ => false

end Call

theorem sheds_eraseKeepingLength (m : IndexedMap α) (k : Nat) :
    m.elements.Sheds (m.eraseKeepingLength k).elements := by
  rw [eraseKeepingLength, removeKeepingLength]
  split
  · exact Elements.sheds_erase k m.elements
  · exact .refl _

theorem sheds_erase (m : IndexedMap α) (k : Nat) : m.elements.Sheds (m.erase k).elements := by
  rw [erase_eq]
  split
  · exact (m.sheds_eraseKeepingLength k).trans (Elements.sheds_settle _)
  · exact m.sheds_eraseKeepingLength k

theorem sheds_eraseRange (m : IndexedMap α) (lo hi : Nat) :
    m.elements.Sheds (m.eraseRange lo hi).elements :=
  Elements.sheds_foldl_erase _ _

theorem sheds_setLength (m : IndexedMap α) (n : Nat) :
    m.elements.Sheds (m.setLength n).elements := by
  rw [setLength]
  split
  · exact (m.sheds_eraseRange n m.length).trans (Elements.sheds_settle _)
  · exact .refl _

theorem sheds_replace (m : IndexedMap α) (k : Nat) (v : α) :
    m.elements.Sheds (m.replace k v).elements := by
  rw [replace]
  split
  · next h =>
    obtain ⟨w, hw⟩ := Option.isSome_iff_exists.mp h
    rw [get?_eq] at hw
    exact Elements.sheds_write hw v
  · exact .refl _

/-- **What a call can do to the store.** It stores at a key, it makes the store dense, or it
sheds. -/
theorem Call.next_cases (m : IndexedMap α) (c : Call α) :
    (c.stores ∧ ∃ k v, c.next m = m.insert k v) ∨
      (c = .command .makeDense ∧ c.next m = m.makeDense) ∨
      (c.stores = false ∧ m.elements.Sheds (c.next m).elements) := by
  cases c with
  | command c =>
    cases c with
    | put k v =>
      cases hk : isIndex k with
      | true => exact .inl ⟨hk, k, v, by simp [next, apply, tryPut, hk, insert]⟩
      | false =>
        refine .inr (.inr ⟨hk, ?_⟩)
        simpa [next, apply, tryPut, hk] using Elements.Sheds.refl m.elements
    | remove k => exact .inr (.inr ⟨rfl, m.sheds_erase k⟩)
    | removeKeepingLength k => exact .inr (.inr ⟨rfl, m.sheds_eraseKeepingLength k⟩)
    | removeRange lo hi =>
      refine .inr (.inr ⟨rfl, ?_⟩)
      by_cases hle : lo ≤ hi
      · simpa [next, apply, tryEraseRange, hle, Except.map] using m.sheds_eraseRange lo hi
      · simpa [next, apply, tryEraseRange, hle, Except.map] using Elements.Sheds.refl m.elements
    | setLength n =>
      refine .inr (.inr ⟨rfl, ?_⟩)
      by_cases hle : n ≤ maxLength
      · simpa [next, apply, trySetLength, hle, Except.map] using m.sheds_setLength n
      · simpa [next, apply, trySetLength, hle, Except.map] using Elements.Sheds.refl m.elements
    | makeDense => exact .inr (.inl ⟨rfl, rfl⟩)
  | replace k v => exact .inr (.inr ⟨rfl, m.sheds_replace k v⟩)

/-- After a `put` the store is sparse, or it is dense and was not sparse. -/
theorem representation_insert (m : IndexedMap α) (k : Nat) (v : α) :
    (m.insert k v).representation = .sparse ∨
      (m.insert k v).representation = .dense ∧ m.representation ≠ .sparse :=
  (Elements.representation_put m.length k v m.elements).imp id fun h => ⟨h.1, h.2.1⟩

theorem representation_makeDense (m : IndexedMap α) :
    m.makeDense.representation =
      if m.canMakeDense ∧ m.representation = .sparse then .dense else m.representation := by
  rw [makeDense]
  by_cases hcan : m.canMakeDense = true
  · rw [if_pos hcan]
    simp only [hcan, true_and]
    exact Elements.representation_toDense m.elements
  · rw [if_neg hcan, if_neg fun h => hcan h.1]

/-- A call makes a store exactly when it stores at a key. -/
theorem Call.next_representation_empty_iff (m : IndexedMap α) (c : Call α) :
    (c.next m).representation = .empty ↔ c.stores = false ∧ m.representation = .empty := by
  obtain ⟨hstores, k, v, hnext⟩ | ⟨rfl, hnext⟩ | ⟨hstores, hsheds⟩ := c.next_cases m
  · rw [hnext, hstores]
    refine iff_of_false ?_ (by simp)
    rcases m.representation_insert k v with hkind | ⟨hkind, -⟩ <;> simp [hkind]
  · rw [hnext, representation_makeDense]
    simp only [stores, true_and]
    split
    · next h => simp [h.2]
    · rfl
  · rw [hstores]
    simp only [true_and]
    change (c.next m).elements.representation = .empty ↔ m.elements.representation = .empty
    rcases hsheds.kind with hkind | ⟨hdense, hsparse⟩
    · rw [hkind]
    · simp [hdense, hsparse]

/-- A call leaves a sparse store sparse, unless it is a `makeDense` that is granted. -/
theorem Call.next_sparse {m : IndexedMap α} (h : m.representation = .sparse) {c : Call α}
    (hc : c = .command .makeDense → m.canMakeDense = false) :
    (c.next m).representation = .sparse := by
  obtain ⟨-, k, v, hnext⟩ | ⟨rfl, hnext⟩ | ⟨-, hsheds⟩ := c.next_cases m
  · rw [hnext]
    exact (m.representation_insert k v).resolve_right fun hdense => hdense.2 h
  · rw [hnext, representation_makeDense, hc rfl]
    simpa using h
  · rcases hsheds.kind with hkind | ⟨-, hsparse⟩
    · exact hkind.trans h
    · exact hsparse

theorem Call.next_bounded {m : IndexedMap α} (h : m.elements.Bounded) (c : Call α) :
    (c.next m).elements.Bounded := by
  obtain ⟨-, k, v, hnext⟩ | ⟨-, hnext⟩ | ⟨-, hsheds⟩ := c.next_cases m
  · rw [hnext]
    exact h.put m.length k v
  · rw [hnext, makeDense]
    split
    · next hcan =>
      intro _
      change m.elements.toDense.extent ≤ _
      rw [Elements.extent_congr (Elements.get?_toDense m.elements)]
      -- a store that was not dense before was granted for its keys
      rcases he : m.elements with _ | s | t
      · exact Nat.zero_le _
      · exact he ▸ h (by rw [he]; rfl)
      · have hsparse : m.isSparse = true := by
          simp [isSparse, representation, he, Elements.representation]
        simpa [canMakeDense, hsparse, fitsDense, he] using hcan
    · exact h
  · exact h.sheds hsheds

/-! ## Runs of calls -/

/-- The map after calls, one after the other. -/
def after (m : IndexedMap α) (calls : List (Call α)) : IndexedMap α :=
  calls.foldl (fun m c => c.next m) m

theorem bounded_withLength (n : Nat) : (withLength n : IndexedMap α).elements.Bounded := by
  intro hdense
  cases hdense

theorem bounded_after {m : IndexedMap α} (h : m.elements.Bounded) (calls : List (Call α)) :
    (m.after calls).elements.Bounded := by
  refine List.foldlRecOn (motive := fun m : IndexedMap α => m.elements.Bounded) calls _ h ?_
  intro m hm c _
  exact c.next_bounded hm

theorem representation_after_empty_iff (m : IndexedMap α) (calls : List (Call α)) :
    (m.after calls).representation = .empty ↔
      (∀ c ∈ calls, c.stores = false) ∧ m.representation = .empty := by
  induction calls generalizing m with
  | nil => simp [after]
  | cons c calls ih =>
    have hrest := ih (c.next m)
    rw [c.next_representation_empty_iff m] at hrest
    rw [after, List.foldl_cons, ← after, hrest]
    simp [and_left_comm, and_assoc]

/-! ## The state machine -/

/-- A dense store does not hold what is above the ceiling, and a map without a store holds
nothing. -/
theorem sparse_of_contains {m : IndexedMap α} (h : m.elements.Bounded) {k : Nat}
    (hk : Elements.maxDenseKey < k) (hcontains : m.contains k) : m.representation = .sparse := by
  rw [contains, get?_eq] at hcontains
  have hlt := Elements.lt_extent_of_isSome hcontains
  rcases he : m.elements with _ | s | t
  · rw [he] at hlt
    cases hlt
  · have hle := h (by rw [he]; rfl)
    omega
  · rw [representation, he]
    rfl

theorem fitsDense_iff (m : IndexedMap α) :
    m.fitsDense ↔ ∀ k, m.contains k → k ≤ Elements.maxDenseKey := by
  rw [fitsDense, decide_eq_true_iff, Elements.extent_le_iff]
  simp only [contains, get?_eq]
  constructor
  · intro hnone k hk
    by_contra hgt
    rw [hnone k (by omega)] at hk
    cases hk
  · intro hle k hk
    by_contra hsome
    have := hle k (Option.ne_none_iff_isSome.mp hsome)
    omega

/-- `makeDense` is granted for the keys, whatever the store. -/
theorem canMakeDense_iff {m : IndexedMap α} (h : m.elements.Bounded) :
    m.canMakeDense ↔ ∀ k, m.contains k → k ≤ Elements.maxDenseKey := by
  rw [canMakeDense, Bool.or_eq_true, fitsDense_iff, Bool.not_eq_true', or_iff_right_iff_imp]
  intro hkind k hk
  by_contra hgt
  have hsparse := sparse_of_contains h (Nat.lt_of_not_le hgt) hk
  simp [isSparse, hsparse] at hkind

/-- **The kinds of store.** Take the map that calls lead to from one without entries.

* It has no store exactly as long as nothing was stored.
* If it is sparse it stays so under every call but a `makeDense` that is granted.
* If it holds a key above the ceiling, it is sparse.
* `makeDense` is granted exactly if all keys are below the ceiling. It then makes a sparse store
  dense; otherwise it changes nothing.
* After a `remove` that took an entry out, and after a `setLength` that shortened the map, it
  has no vector of more than 32 slots with fewer than one in eight taken. -/
theorem representation_state_machine (n : Nat) (calls : List (Call α)) :
    let m := (withLength n).after calls
    (m.representation = .empty ↔ ∀ c ∈ calls, c.stores = false) ∧
    (m.representation = .sparse → ∀ c : Call α,
      (c = .command .makeDense → m.canMakeDense = false) →
        (c.next m).representation = .sparse) ∧
    (∀ k, Elements.maxDenseKey < k → m.contains k → m.representation = .sparse) ∧
    (m.canMakeDense ↔ ∀ k, m.contains k → k ≤ Elements.maxDenseKey) ∧
    (m.canMakeDense → m.representation = .sparse → m.makeDense.representation = .dense) ∧
    (m.canMakeDense = false → m.makeDense = m) ∧
    (∀ k v m', m.remove k = (some v, m') → ¬ m'.elements.Thin) ∧
    ∀ k, k < m.length → ¬ (m.setLength k).elements.Thin := by
  intro m
  have hbounded : m.elements.Bounded := bounded_after (bounded_withLength n) calls
  refine ⟨?_, fun hsparse c hc => c.next_sparse hsparse hc,
    fun k hk hcontains => sparse_of_contains hbounded hk hcontains, canMakeDense_iff hbounded,
    ?_, ?_, ?_, ?_⟩
  · rw [representation_after_empty_iff]
    exact and_iff_left rfl
  · intro hcan hsparse
    rw [representation_makeDense, if_pos ⟨hcan, hsparse⟩]
  · intro hcan
    rw [makeDense, hcan]
    rfl
  · intro k v m' hremove
    rw [remove] at hremove
    split at hremove
    · next rest _ =>
      obtain ⟨-, rfl⟩ := Prod.mk.inj hremove
      exact Elements.not_thin_settle _
    · cases hremove
  · intro k hk
    rw [setLength, dif_pos hk]
    exact Elements.not_thin_settle _

end IndexedMap

end Ecma
