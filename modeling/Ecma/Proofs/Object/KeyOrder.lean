import Mathlib.Data.List.Sort
import Mathlib.Data.Set.List
import Ecma.Proofs.Machine.Changes

/-!
# Own keys and their order

The keys of an object are listed from two stores. The indexed map gives the integers in
ascending order. The chronicle gives the names, sorted by the moments at which they were
created. Since no two names have one moment there is **one way to sort them**
(`Chronicle.sort_eq`), so the list of keys depends neither on the order of the entries nor on
how the indexed map holds its elements (`PropertyTable.keys_congr`), and what a change does
to it can be read off: a name that is set anew keeps its place, a new one comes last, and one
that is erased is taken out.

A method of an object changes a group of names by at most one of these
(`Object.Step.names`): also where an array writes its length more than once, no other name is
concerned.
-/

namespace Ecma

namespace Chronicle

universe u v

variable {κ : Type u} {α : Type v}

/-! ## Entries by moment -/

/-- Entries that were created one after the other. -/
def Ascending (l : List (Entry κ α)) : Prop := l.Pairwise fun a b => a.moment < b.moment

theorem place_eq_orderedInsert (e : Entry κ α) (l : List (Entry κ α)) :
    place e l = l.orderedInsert (fun a b => a.moment ≤ b.moment) e := by
  induction l with
  | nil => rfl
  | cons x rest ih => rw [place, List.orderedInsert_cons, ih]

theorem sort_eq_insertionSort (l : List (Entry κ α)) :
    sort l = l.insertionSort fun a b => a.moment ≤ b.moment := by
  induction l with
  | nil => rfl
  | cons e l ih =>
    rw [List.insertionSort_cons, ← ih, ← place_eq_orderedInsert]
    rfl

theorem perm_sort (l : List (Entry κ α)) : (sort l).Perm l := by
  rw [sort_eq_insertionSort]
  exact List.perm_insertionSort _ l

theorem ascending_sort {l : List (Entry κ α)} (hl : (l.map Entry.moment).Nodup) :
    Ascending (sort l) := by
  have : IsTrans (Entry κ α) fun a b => a.moment ≤ b.moment := ⟨fun _ _ _ => Nat.le_trans⟩
  have : Std.Total fun a b : Entry κ α => a.moment ≤ b.moment := ⟨fun a b => Nat.le_total _ _⟩
  have hle : (sort l).Pairwise fun a b => a.moment ≤ b.moment := by
    rw [sort_eq_insertionSort]
    exact List.pairwise_insertionSort _ l
  have hne : (sort l).Pairwise fun a b => a.moment ≠ b.moment :=
    List.pairwise_map.mp (((perm_sort l).map Entry.moment).nodup_iff.mpr hl)
  exact (hle.and hne).imp fun h => Nat.lt_of_le_of_ne h.1 h.2

/-- **One order.** Entries that are created one after the other are what sorting them gives,
in whatever order they come. -/
theorem sort_eq {l l' : List (Entry κ α)} (hperm : l'.Perm l) (hl' : Ascending l') :
    sort l = l' := by
  have hmoments : (l.map Entry.moment).Nodup := by
    rw [← (hperm.map Entry.moment).nodup_iff, List.Nodup, List.pairwise_map]
    exact hl'.imp Nat.ne_of_lt
  refine List.Perm.eq_of_pairwise ?_ (ascending_sort hmoments) hl' ((perm_sort l).trans hperm.symm)
  intro a b _ _ hab hba
  exact absurd hba (Nat.lt_asymm hab)

/-! ## Keys in order of creation -/

theorem moments_nodup_filter (c : Chronicle κ α) (q : Entry κ α → Bool) :
    ((c.entries.filter q).map Entry.moment).Nodup :=
  (List.filter_sublist.map Entry.moment).nodup c.moments_nodup

theorem mem_keysWhere {c : Chronicle κ α} {p : κ → Bool} {k : κ} :
    k ∈ c.keysWhere p ↔ p k ∧ k ∈ c.entries.map Entry.key := by
  simp only [keysWhere, List.mem_map, (perm_sort _).mem_iff, List.mem_filter]
  constructor
  · rintro ⟨e, ⟨he, hp⟩, rfl⟩
    exact ⟨hp, e, he, rfl⟩
  · rintro ⟨hp, e, he, rfl⟩
    exact ⟨e, ⟨he, hp⟩, rfl⟩

theorem nodup_keysWhere (c : Chronicle κ α) (p : κ → Bool) : (c.keysWhere p).Nodup := by
  rw [keysWhere, ((perm_sort _).map Entry.key).nodup_iff]
  exact (List.filter_sublist.map Entry.key).nodup c.keys_nodup

/-- The order of the entries does not matter. -/
theorem keysWhere_congr {c c' : Chronicle κ α} (h : c.entries.Perm c'.entries) (p : κ → Bool) :
    c.keysWhere p = c'.keysWhere p := by
  have hsort := sort_eq ((perm_sort _).trans (h.symm.filter fun e => p e.key))
    (ascending_sort (c'.moments_nodup_filter _))
  rw [keysWhere, hsort, keysWhere]

variable [DecidableEq κ]

/-- A key that is there keeps its place. -/
theorem keysWhere_insert_of_mem {c : Chronicle κ α} {k : κ} (hk : k ∈ c.entries.map Entry.key)
    (v : α) (p : κ → Bool) : (c.insert k v).keysWhere p = c.keysWhere p := by
  have hsame : ((fun e : Entry κ α => p e.key) ∘ Entry.update k v) = fun e => p e.key :=
    funext fun e => congrArg p (Entry.key_update k v e)
  have hsort : sort ((c.entries.map (Entry.update k v)).filter fun e => p e.key) =
      (sort (c.entries.filter fun e => p e.key)).map (Entry.update k v) := by
    rw [List.filter_map, hsame]
    refine sort_eq ((perm_sort _).map _) (List.pairwise_map.mpr ?_)
    simp only [Entry.moment_update]
    exact ascending_sort (c.moments_nodup_filter _)
  rw [insert, dif_pos hk, keysWhere, hsort, map_key_update, keysWhere]

/-- A new key comes last among those of its group, and concerns no other group. -/
theorem keysWhere_insert_of_not_mem {c : Chronicle κ α} {k : κ}
    (hk : k ∉ c.entries.map Entry.key) (v : α) (p : κ → Bool) :
    (c.insert k v).keysWhere p = if p k then c.keysWhere p ++ [k] else c.keysWhere p := by
  rw [insert, dif_neg hk, keysWhere, List.filter_cons]
  split
  · have hsort : sort (⟨k, c.clock, v⟩ :: c.entries.filter fun e => p e.key) =
        sort (c.entries.filter fun e => p e.key) ++ [⟨k, c.clock, v⟩] := by
      refine sort_eq ((List.perm_append_singleton _ _).trans ((perm_sort _).cons _)) ?_
      refine List.pairwise_append.mpr
        ⟨ascending_sort (c.moments_nodup_filter _), List.pairwise_singleton _ _, ?_⟩
      intro a ha b hb
      obtain rfl := List.mem_singleton.mp hb
      -- the clock is ahead of every moment
      have hmem := (List.mem_filter.mp ((perm_sort _).mem_iff.mp ha)).1
      exact c.lt_clock _ (List.mem_map_of_mem hmem)
    rw [hsort, List.map_append, keysWhere]
    rfl
  · rfl

theorem keysWhere_insert (c : Chronicle κ α) (k : κ) (v : α) (p : κ → Bool) :
    (c.insert k v).keysWhere p =
      if p k ∧ c.get? k = none then c.keysWhere p ++ [k] else c.keysWhere p := by
  have hthere : c.get? k = none ↔ k ∉ c.entries.map Entry.key := by
    rw [← isSome_get?_iff, Option.not_isSome_iff_eq_none]
  by_cases hk : k ∈ c.entries.map Entry.key
  · rw [keysWhere_insert_of_mem hk, if_neg fun h => hthere.mp h.2 hk]
  · rw [keysWhere_insert_of_not_mem hk]
    exact if_congr (iff_self_and.mpr fun _ => hthere.mpr hk) rfl rfl

/-- A key that is erased is taken out of its place. -/
theorem keysWhere_erase (c : Chronicle κ α) (k : κ) (p : κ → Bool) :
    (c.erase k).keysWhere p = (c.keysWhere p).filter fun j => j ≠ k := by
  have hsort : sort ((c.entries.filter fun e => e.key ≠ k).filter fun e => p e.key) =
      (sort (c.entries.filter fun e => p e.key)).filter fun e => e.key ≠ k := by
    rw [List.filter_comm]
    exact sort_eq ((perm_sort _).filter _) ((ascending_sort (c.moments_nodup_filter _)).filter _)
  rw [keysWhere, erase, hsort, keysWhere, List.filter_map]
  rfl

/-- A key that is set leaves the other names of a group where they are. -/
theorem keysWhere_insert_filter (c : Chronicle κ α) (k : κ) (v : α) (p : κ → Bool) :
    ((c.insert k v).keysWhere p).filter (· ≠ k) = (c.keysWhere p).filter (· ≠ k) := by
  by_cases hk : k ∈ c.entries.map Entry.key
  · rw [keysWhere_insert_of_mem hk]
  · rw [keysWhere_insert_of_not_mem hk]
    split
    · simp
    · rfl

end Chronicle

/-! ## All keys of a table -/

theorem IndexedMap.mem_keys {α : Type} {m : IndexedMap α} {n : Nat} :
    n ∈ m.keys ↔ (m.get? n).isSome := by
  refine mem_keysIn.trans ⟨fun h => h.1, fun h => ⟨h, Nat.zero_le n, ?_⟩⟩
  obtain ⟨v, hv⟩ := Option.isSome_iff_exists.mp h
  rw [Nat.min_self]
  exact lt_length_of_get? hv

theorem IndexedMap.pairwise_keys {α : Type} (m : IndexedMap α) : m.keys.Pairwise (· < ·) :=
  m.pairwise_keysIn 0 m.length

namespace PropertyTable

/-- The names of a group are the keys of it that have a property and are not integers. -/
theorem mem_keysWhere {t : PropertyTable} {p : PropertyKey → Bool} {k : PropertyKey} :
    k ∈ t.named.keysWhere p ↔ p k ∧ k.index? = none ∧ (t.get? k).isSome := by
  rw [Chronicle.mem_keysWhere, ← Chronicle.isSome_get?_iff]
  cases k with
  | index n => simp [t.named_index n, PropertyKey.index?]
  | string s => simp [get?, PropertyKey.index?]
  | symbol s => simp [get?, PropertyKey.index?]

/-- Every key that has a property is listed, and no other. -/
theorem mem_keys {t : PropertyTable} {k : PropertyKey} : k ∈ t.keys ↔ (t.get? k).isSome := by
  rw [keys, List.mem_append, List.mem_append, mem_keysWhere, mem_keysWhere]
  cases k with
  | index n => simp [get?, IndexedMap.mem_keys, PropertyKey.index?]
  | string s => simp [PropertyKey.index?, PropertyKey.isSymbol]
  | symbol s => simp [PropertyKey.index?, PropertyKey.isSymbol]

/-- The names of a group in which all keys are made in one way. -/
theorem exists_map_eq_keysWhere {β : Type} {t : PropertyTable} {p : PropertyKey → Bool}
    {make : β → PropertyKey} (h : ∀ k, p k → k.index? = none → ∃ b, make b = k) :
    ∃ names : List β, names.map make = t.named.keysWhere p := by
  rw [← Set.mem_range, Set.range_list_map]
  intro k hk
  obtain ⟨hp, hindex, -⟩ := mem_keysWhere.mp hk
  exact h k hp hindex

/-- **Groups.** The keys are integers in ascending order, then strings, then symbols. -/
theorem keys_eq (t : PropertyTable) :
    ∃ (indices : List Nat) (strings : List String) (symbols : List Symbol),
      t.keys = indices.map .index ++ strings.map .string ++ symbols.map .symbol ∧
        indices.Pairwise (· < ·) ∧
        strings.map .string = t.named.keysWhere (fun k => !k.isSymbol) ∧
        symbols.map .symbol = t.named.keysWhere PropertyKey.isSymbol := by
  obtain ⟨strings, hstrings⟩ : ∃ strings : List String,
      strings.map .string = t.named.keysWhere fun k => !k.isSymbol := by
    refine exists_map_eq_keysWhere fun k hp hk => ?_
    cases k with
    | index n => cases hk
    | string s => exact ⟨s, rfl⟩
    | symbol s => cases hp
  obtain ⟨symbols, hsymbols⟩ : ∃ symbols : List Symbol,
      symbols.map .symbol = t.named.keysWhere PropertyKey.isSymbol := by
    refine exists_map_eq_keysWhere fun k hp _ => ?_
    cases k with
    | index n => cases hp
    | string s => cases hp
    | symbol s => exact ⟨s, rfl⟩
  refine ⟨t.indexed.keys, strings, symbols, ?_, t.indexed.pairwise_keys, hstrings, hsymbols⟩
  rw [keys, hstrings, hsymbols]

theorem nodup_keys (t : PropertyTable) : t.keys.Nodup := by
  have hindices : (t.indexed.keys.map PropertyKey.index).Nodup :=
    (t.indexed.pairwise_keys.imp Nat.ne_of_lt).map _ fun _ _ hne he =>
      hne (PropertyKey.index.inj he)
  have hstrings : (t.indexed.keys.map PropertyKey.index).Disjoint
      (t.named.keysWhere fun k => !k.isSymbol) := by
    intro k hk hname
    obtain ⟨n, -, rfl⟩ := List.mem_map.mp hk
    cases (mem_keysWhere.mp hname).2.1
  have hsymbols : (t.indexed.keys.map PropertyKey.index ++
        t.named.keysWhere fun k => !k.isSymbol).Disjoint
      (t.named.keysWhere PropertyKey.isSymbol) := by
    intro k hk hsymbol
    obtain ⟨hp, hindex, -⟩ := mem_keysWhere.mp hsymbol
    rcases List.mem_append.mp hk with hk | hk
    · obtain ⟨n, -, rfl⟩ := List.mem_map.mp hk
      cases hindex
    · simpa [hp] using (mem_keysWhere.mp hk).1
  have hfirst := List.nodup_append'.mpr ⟨hindices, t.named.nodup_keysWhere _, hstrings⟩
  exact List.nodup_append'.mpr ⟨hfirst, t.named.nodup_keysWhere _, hsymbols⟩

/-- **Representation.** The keys depend neither on the order of the entries nor on how the
indexed map holds its elements. -/
theorem keys_congr {t t' : PropertyTable}
    (hindexed : ∀ n, (t.indexed.get? n).isSome = (t'.indexed.get? n).isSome)
    (hnamed : t.named.entries.Perm t'.named.entries) : t.keys = t'.keys := by
  have hkeys : t.indexed.keys = t'.indexed.keys := by
    refine t.indexed.pairwise_keys.eq_of_mem_iff t'.indexed.pairwise_keys fun n => ?_
    rw [IndexedMap.mem_keys, IndexedMap.mem_keys, hindexed n]
  rw [keys, hkeys, Chronicle.keysWhere_congr hnamed, Chronicle.keysWhere_congr hnamed, keys]

/-- Setting a property anew changes no key. -/
theorem keys_insert {t : PropertyTable} {k : PropertyKey} (h : (t.get? k).isSome) (q : Property) :
    (t.insert k q).keys = t.keys := by
  have hindexed : (t.insert k q).indexed.keys = t.indexed.keys := by
    refine (IndexedMap.pairwise_keys _).eq_of_mem_iff t.indexed.pairwise_keys fun n => ?_
    have hn : ((t.insert k q).get? (.index n)).isSome = (t.get? (.index n)).isSome := by
      rw [get?_insert]
      split
      · next heq => rw [heq, h, Option.isSome_some]
      · rfl
    rw [IndexedMap.mem_keys, IndexedMap.mem_keys]
    exact Eq.to_iff (congrArg (· = true) hn)
  have hnamed : ∀ p, (t.insert k q).named.keysWhere p = t.named.keysWhere p := by
    intro p
    cases k with
    | index n => rfl
    | string s => exact Chronicle.keysWhere_insert_of_mem (Chronicle.isSome_get?_iff.mp h) q p
    | symbol s => exact Chronicle.keysWhere_insert_of_mem (Chronicle.isSome_get?_iff.mp h) q p
  rw [keys, hindexed, hnamed, hnamed, keys]

/-- Setting a property leaves the other keys in their order. -/
theorem keys_insert_filter (t : PropertyTable) (k : PropertyKey) (q : Property) :
    (t.insert k q).keys.filter (· ≠ k) = t.keys.filter (· ≠ k) := by
  have hindexed : ((t.insert k q).indexed.keys.map PropertyKey.index).filter (· ≠ k) =
      (t.indexed.keys.map PropertyKey.index).filter (· ≠ k) := by
    cases k with
    | index n =>
      rw [List.filter_map, List.filter_map]
      refine congrArg (List.map PropertyKey.index) ?_
      refine ((IndexedMap.pairwise_keys _).filter _).eq_of_mem_iff
        (t.indexed.pairwise_keys.filter _) fun i => ?_
      simp only [List.mem_filter, IndexedMap.mem_keys, insert, IndexedMap.get?_insert]
      by_cases hi : i = n <;> simp [hi]
    | string s => rfl
    | symbol s => rfl
  have hnamed : ∀ p, ((t.insert k q).named.keysWhere p).filter (· ≠ k) =
      (t.named.keysWhere p).filter (· ≠ k) := by
    intro p
    cases k with
    | index n => rfl
    | string s => exact t.named.keysWhere_insert_filter _ q p
    | symbol s => exact t.named.keysWhere_insert_filter _ q p
  simp only [keys, List.filter_append, hindexed, hnamed]

end PropertyTable

/-! ## What the methods of an object do to its names -/

namespace Object

/-- The names that satisfy `p`, in order of creation. -/
def names (s : Object) (p : PropertyKey → Bool) : List PropertyKey := s.properties.named.keysWhere p

/-- Of all names at most `k` is new, and then it comes last. -/
def Gains (s : Object) (k : PropertyKey) (s' : Object) : Prop :=
  ∀ p, s'.names p = s.names p ∨ k ∉ s.names p ∧ s'.names p = s.names p ++ [k]

variable {s s' : Object} {k : PropertyKey}

theorem Gains.of_eq (h : ∀ p, s'.names p = s.names p) : s.Gains k s' := fun p => .inl (h p)

theorem Gains.trans {s'' : Object} (h : s.Gains k s') (h' : s'.Gains k s'') : s.Gains k s'' := by
  intro p
  rcases h p with hp | ⟨hk, hp⟩ <;> rcases h' p with hp' | ⟨hk', hp'⟩
  · exact .inl (hp'.trans hp)
  · rw [hp] at hk' hp'
    exact .inr ⟨hk', hp'⟩
  · exact .inr ⟨hk, hp'.trans hp⟩
  · -- it is not new a second time
    rw [hp] at hk'
    exact absurd (List.mem_append_right _ List.mem_cons_self) hk'

theorem names_put_index (s : Object) (i : Nat) (q : Property) (p : PropertyKey → Bool) :
    (s.put (.index i) q).names p = s.names p := rfl

/-- A name that is new comes last in its group, and one that is there keeps its place. -/
theorem names_put (s : Object) (k : PropertyKey) (q : Property) (p : PropertyKey → Bool) :
    (s.put k q).names p =
      if p k ∧ k.index? = none ∧ s.own? k = none then s.names p ++ [k] else s.names p := by
  cases k with
  | index i => rw [if_neg (fun h => nomatch h.2.1), names_put_index]
  | string n =>
    refine (s.properties.named.keysWhere_insert (.string n) q p).trans (if_congr ?_ rfl rfl)
    exact and_congr_right' (and_iff_right rfl).symm
  | symbol n =>
    refine (s.properties.named.keysWhere_insert (.symbol n) q p).trans (if_congr ?_ rfl rfl)
    exact and_congr_right' (and_iff_right rfl).symm

theorem gains_put (s : Object) (k : PropertyKey) (q : Property) : s.Gains k (s.put k q) := by
  intro p
  rw [names_put]
  split
  · next hnew =>
    refine .inr ⟨fun hk => ?_, rfl⟩
    have hthere : (s.own? k).isSome := (PropertyTable.mem_keysWhere.mp hk).2.2
    rw [hnew.2.2] at hthere
    cases hthere
  · exact .inl rfl

theorem gains_define (s : Object) (k : PropertyKey) (d : Descriptor) :
    s.Gains k (s.define k d).2 := by
  obtain hsame | ⟨q, -, hput⟩ := s.define_cases k d
  · rw [hsame]
    exact .of_eq fun _ => rfl
  · rw [hput]
    exact s.gains_put k q

theorem Gains.of_define {d : Descriptor} {granted : Bool} (h : s.define k d = (granted, s')) :
    s.Gains k s' := by
  have hdefine := s.gains_define k d
  rwa [h] at hdefine

/-- Defining an element concerns no name. -/
theorem names_define_index (s : Object) (i : Nat) (d : Descriptor) (p : PropertyKey → Bool) :
    (s.define (.index i) d).2.names p = s.names p := by
  obtain hsame | ⟨q, -, hput⟩ := s.define_cases (.index i) d
  · rw [hsame]
  · rw [hput, names_put_index]

/-- Deleting takes out one name at most. -/
theorem names_delete (s : Object) (k : PropertyKey) (p : PropertyKey → Bool) :
    ((s.delete k).2.names p).Sublist (s.names p) := by
  rw [delete]
  split
  · exact .refl _
  split
  · have herase : ((s.properties.named.erase k).keysWhere p).Sublist (s.names p) := by
      rw [Chronicle.keysWhere_erase]
      exact List.filter_sublist
    cases k with
    | index i => exact .refl _
    | string n => exact herase
    | symbol n => exact herase
  · exact .refl _

theorem names_delete_index (s : Object) (i : Nat) (p : PropertyKey → Bool) :
    (s.delete (.index i)).2.names p = s.names p := by
  rw [delete]
  split
  · rfl
  · split <;> rfl

theorem names_of_deleteElements {l : List Nat} {stop : Option Nat}
    (h : s.deleteElements l = (stop, s')) (p : PropertyKey → Bool) : s'.names p = s.names p := by
  induction l generalizing s with
  | nil =>
    obtain ⟨-, rfl⟩ := Prod.mk.inj h
    rfl
  | cons i l ih =>
    have hdelete := s.names_delete_index i p
    rw [deleteElements] at h
    rcases hnext : s.delete (.index i) with ⟨_ | _, next⟩ <;> rw [hnext] at h hdelete
    · obtain ⟨-, rfl⟩ := Prod.mk.inj h
      exact hdelete
    · exact (ih h).trans hdelete

theorem gains_shrink (s : Object) (n : Nat) (d : Descriptor) :
    s.Gains lengthKey (s.shrink n d).2 := by
  simp only [shrink]
  split
  · next hdefine => exact .of_define hdefine
  · next lowered hdefine =>
    split
    · next i left hdelete =>
      have hleft : s.Gains lengthKey left :=
        (Gains.of_define hdefine).trans (.of_eq (names_of_deleteElements hdelete))
      exact hleft.trans (left.gains_define _ _)
    · next left hdelete =>
      have hleft : s.Gains lengthKey left :=
        (Gains.of_define hdefine).trans (.of_eq (names_of_deleteElements hdelete))
      dsimp only
      split
      · exact hleft.trans (left.gains_define _ _)
      · exact hleft

theorem gains_setLength (s : Object) (n : Nat) (d : Descriptor) :
    s.Gains lengthKey (s.setLength n d).2 := by
  simp only [setLength]
  split
  · exact s.gains_define _ _
  · split
    · exact s.gains_shrink n d
    · exact .of_eq fun _ => rfl

theorem gains_defineElement (s : Object) (i : Nat) (d : Descriptor) :
    s.Gains lengthKey (s.defineElement i d).2 := by
  have hdefine := s.names_define_index i d
  simp only [defineElement]
  split
  · exact .of_eq fun _ => rfl
  rcases hnext : s.define (.index i) d with ⟨_ | _, next⟩ <;> rw [hnext] at hdefine
  · exact .of_eq hdefine
  · dsimp only
    split
    · exact (Gains.of_eq hdefine).trans (next.gains_put _ _)
    · exact .of_eq hdefine

/-- What one change makes of a group of names: some are taken out, or a new one comes last. -/
inductive NamesStep (l l' : List PropertyKey) : Prop
  | fewer (h : l'.Sublist l)
  | more {k : PropertyKey} (hk : k ∉ l) (h : l' = l ++ [k])

theorem Gains.namesStep (h : s.Gains k s') (p : PropertyKey → Bool) :
    NamesStep (s.names p) (s'.names p) := by
  rcases h p with hsame | ⟨hk, hnew⟩
  · rw [hsame]
    exact .fewer (.refl _)
  · exact .more hk hnew

/-- **Steps.** A method of an object changes a group of names in one way at most. -/
theorem Step.names (h : s.Step s') (p : PropertyKey → Bool) :
    NamesStep (s.names p) (s'.names p) := by
  cases h with
  | define _ k d => exact (s.gains_define k d).namesStep p
  | @defineInArray _ k _ d =>
    simp only [Object.defineInArray]
    split
    · exact (s.gains_defineElement _ d).namesStep p
    · exact (s.gains_define k d).namesStep p
  | defineLength _ _ => exact (s.gains_define _ _).namesStep p
  | setLength _ _ d => exact (s.gains_setLength _ d).namesStep p
  | delete k => exact .fewer (s.names_delete k p)
  | preventExtensions => exact .fewer (.refl _)

end Object

end Ecma
