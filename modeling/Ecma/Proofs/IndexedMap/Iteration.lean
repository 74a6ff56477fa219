import Mathlib.Data.List.Sort
import Ecma.IndexedMap.Cursor

/-!
# Iteration lists the entries in order

What is left under a cursor is a list with ascending keys (`Cursor.toList`).
`next` takes its first entry and `nextBack` its last, so reading to the end in one
direction gives the list or its reverse, over a vector of slots as over a tree.
For the cursor of a map on a range that list is `IndexedMap.entriesIn`: a strictly
ascending list is determined by its members, and both have the same ones.
-/

namespace Ecma

universe u

variable {α : Type u}

/-! ## A stretch of slots -/

/-- The taken ones among the `n` slots that start at `front`, ascending. -/
def Slots.stretch (s : Slots α) (front n : Nat) : List (Nat × α) :=
  (List.range' front n).filterMap fun k => (s.get? k).map fun v => (k, v)

namespace Slots

theorem mem_stretch {s : Slots α} {front n k : Nat} {v : α} :
    (k, v) ∈ s.stretch front n ↔ s.get? k = some v ∧ front ≤ k ∧ k < front + n := by
  simp only [stretch, List.mem_filterMap, List.mem_range'_1, Option.map_eq_some_iff,
    Prod.mk.injEq]
  constructor
  · rintro ⟨j, hj, w, hw, rfl, rfl⟩
    exact ⟨hw, hj⟩
  · rintro ⟨hv, hk⟩
    exact ⟨k, hk, v, hv, rfl, rfl⟩

theorem pairwise_stretch (s : Slots α) (front n : Nat) :
    (s.stretch front n).Pairwise fun a b => a.1 < b.1 := by
  have hlt : (List.range' front n).Pairwise (· < ·) := List.pairwise_lt_range'
  rw [stretch, List.pairwise_filterMap]
  refine hlt.imp fun {j k} hjk a ha b hb => ?_
  obtain ⟨-, -, rfl⟩ := Option.map_eq_some_iff.mp ha
  obtain ⟨-, -, rfl⟩ := Option.map_eq_some_iff.mp hb
  exact hjk

theorem stretch_succ_some {s : Slots α} {front : Nat} {v : α} (h : s.get? front = some v)
    (n : Nat) : s.stretch front (n + 1) = (front, v) :: s.stretch (front + 1) n := by
  simp [stretch, List.range'_succ, h]

theorem stretch_succ_none {s : Slots α} {front : Nat} (h : s.get? front = none) (n : Nat) :
    s.stretch front (n + 1) = s.stretch (front + 1) n := by
  simp [stretch, List.range'_succ, h]

theorem stretch_concat_some {s : Slots α} {front n : Nat} {v : α}
    (h : s.get? (front + n) = some v) :
    s.stretch front (n + 1) = s.stretch front n ++ [(front + n, v)] := by
  simp [stretch, List.range'_1_concat, h]

theorem stretch_concat_none {s : Slots α} {front n : Nat} (h : s.get? (front + n) = none) :
    s.stretch front (n + 1) = s.stretch front n := by
  simp [stretch, List.range'_1_concat, h]

end Slots

/-! ## What is left under a cursor -/

namespace Cursor

/-- All entries that are left, keys ascending. -/
def toList : Cursor α → List (Nat × α)
  | slots s front back => s.stretch front (back - front)
  | listed rest => rest

/-- Looking from the front finds the first entry of a stretch, and goes on with the
others. -/
theorem stretch_seek (s : Slots α) : ∀ n front : Nat,
    s.stretch front n =
      match seek s n front with
      | (some e, rest) => e :: s.stretch rest (front + n - rest)
      | (none, _) => []
  | 0, front => rfl
  | n + 1, front => by
      have ih := stretch_seek s n (front + 1)
      rw [seek]
      rcases hfront : s.get? front with _ | v
      · rw [Slots.stretch_succ_none hfront, ih]
        rw [Nat.add_right_comm front 1 n, Nat.add_assoc front n 1]
      · rw [Slots.stretch_succ_some hfront]
        dsimp only
        rw [show front + (n + 1) - (front + 1) = n by omega]

/-- Looking from the back finds the last entry of a stretch, and leaves the
others. -/
theorem stretch_seekBack (s : Slots α) (front : Nat) : ∀ n : Nat,
    s.stretch front n =
      match seekBack s front n with
      | (some e, rest) => s.stretch front (rest - front) ++ [e]
      | (none, _) => []
  | 0 => rfl
  | n + 1 => by
      have ih := stretch_seekBack s front n
      rw [seekBack]
      rcases hback : s.get? (front + n) with _ | v
      · rw [Slots.stretch_concat_none hback, ih]
      · rw [Slots.stretch_concat_some hback]
        dsimp only
        rw [Nat.add_sub_cancel_left]

theorem toList_of_next_some {c rest : Cursor α} {e : Nat × α} (h : c.next = (some e, rest)) :
    c.toList = e :: rest.toList := by
  cases c with
  | slots s front back =>
    obtain ⟨hfound, rfl⟩ := Prod.mk.inj h
    have hseek := stretch_seek s (back - front) front
    have hlt := lt_seek s (back - front) front hfound
    rcases hs : seek s (back - front) front with ⟨found, r⟩
    rw [hs] at hseek hfound hlt
    obtain rfl : found = some e := hfound
    simp only [toList]
    rw [hseek]
    dsimp only at hlt ⊢
    rw [show front + (back - front) - r = back - r by omega]
  | listed l =>
    cases l with
    | nil => cases h
    | cons f l =>
      obtain ⟨hf, rfl⟩ := Prod.mk.inj h
      rw [Option.some.inj hf]
      rfl

theorem toList_of_next_none {c rest : Cursor α} (h : c.next = (none, rest)) : c.toList = [] := by
  cases c with
  | slots s front back =>
    obtain ⟨hfound, -⟩ := Prod.mk.inj h
    have hseek := stretch_seek s (back - front) front
    rcases hs : seek s (back - front) front with ⟨found, r⟩
    rw [hs] at hseek hfound
    obtain rfl : found = none := hfound
    exact hseek
  | listed l =>
    cases l with
    | nil => rfl
    | cons f l => cases h

theorem toList_of_nextBack_some {c rest : Cursor α} {e : Nat × α}
    (h : c.nextBack = (some e, rest)) : c.toList = rest.toList ++ [e] := by
  cases c with
  | slots s front back =>
    obtain ⟨hfound, rfl⟩ := Prod.mk.inj h
    have hseek := stretch_seekBack s front (back - front)
    rcases hs : seekBack s front (back - front) with ⟨found, r⟩
    rw [hs] at hseek hfound
    obtain rfl : found = some e := hfound
    exact hseek
  | listed l =>
    obtain ⟨hlast, rfl⟩ := Prod.mk.inj h
    exact (List.dropLast_append_getLast? e hlast).symm

theorem toList_of_nextBack_none {c rest : Cursor α} (h : c.nextBack = (none, rest)) :
    c.toList = [] := by
  cases c with
  | slots s front back =>
    obtain ⟨hfound, -⟩ := Prod.mk.inj h
    have hseek := stretch_seekBack s front (back - front)
    rcases hs : seekBack s front (back - front) with ⟨found, r⟩
    rw [hs] at hseek hfound
    obtain rfl : found = none := hfound
    exact hseek
  | listed l =>
    obtain ⟨hlast, -⟩ := Prod.mk.inj h
    exact List.getLast?_eq_none_iff.mp hlast

theorem ascending_eq_toList (c : Cursor α) : c.ascending = c.toList := by
  induction c using ascending.induct with
  | case1 c e rest h _ ih =>
    rw [ascending, toList_of_next_some h]
    split
    · next e' rest' h' =>
      obtain ⟨he, rfl⟩ := Prod.mk.inj (h.symm.trans h')
      rw [Option.some.inj he, ih]
    · next h' => cases h.symm.trans h'
  | case2 c rest h =>
    rw [ascending, toList_of_next_none h]
    split
    · next h' => cases h.symm.trans h'
    · rfl

theorem descending_eq_reverse_toList (c : Cursor α) : c.descending = c.toList.reverse := by
  induction c using descending.induct with
  | case1 c e rest h _ ih =>
    rw [descending, toList_of_nextBack_some h]
    split
    · next e' rest' h' =>
      obtain ⟨he, rfl⟩ := Prod.mk.inj (h.symm.trans h')
      rw [Option.some.inj he, ih, List.reverse_append]
      rfl
    · next h' => cases h.symm.trans h'
  | case2 c rest h =>
    rw [descending, toList_of_nextBack_none h]
    split
    · next h' => cases h.symm.trans h'
    · rfl

end Cursor

/-! ## The cursor of a map -/

namespace IndexedMap

/-- Lists with strictly ascending keys and the same members are the same. -/
theorem eq_of_ascending {l l' : List (Nat × α)} (h : l.Pairwise fun a b => a.1 < b.1)
    (h' : l'.Pairwise fun a b => a.1 < b.1) (hmem : ∀ k v, (k, v) ∈ l ↔ (k, v) ∈ l') : l = l' :=
  have : Std.Irrefl fun a b : Nat × α => a.1 < b.1 := ⟨fun a => Nat.lt_irrefl a.1⟩
  have : Std.Antisymm fun a b : Nat × α => a.1 < b.1 :=
    ⟨fun _ _ hab hba => absurd hba (Nat.lt_asymm hab)⟩
  h.eq_of_mem_iff h' fun e => hmem e.1 e.2

/-- The entries under a fresh cursor are those of its range. -/
theorem toList_cursor (m : IndexedMap α) (lo hi : Nat) :
    (m.cursor lo hi).toList = m.entriesIn lo hi := by
  simp only [cursor]
  by_cases hstop : min hi m.length ≤ lo
  · -- an empty range: no key is at or above `lo` and below its end
    rw [if_pos hstop, eq_comm, Cursor.toList, List.eq_nil_iff_forall_not_mem]
    rintro ⟨k, v⟩ hkv
    obtain ⟨-, hlo, hhi⟩ := mem_entriesIn.mp hkv
    omega
  · rw [if_neg hstop]
    rcases he : m.elements with _ | s | t
    · simp [Cursor.toList, entriesIn, he, Elements.entries]
    · dsimp only
      refine eq_of_ascending (s.pairwise_stretch _ _) (m.pairwise_entriesIn lo hi) fun k v => ?_
      rw [Cursor.toList, Slots.mem_stretch, mem_entriesIn, get?_eq, he]
      refine and_congr_right fun hv => ?_
      have hsize := Slots.lt_size_of_get? hv
      omega
    · simp [Cursor.toList, entriesIn, he, Elements.entries]

/-- **Reading forwards.** The entries of a range, keys ascending. -/
theorem ascending_cursor (m : IndexedMap α) (lo hi : Nat) :
    (m.cursor lo hi).ascending = m.entriesIn lo hi := by
  rw [Cursor.ascending_eq_toList, toList_cursor]

/-- **Reading backwards.** The same entries, keys descending. -/
theorem descending_cursor (m : IndexedMap α) (lo hi : Nat) :
    (m.cursor lo hi).descending = (m.entriesIn lo hi).reverse := by
  rw [Cursor.descending_eq_reverse_toList, toList_cursor]

end IndexedMap

end Ecma
