import Ecma.IndexedMap.Basic

/-!
# Cursors: reading a stretch of an indexed map from both ends

A cursor stands on the entries of a map with keys between two bounds. `next`
takes the entry with the least key that is left, `nextBack` the one with the
greatest; the two may be mixed in any order and meet in the middle. Over a dense
store a cursor is a pair of positions that skip holes, over a sparse one it is
the list of entries that are left.
-/

namespace Ecma

universe u

/-- What is left to read of a stretch of an indexed map. -/
inductive Cursor (α : Type u) where
  /-- the taken slots from `front` up to, not including, `back` -/
  | slots (slots : Slots α) (front back : Nat)
  /-- the entries of a list with ascending keys -/
  | listed (rest : List (Nat × α))

namespace Cursor

variable {α : Type u}

/-- The first taken slot among the `n` that start at `front`, and where to go
on. -/
def seek (s : Slots α) : Nat → Nat → Option (Nat × α) × Nat
  | 0, front => (none, front)
  | n + 1, front =>
    match s.get? front with
    | some v => (some (front, v), front + 1)
    | none => seek s n (front + 1)

/-- The last taken slot among the `n` that end before `front + n`, and where to
stop from then on. -/
def seekBack (s : Slots α) (front : Nat) : Nat → Option (Nat × α) × Nat
  | 0 => (none, front)
  | n + 1 =>
    match s.get? (front + n) with
    | some v => (some (front + n, v), front + n)
    | none => seekBack s front n

/-- Take the entry with the least key. -/
def next : Cursor α → Option (Nat × α) × Cursor α
  | slots s front back =>
    let (found, rest) := seek s (back - front) front
    (found, slots s rest back)
  | listed [] => (none, listed [])
  | listed (e :: rest) => (some e, listed rest)

/-- Take the entry with the greatest key. -/
def nextBack : Cursor α → Option (Nat × α) × Cursor α
  | slots s front back =>
    let (found, rest) := seekBack s front (back - front)
    (found, slots s front rest)
  | listed rest => (rest.getLast?, listed rest.dropLast)

/-! ## Reading to the end

Each entry that is taken leaves fewer places to look at, so reading ends. -/

/-- Number of places that are left to look at. -/
def span : Cursor α → Nat
  | slots _ front back => back - front
  | listed rest => rest.length

theorem lt_seek (s : Slots α) : ∀ (n front : Nat) {e : Nat × α},
    (seek s n front).1 = some e → front < (seek s n front).2 ∧ (seek s n front).2 ≤ front + n
  | 0, front, e, h => by cases h
  | n + 1, front, e, h => by
      simp only [seek] at h ⊢
      split at h
      · dsimp only
        omega
      · have ih := lt_seek s n (front + 1) h
        omega

theorem seekBack_lt (s : Slots α) (front : Nat) : ∀ (n : Nat) {e : Nat × α},
    (seekBack s front n).1 = some e →
      front ≤ (seekBack s front n).2 ∧ (seekBack s front n).2 < front + n
  | 0, e, h => by cases h
  | n + 1, e, h => by
      simp only [seekBack] at h ⊢
      split at h
      · dsimp only
        omega
      · have ih := seekBack_lt s front n h
        omega

theorem span_next {c rest : Cursor α} {e : Nat × α} (h : c.next = (some e, rest)) :
    rest.span < c.span := by
  cases c with
  | slots s front back =>
    obtain ⟨hfound, rfl⟩ := Prod.mk.inj h
    have hlt := lt_seek s (back - front) front hfound
    simp only [span]
    omega
  | listed l =>
    cases l with
    | nil => cases h
    | cons f l =>
      obtain ⟨-, rfl⟩ := Prod.mk.inj h
      exact Nat.lt_succ_self l.length

theorem span_nextBack {c rest : Cursor α} {e : Nat × α} (h : c.nextBack = (some e, rest)) :
    rest.span < c.span := by
  cases c with
  | slots s front back =>
    obtain ⟨hfound, rfl⟩ := Prod.mk.inj h
    have hlt := seekBack_lt s front (back - front) hfound
    simp only [span]
    omega
  | listed l =>
    obtain ⟨hlast, rfl⟩ := Prod.mk.inj h
    have hne : l ≠ [] := fun hnil => by
      subst hnil
      cases hlast
    have hpos := List.length_pos_iff.mpr hne
    simp only [span, List.length_dropLast]
    omega

/-- What `next` gives, one entry after the other, until it gives none. -/
def ascending (c : Cursor α) : List (Nat × α) :=
  match h : c.next with
  | (some e, rest) =>
    have : rest.span < c.span := span_next h
    e :: rest.ascending
  | (none, _) => []
termination_by c.span

/-- What `nextBack` gives, one entry after the other, until it gives none. -/
def descending (c : Cursor α) : List (Nat × α) :=
  match h : c.nextBack with
  | (some e, rest) =>
    have : rest.span < c.span := span_nextBack h
    e :: rest.descending
  | (none, _) => []
termination_by c.span

end Cursor

namespace IndexedMap

variable {α : Type u}

/-- A cursor on the entries with keys at or above `lo` and below `hi`. -/
def cursor (m : IndexedMap α) (lo hi : Nat) : Cursor α :=
  let stop := min hi m.length
  if stop ≤ lo then .listed []
  else
    match m.elements with
    | .empty => .listed []
    | .dense slots => .slots slots (min lo (min stop slots.size)) (min stop slots.size)
    | .sparse t => .listed (t.toList.filter fun e => lo ≤ e.1 && e.1 < stop)

end IndexedMap

end Ecma
