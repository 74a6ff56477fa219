import Ecma.IndexedMap.Cursor

/-!
# Indexed maps behind bounds checks

The operations of `IndexedMap` accept every natural number. A caller that was
handed a key, a length or a range from outside goes through the checked forms
here, which refuse what no map can hold: keys from `maxLength` on, lengths above
it, and ranges that end before they start.
-/

namespace Ecma.IndexedMap

universe u

/-- An argument that no indexed map accepts. -/
inductive BoundsError where
  | index (n : Nat)
  | length (n : Nat)
  | range (lo hi : Nat)
  deriving DecidableEq, Repr

/-- What is said of a refused argument. -/
def BoundsError.message : BoundsError → String
  | index n => s!"index {n} out of range"
  | length n => s!"length {n} out of range"
  | range lo hi => s!"invalid range {lo}..{hi}"

variable {α : Type u}

/-- `withLength` for a length that is checked. -/
def tryWithLength (n : Nat) : Except BoundsError (IndexedMap α) :=
  if n ≤ maxLength then .ok (withLength n) else .error (.length n)

/-- `put` for a key that is checked. -/
def tryPut (m : IndexedMap α) (k : Nat) (v : α) : Except BoundsError (Option α × IndexedMap α) :=
  if isIndex k then .ok (m.put k v) else .error (.index k)

/-- `insert` for a key that is checked. -/
def tryInsert (m : IndexedMap α) (k : Nat) (v : α) : Except BoundsError (IndexedMap α) :=
  if isIndex k then .ok (m.insert k v) else .error (.index k)

/-- `setLength` for a length that is checked. -/
def trySetLength (m : IndexedMap α) (n : Nat) : Except BoundsError (IndexedMap α) :=
  if n ≤ maxLength then .ok (m.setLength n) else .error (.length n)

/-- `cursor` for a range that is checked. -/
def tryCursor (m : IndexedMap α) (lo hi : Nat) : Except BoundsError (Cursor α) :=
  if lo ≤ hi then .ok (m.cursor lo hi) else .error (.range lo hi)

/-- `entriesIn` for a range that is checked. -/
def tryEntriesIn (m : IndexedMap α) (lo hi : Nat) : Except BoundsError (List (Nat × α)) :=
  if lo ≤ hi then .ok (m.entriesIn lo hi) else .error (.range lo hi)

/-- `eraseRange` for a range that is checked. -/
def tryEraseRange (m : IndexedMap α) (lo hi : Nat) : Except BoundsError (IndexedMap α) :=
  if lo ≤ hi then .ok (m.eraseRange lo hi) else .error (.range lo hi)

/-! ## A map as text -/

/-- The name of a kind of store. -/
def representationName : Representation → String
  | .empty => "Empty"
  | .dense => "Dense"
  | .sparse => "Sparse"

/-- A map as text: length, kind of store and entries, each value written by
`render`. -/
def describe (render : α → String) (m : IndexedMap α) : String :=
  let entries := m.entries.map fun e => s!"{e.1}: " ++ render e.2
  s!"IndexedMap \x7b length: {m.length}, representation: " ++
    representationName m.representation ++ ", entries: \x7b" ++
    String.intercalate ", " entries ++ "\x7d \x7d"

end Ecma.IndexedMap
