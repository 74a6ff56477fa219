import Ecma.Chronicle
import Ecma.IndexedMap.Basic
import Ecma.Property.Descriptor
import Ecma.Property.Key

/-!
# Property tables

The own properties of an object: those with integer keys in an indexed map, the
others in a chronicle. Keys are listed integers first in ascending order, then
strings, then symbols, each of these two groups in order of creation.
-/

namespace Ecma

/-- The own properties of an object. -/
structure PropertyTable where
  indexed : IndexedMap Property
  named : Chronicle PropertyKey Property
  /-- no integer is among the names -/
  named_index : ∀ n, named.get? (.index n) = none

namespace PropertyTable

/-- No properties. -/
def empty : PropertyTable := ⟨∅, ∅, fun _ => rfl⟩

instance : EmptyCollection PropertyTable := ⟨empty⟩
instance : Inhabited PropertyTable := ⟨empty⟩

/-- The property of a key. -/
def get? (t : PropertyTable) : PropertyKey → Option Property
  | .index n => t.indexed.get? n
  | k => t.named.get? k

/-- Store a property under a name. -/
def insertNamed (t : PropertyTable) (k : PropertyKey) (hk : ∀ n, .index n ≠ k) (p : Property) :
    PropertyTable where
  indexed := t.indexed
  named := t.named.insert k p
  named_index n := by rw [t.named.get?_insert, if_neg (hk n), t.named_index]

/-- Store a property under a key. -/
def insert (t : PropertyTable) (k : PropertyKey) (p : Property) : PropertyTable :=
  match k with
  | .index n => { t with indexed := t.indexed.insert n p }
  | .string s => t.insertNamed (.string s) nofun p
  | .symbol s => t.insertNamed (.symbol s) nofun p

/-- Drop the property of a key. -/
def erase (t : PropertyTable) (k : PropertyKey) : PropertyTable :=
  match k with
  | .index n => { t with indexed := t.indexed.erase n }
  | k =>
    { t with
      named := t.named.erase k
      named_index := fun n => by rw [t.named.get?_erase, t.named_index, ite_self] }

/-- All keys: integers ascending, then strings, then symbols. -/
def keys (t : PropertyTable) : List PropertyKey :=
  t.indexed.keys.map .index ++ t.named.keysWhere (fun k => !k.isSymbol) ++
    t.named.keysWhere PropertyKey.isSymbol

@[simp] theorem get?_empty (k : PropertyKey) : (∅ : PropertyTable).get? k = none := by
  cases k with
  | index n => exact IndexedMap.get?_eq_none_of_length_le (Nat.zero_le n)
  | string s => rfl
  | symbol s => rfl

theorem get?_insert (t : PropertyTable) (k j : PropertyKey) (p : Property) :
    (t.insert k p).get? j = if j = k then some p else t.get? j := by
  cases k with
  | index n =>
    cases j with
    | index i => simp only [insert, get?, IndexedMap.get?_insert, PropertyKey.index.injEq]
    | string s => rfl
    | symbol s => rfl
  | string s =>
    cases j with
    | index i => rfl
    | string r => exact t.named.get?_insert _ _ p
    | symbol r => exact t.named.get?_insert _ _ p
  | symbol s =>
    cases j with
    | index i => rfl
    | string r => exact t.named.get?_insert _ _ p
    | symbol r => exact t.named.get?_insert _ _ p

theorem get?_erase (t : PropertyTable) (k j : PropertyKey) :
    (t.erase k).get? j = if j = k then none else t.get? j := by
  cases k with
  | index n =>
    cases j with
    | index i => simp only [erase, get?, IndexedMap.get?_erase, PropertyKey.index.injEq]
    | string s => rfl
    | symbol s => rfl
  | string s =>
    cases j with
    | index i => rfl
    | string r => exact t.named.get?_erase _ _
    | symbol r => exact t.named.get?_erase _ _
  | symbol s =>
    cases j with
    | index i => rfl
    | string r => exact t.named.get?_erase _ _
    | symbol r => exact t.named.get?_erase _ _

end PropertyTable

end Ecma
