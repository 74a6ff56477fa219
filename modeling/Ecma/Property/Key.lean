import Ecma.Index
import Ecma.Value

/-!
# Property keys

A property is named by an integer, a string or a symbol. A string that spells an
integer key canonically names the integer, so a text has one key and different
texts have different keys. `ofString` and `ofNat` make only such keys.
-/

namespace Ecma

/-- The name of a property. -/
inductive PropertyKey where
  | index (n : Nat)
  | string (s : String)
  | symbol (s : Symbol)
  deriving DecidableEq, Repr, Inhabited

namespace PropertyKey

/-- One past the greatest array index, `2 ^ 32 - 1`: the greatest array length. -/
def maxArrayLength : Nat := 4294967295

/-- The key of a text. -/
def ofString (s : String) : PropertyKey :=
  match parseIndex s with
  | some n => index n
  | none => string s

/-- The key of a natural number; beyond the integer keys it is the numeral. -/
def ofNat (n : Nat) : PropertyKey := if isIndex n then index n else string (toString n)

/-- The key of a well-known symbol. -/
def wellKnown (w : WellKnown) : PropertyKey := symbol w.symbol

/-- The integer that a key is. -/
def index? : PropertyKey → Option Nat
  | index n => some n
  | _ => none

/-- The array index that a key is. -/
def arrayIndex? : PropertyKey → Option Nat
  | index n => if n < maxArrayLength then some n else none
  | _ => none

theorem arrayIndex?_eq_some {k : PropertyKey} {i : Nat} :
    k.arrayIndex? = some i ↔ k = index i ∧ i < maxArrayLength := by
  cases k with
  | index n =>
    rw [arrayIndex?, Option.ite_none_right_eq_some, Option.some.injEq, index.injEq]
    constructor
    · rintro ⟨hlt, rfl⟩
      exact ⟨rfl, hlt⟩
    · rintro ⟨rfl, hlt⟩
      exact ⟨hlt, rfl⟩
  | string s => simp [arrayIndex?]
  | symbol s => simp [arrayIndex?]

/-- A symbol. -/
def isSymbol : PropertyKey → Bool
  | symbol _ => true
  | _ => false

/-- A key as a value: a string or a symbol. -/
def toValue : PropertyKey → Value
  | index n => .string (toString n)
  | string s => .string s
  | symbol s => .symbol s

/-- A key as text. -/
def toText : PropertyKey → String
  | index n => toString n
  | string s => s
  | symbol s => s.toText

/-- A key as text for diagnostics: strings are quoted. -/
def inspect : PropertyKey → String
  | index n => toString n
  | string s => Text.quote s
  | symbol s => s.toText

end PropertyKey

end Ecma
