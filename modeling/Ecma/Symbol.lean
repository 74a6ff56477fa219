import Ecma.Dictionary

/-!
# Symbols

A symbol is an identity with an optional description. A `SymbolTable` hands out
symbols, each identity once. Some are found again: the well-known symbols by their
names, the registered ones by their keys. They are made when they are asked for
first and kept in tables from then on.
-/

namespace Ecma

/-- A symbol. -/
structure Symbol where
  id : Nat
  description : Option String
  deriving DecidableEq, Repr

/-- A symbol as text. -/
def Symbol.toText (s : Symbol) : String := "Symbol(" ++ s.description.getD "" ++ ")"

/-- The symbols that the language itself consults. -/
inductive WellKnown where
  | asyncIterator
  | hasInstance
  | isConcatSpreadable
  | iterator
  | match
  | matchAll
  | replace
  | search
  | species
  | split
  | toPrimitive
  | toStringTag
  | unscopables
  deriving DecidableEq, Repr

namespace WellKnown

/-- All well-known symbols. -/
def all : List WellKnown :=
  [asyncIterator, hasInstance, isConcatSpreadable, iterator, .match, matchAll, replace, search,
    species, split, toPrimitive, toStringTag, unscopables]

/-- The name under which a well-known symbol is a property of `Symbol`. -/
def name : WellKnown → String
  | asyncIterator => "asyncIterator"
  | hasInstance => "hasInstance"
  | isConcatSpreadable => "isConcatSpreadable"
  | iterator => "iterator"
  | .match => "match"
  | matchAll => "matchAll"
  | replace => "replace"
  | search => "search"
  | species => "species"
  | split => "split"
  | toPrimitive => "toPrimitive"
  | toStringTag => "toStringTag"
  | unscopables => "unscopables"

/-- The position of a well-known symbol among all. -/
def position : WellKnown → Nat
  | asyncIterator => 0
  | hasInstance => 1
  | isConcatSpreadable => 2
  | iterator => 3
  | .match => 4
  | matchAll => 5
  | replace => 6
  | search => 7
  | species => 8
  | split => 9
  | toPrimitive => 10
  | toStringTag => 11
  | unscopables => 12

/-- The description of a well-known symbol. -/
def description (w : WellKnown) : String := "Symbol." ++ w.name

/-- The symbol of a well-known name in a realm, where these symbols come first. -/
def symbol (w : WellKnown) : Symbol := ⟨w.position + 1, some w.description⟩

end WellKnown

/-- The symbols handed out so far. -/
structure SymbolTable where
  /-- the identity of the next symbol -/
  next : Nat
  /-- the well-known symbols by their names -/
  wellKnown : Dictionary WellKnown Symbol
  /-- the registered symbols by their keys -/
  byKey : Dictionary String Symbol
  /-- the keys of the registered symbols by their identities -/
  byId : Dictionary Nat String

namespace SymbolTable

/-- No symbol exists. -/
def empty : SymbolTable := ⟨1, ∅, ∅, ∅⟩

/-- A symbol that differs from all others. -/
def fresh (t : SymbolTable) (description : Option String) : Symbol × SymbolTable :=
  (⟨t.next, description⟩, { t with next := t.next + 1 })

/-- The symbol of a well-known name, which is made when it is asked for first. -/
def ofWellKnown (t : SymbolTable) (w : WellKnown) : Symbol × SymbolTable :=
  match t.wellKnown.get? w with
  | some s => (s, t)
  | none =>
    let (s, t) := t.fresh (some w.description)
    (s, { t with wellKnown := t.wellKnown.insert w s })

/-- The symbol registered for a key, which is made when it is asked for first. -/
def forKey (t : SymbolTable) (key : String) : Symbol × SymbolTable :=
  match t.byKey.get? key with
  | some s => (s, t)
  | none =>
    let (s, t) := t.fresh (some key)
    (s, { t with byKey := t.byKey.insert key s, byId := t.byId.insert s.id key })

/-- The key for which a symbol is registered. -/
def keyOf? (t : SymbolTable) (s : Symbol) : Option String := t.byId.get? s.id

/-- The table of a new realm: the well-known symbols were asked for, in their order. -/
def initial : SymbolTable := WellKnown.all.foldl (fun t w => (t.ofWellKnown w).2) empty

instance : Inhabited SymbolTable := ⟨initial⟩

/-- The symbols that a realm takes for well-known are those of its table. -/
theorem wellKnown_initial (w : WellKnown) : initial.wellKnown.get? w = some w.symbol := by
  cases w <;> rfl

end SymbolTable

end Ecma
