import Ecma.Text.Json

/-!
# The options of a realm

Options come as a JSON document: an object whose fields are options by name, or an
array that gives them in order. What is left out keeps its default and unknown
fields are ignored; an option given twice, or a value of the wrong type, makes the
document unreadable.
-/

namespace Ecma

open Text

/-- The options of a realm. -/
structure RealmOptions where
  /-- objects that are taken for undefined also equal it loosely -/
  htmlDdaObjects : Bool := false
  /-- the longest list that an array-like object may become -/
  maxArguments : Nat := 65535
  deriving DecidableEq, Repr, Inhabited

namespace RealmOptions

/-- One past the greatest count that an option can hold, `2 ^ 64`. -/
def countLimit : Nat := 18446744073709551616

/-- The names of the options, in their order. -/
def names : List String := ["htmldda_objects", "max_arguments"]

/-- Set the option of a name; `none` if the value has the wrong type. Other names
change nothing. -/
def set? (o : RealmOptions) (name : String) (v : Json) : Option RealmOptions :=
  if name = "htmldda_objects" then
    match v with
    | .bool b => some { o with htmlDdaObjects := b }
    | _ => none
  else if name = "max_arguments" then
    match v with
    | .natural n => if n < countLimit then some { o with maxArguments := n } else none
    | _ => none
  else
    some o

/-- Set options by name, each at most once; `seen` are those set before. -/
def setFields? (o : RealmOptions) (seen : List String) :
    List (Option String × Json) → Option RealmOptions
  | [] => some o
  | (none, _) :: _ => none
  | (some name, v) :: rest =>
    if name ∈ names ∧ name ∈ seen then none
    else
      match o.set? name v with
      | some o => o.setFields? (name :: seen) rest
      | none => none

/-- Set options in their order; `none` if there are more values than options. -/
def setInOrder? (o : RealmOptions) : List String → List Json → Option RealmOptions
  | _, [] => some o
  | [], _ :: _ => none
  | name :: names, v :: rest =>
    match o.set? name v with
    | some o => o.setInOrder? names rest
    | none => none

/-- The options that a document gives. -/
def ofJson? : Json → Option RealmOptions
  | .object fields => setFields? {} [] fields
  | .array items => setInOrder? {} names items
  | _ => none

/-- The options that a text gives. -/
def parse? (s : String) : Option RealmOptions := (Json.parse? s).bind ofJson?

end RealmOptions

end Ecma
