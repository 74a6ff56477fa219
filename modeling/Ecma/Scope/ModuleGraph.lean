import Ecma.Scope.Environment
import Ecma.Text.Quoted

/-!
# Module graphs

A graph holds modules in the order in which they were added, and an index of their
specifiers. The position of a module is its identity; it never changes, and no two
modules have the same specifier. A module gets an environment once.
-/

namespace Ecma

/-- How far a module has come. -/
inductive ModuleStatus where
  | uninstantiated
  | instantiating
  | instantiated
  | evaluating
  | evaluated
  deriving DecidableEq, Repr

namespace ModuleStatus

/-- All states, in order. -/
def all : List ModuleStatus :=
  [uninstantiated, instantiating, instantiated, evaluating, evaluated]

/-- The name of a state. -/
def name : ModuleStatus → String
  | uninstantiated => "Uninstantiated"
  | instantiating => "Instantiating"
  | instantiated => "Instantiated"
  | evaluating => "Evaluating"
  | evaluated => "Evaluated"

/-- The state of a name. -/
def ofName? (s : String) : Option ModuleStatus := all.find? fun t => t.name = s

end ModuleStatus

/-- A module of a graph. -/
structure ModuleEntry where
  specifier : String
  status : ModuleStatus
  environment : Option EnvironmentId
  deriving DecidableEq, Repr

/-- Modules in the order in which they were added. -/
structure ModuleGraph where
  modules : List ModuleEntry
  /-- the module with a specifier -/
  bySpecifier : Dictionary String ModuleId

namespace ModuleGraph

/-- The graph without modules. -/
def empty : ModuleGraph := ⟨[], ∅⟩

/-- Number of modules. -/
def size (g : ModuleGraph) : Nat := g.modules.length

/-- The module with a specifier. -/
def lookup? (g : ModuleGraph) (specifier : String) : Option ModuleId :=
  g.bySpecifier.get? specifier

/-- Add a module, unless its specifier is known; yields its identity. -/
def add (g : ModuleGraph) (specifier : String) : ModuleId × ModuleGraph :=
  match g.lookup? specifier with
  | some m => (m, g)
  | none =>
    let m := ⟨g.size⟩
    (m,
      { modules := g.modules ++ [⟨specifier, .uninstantiated, none⟩]
        bySpecifier := g.bySpecifier.insert specifier m })

/-- A module of the graph. -/
def entry (g : ModuleGraph) (m : ModuleId) : Outcome ModuleEntry :=
  match g.modules[m.index]? with
  | some e => .value e
  | none => .fault (.foreignModule m)

/-- Change a module of the graph. -/
def update (g : ModuleGraph) (m : ModuleId) (f : ModuleEntry → ModuleEntry) : ModuleGraph :=
  { g with modules := g.modules.modify m.index f }

/-- A module as text. -/
def entryText (e : ModuleEntry) : String :=
  "(" ++ Text.quote e.specifier ++ ", " ++ e.status.name ++ ")"

/-- A graph as text. -/
def toText (g : ModuleGraph) : String :=
  "[" ++ String.intercalate ", " (g.modules.map entryText) ++ "]"

end ModuleGraph

end Ecma
