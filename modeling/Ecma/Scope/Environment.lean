import Ecma.Scope.Binding

/-!
# Environments

An environment is a link of a scope chain: a record that gives names their
meaning, and the environment around it. Records come in five forms. Three of them
keep a table of bindings; an object record takes the properties of an object for
bindings; the global record has both, and remembers which names were declared as
variables.
-/

namespace Ecma

/-- The identity of an environment: its place in the heap. -/
structure EnvironmentId where
  index : Nat
  deriving DecidableEq, Repr, Inhabited

/-- The identity of a module graph: its place in the heap. -/
structure GraphId where
  index : Nat
  deriving DecidableEq, Repr, Inhabited

/-- What `this` is inside a function. -/
inductive ThisBinding where
  /-- what it is around the function -/
  | lexical
  | uninitialized
  | initialized (v : Value)
  deriving DecidableEq, Repr

/-- The name of a state of `this`. -/
def ThisBinding.statusName : ThisBinding → String
  | lexical => "Lexical"
  | uninitialized => "Uninitialized"
  | initialized _ => "Initialized"

/-- A scope whose names are the properties of an object. -/
structure ObjectScope where
  object : ObjectId
  /-- opened by a `with` statement -/
  isWith : Bool
  deriving DecidableEq, Repr

/-- The scope of a function call. -/
structure FunctionScope where
  bindings : Bindings
  this : ThisBinding
  function : ObjectId
  newTarget : Option ObjectId
  home : Option ObjectId

/-- The outermost scope. -/
structure GlobalScope where
  object : ObjectId
  bindings : Bindings
  this : ObjectId
  varNames : List String

/-- What gives names their meaning in an environment. -/
inductive ScopeRecord where
  | declarative (bindings : Bindings)
  | object (scope : ObjectScope)
  | function (scope : FunctionScope)
  | global (scope : GlobalScope)
  | module (bindings : Bindings) (graph : GraphId)

/-- A link of a scope chain. -/
structure Environment where
  record : ScopeRecord
  outer : Option EnvironmentId

namespace ThisBinding

/-- Give `this` its value. -/
def bind (v : Value) : ThisBinding → Outcome ThisBinding
  | lexical => .fault .arrowThisBound
  | uninitialized => .value (initialized v)
  | initialized _ => .fault .thisBoundTwice

/-- The value of `this`. -/
def read : ThisBinding → Outcome Value
  | lexical => .fault .arrowThisRead
  | uninitialized => .raise .thisUninitialized
  | initialized v => .value v

end ThisBinding

namespace FunctionScope

/-- The scope of a new call. -/
def new (function : ObjectId) (newTarget : Option ObjectId) (lexicalThis : Bool)
    (home : Option ObjectId) : FunctionScope where
  bindings := ∅
  this := if lexicalThis then .lexical else .uninitialized
  function := function
  newTarget := newTarget
  home := home

end FunctionScope

namespace GlobalScope

/-- A global scope without declarations. -/
def new (object this : ObjectId) : GlobalScope := ⟨object, ∅, this, []⟩

/-- The global object as a scope. -/
def objectScope (g : GlobalScope) : ObjectScope := ⟨g.object, false⟩

/-- Remember that a name was declared as a variable. -/
def declareVar (g : GlobalScope) (name : String) : GlobalScope :=
  if name ∈ g.varNames then g else { g with varNames := g.varNames ++ [name] }

/-- Forget that a name was declared as a variable. -/
def forgetVar (g : GlobalScope) (name : String) : GlobalScope :=
  { g with varNames := g.varNames.filter (· != name) }

end GlobalScope

namespace ScopeRecord

/-- The table of bindings of a record that has one. -/
def bindings? : ScopeRecord → Option Bindings
  | declarative b => some b
  | object _ => none
  | function f => some f.bindings
  | global g => some g.bindings
  | module b _ => some b

/-- The record with another table of bindings. -/
def setBindings (b : Bindings) : ScopeRecord → ScopeRecord
  | declarative _ => declarative b
  | object s => object s
  | function f => function { f with bindings := b }
  | global g => global { g with bindings := b }
  | module _ g => module b g

/-- The record gives `this` a value of its own. -/
def hasThis : ScopeRecord → Bool
  | declarative _ | object _ => false
  | function f => f.this != .lexical
  | global _ | module _ _ => true

/-- The record knows a home object for `super`. -/
def hasSuper : ScopeRecord → Bool
  | function f => f.this != .lexical && f.home.isSome
  | _ => false

/-- The object of a `with` statement, or undefined. -/
def withObject : ScopeRecord → Value
  | object s => if s.isWith then .object s.object else .undefined
  | _ => .undefined

/-- The value of `this` in a record that has one. -/
def readThis : ScopeRecord → Outcome Value
  | function f => f.this.read
  | global g => .value (.object g.this)
  | module _ _ => .value .undefined
  | declarative _ | object _ => .fault .noThisBinding

end ScopeRecord

end Ecma
