import Ecma.Scope.Name

/-!
# Global declarations

Variables and functions that are declared globally become properties of the
global object. Whether they can is asked first and done afterwards.
-/

namespace Ecma.Program

variable {σ : Type}

/-- Whether a name is a property of the global object that cannot be
redeclared. -/
def hasRestrictedGlobal (g : GlobalScope) (name : String) : Program σ Bool := do
  match ← getOwnProperty g.object (.ofString name) with
  | some p => return !p.configurable
  | none => return false

/-- Whether a variable can be declared. -/
def canDeclareVar (g : GlobalScope) (name : String) : Program σ Bool := do
  match ← getOwnProperty g.object (.ofString name) with
  | some _ => return true
  | none => isExtensible g.object

/-- Whether a function can be declared. -/
def canDeclareFunction (g : GlobalScope) (name : String) : Program σ Bool := do
  match ← getOwnProperty g.object (.ofString name) with
  | some p => return p.configurable || (p.isData && p.isWritable && p.enumerable)
  | none => isExtensible g.object

/-- Declare a variable. -/
def createGlobalVar (e : EnvironmentId) (g : GlobalScope) (name : String) (deletable : Bool) :
    Program σ Unit := do
  match ← getOwnProperty g.object (.ofString name) with
  | some _ => effect (.declareVar e name)
  | none =>
    if ← isExtensible g.object then
      objectCreate g.objectScope name deletable
      objectAssign g.objectScope name .undefined false
    effect (.declareVar e name)

/-- Declare a function. -/
def createGlobalFunction (e : EnvironmentId) (g : GlobalScope) (name : String) (v : Value)
    (deletable : Bool) : Program σ Unit := do
  let k := PropertyKey.ofString name
  let request : Descriptor :=
    match ← getOwnProperty g.object k with
    | some p => if p.configurable then .data v true true deletable else .ofValue v
    | none => .data v true true deletable
  definePropertyOrThrow g.object k request
  let _ ← set g.object k v false
  effect (.declareVar e name)

end Ecma.Program
