import Ecma.IndexedMap.Bounds
import Ecma.Machine
import Ecma.Operation.Comparison
import Ecma.Operation.Description
import Ecma.Operation.Instance
import Ecma.Operation.Integrity
import Ecma.Operation.Iterator
import Ecma.Operation.List
import Ecma.Scope.Global
import Ecma.Scope.Reference
import Ecma.IndexedMap.Elements
import Ecma.Proofs.IndexedMap.Iteration
import Ecma.Proofs.IndexedMap.Occupancy
import Ecma.Proofs.IndexedMap.Refinement
import Ecma.Proofs.IndexedMap.BothEnds
import Ecma.Proofs.IndexedMap.Representation
import Ecma.Proofs.Machine.Changes
import Ecma.Proofs.Machine.Promises
import Ecma.Proofs.Machine.PrototypeChain
import Ecma.Proofs.Number.Comparison
import Ecma.Proofs.Number.Neighbours
import Ecma.Proofs.Number.IntegerArithmetic
import Ecma.Proofs.Scope.BindingLife
import Ecma.Proofs.Scope.ImportAlias
import Ecma.Proofs.Number.Nearest
import Ecma.Proofs.Number.LeadingWord
import Ecma.Proofs.Number.Grammar
import Ecma.Proofs.Number.LiteralReading
import Ecma.Proofs.Number.Shortest
import Ecma.Proofs.Number.FewestDigits
import Ecma.Proofs.Number.RoundTrip
import Ecma.Proofs.Value.Equality
import Ecma.Proofs.Value.LooseEquality
import Ecma.Proofs.Property.CanonicalKey
import Ecma.Proofs.Property.NumericKey
import Ecma.Proofs.Object.KeyOrder
import Ecma.Proofs.Machine.Timeline
import Ecma.Proofs.Machine.KeyHistory
import Ecma.Proofs.Object.Integrity
import Ecma.Proofs.Machine.Integrity
import Ecma.Proofs.Object.Validation
import Ecma.Proofs.Object.Truncation
import Ecma.Proofs.Machine.OwnProperty
import Ecma.Proofs.Machine.Assignment
import Ecma.Proofs.Scope.Resolution
import Ecma.Proofs.Number.IntegerConversion
import Ecma.Proofs.Machine.Lookup
import Ecma.Proofs.Value.Coercion
import Ecma.Proofs.Value.RelationalOrder
import Ecma.Proofs.Number.IntegerLiteral
import Ecma.Proofs.Text.UnitOrder
import Ecma.Proofs.Scope.GlobalDeclaration
import Ecma.Proofs.Iterator.Closing
import Ecma.Proofs.Iterator.Draining
import Ecma.Proofs.Machine.Copying
import Ecma.Proofs.Machine.Description
import Ecma.Proofs.Machine.ArrayOfList
import Ecma.Proofs.Value.SymbolIdentity
import Ecma.Proofs.Scope.ModuleArena
import Ecma.Proofs.Number.Single
import Ecma.Proofs.Value.Lanes
