import Ecma.Proofs.Machine.PrototypeChain
import Ecma.Proofs.Machine.Requests

/-!
# Looking up a property

Where the prototype chain of an object ends, the objects on it are asked one after the other
until one of them has the property (`passing` is what an object is asked that has it not). The
one that has it decides alone what the property is worth to the receiver. **The requests of the
walk** are therefore known exactly (`get_nearest`, `get_missing`): they end with the nearest
object that has the property, and no object above it is asked for anything. What is left is one
call, if the property is an accessor with a getter, and nothing otherwise.

`chain_lookups` puts this beside the two other questions that are answered by walking a chain:
whether there is a property at all, and whether an object is an instance of a constructor.
-/

namespace Ecma

/-- What an object is asked for by a lookup that goes on to its prototype. -/
def passing (k : PropertyKey) (receiver : Value) (q : ObjectId) : List Request :=
  [.get q k receiver, .getOwnProperty q k, .getPrototypeOf q]

/-- Get a property from where a chain starts. -/
def Program.getAlong {σ : Type} (k : PropertyKey) (receiver : Value) :
    Option ObjectId → Program σ Value
  | some o => getFor o k receiver
  | none => pure .undefined

namespace Heap

variable {h : Heap} {k : PropertyKey} {l : List ObjectId}

instance (h : Heap) (o : ObjectId) (p : Option ObjectId) : Decidable (h.Inherits o p) :=
  match hs : h.objects[o.index]? with
  | some (.object s) => decidable_of_iff (s.prototype = p) (by simp [Inherits, hs])
  | some (.exotic _) => isFalse (by simp [Inherits, hs])
  | none => isFalse (by simp [Inherits, hs])

theorem isSome_nearest?_iff : (h.nearest? k l).isSome ↔ ∃ q ∈ l, (h.own? q k).isSome := by
  rw [nearest?, List.findSome?_isSome_iff]

end Heap

namespace Machine

variable {σ : Type} (E : Embedder σ) {m : Machine σ} {o : ObjectId} {s : Object}

/-! ## One link -/

section

variable (ho : m.heap.objects[o.index]? = some (.object s)) (fuel : Nat) (k : PropertyKey)
include ho

theorem consulted_getOwnProperty :
    consulted E (fuel + 1) (Program.getOwnProperty o k) m = [.getOwnProperty o k] :=
  (consulted_method _).trans (congrArg _ (within_object ho fuel))

theorem consulted_getPrototypeOf :
    consulted E (fuel + 1) (Program.getPrototypeOf o) m = [.getPrototypeOf o] :=
  (consulted_method _).trans (congrArg _ (within_object ho fuel))

theorem consulted_getFor (receiver : Value) :
    consulted E (fuel + 1) (Program.getFor o k receiver) m =
      .get o k receiver :: consulted E fuel (Program.ordinaryGet o k receiver) m :=
  (consulted_method _).trans (congrArg _ (within_object ho fuel))

/-- An object that has the property decides. -/
theorem get_own {p : Property} (hp : s.own? k = some p) (receiver : Value) :
    execute E (fuel + 2) (Program.getFor o k receiver) m =
        execute E (fuel + 1) (Program.getThrough p receiver) m ∧
      consulted E (fuel + 2) (Program.getFor o k receiver) m =
        [.get o k receiver, .getOwnProperty o k] ++
          consulted E (fuel + 1) (Program.getThrough p receiver) m := by
  have hown := execute_getOwnProperty E ho fuel k
  constructor
  · rw [execute_getFor E ho, Program.lookup, execute_bind hown, hp]
    rfl
  · rw [consulted_getFor E ho, Program.ordinaryGet, consulted_bind hown,
      consulted_getOwnProperty E ho, hp]
    rfl

/-- An object that does not have it passes the request on to its prototype. -/
theorem get_inherited (hown : s.own? k = none) (receiver : Value) :
    execute E (fuel + 2) (Program.getFor o k receiver) m =
        execute E (fuel + 1) (Program.getAlong k receiver s.prototype) m ∧
      consulted E (fuel + 2) (Program.getFor o k receiver) m =
        passing k receiver o ++
          consulted E (fuel + 1) (Program.getAlong k receiver s.prototype) m := by
  have howns := execute_getOwnProperty E ho fuel k
  have hproto := execute_getPrototypeOf E ho fuel
  constructor
  · rw [execute_getFor E ho, Program.lookup, execute_bind howns, hown]
    dsimp only
    rw [execute_bind hproto]
    cases s.prototype <;> rfl
  · rw [consulted_getFor E ho, Program.ordinaryGet, consulted_bind howns,
      consulted_getOwnProperty E ho, hown]
    dsimp only
    rw [consulted_bind hproto, consulted_getPrototypeOf E ho]
    cases s.prototype <;> rfl

end

/-! ## The whole chain -/

variable {start : Option ObjectId} {l before after : List ObjectId} {holder : ObjectId}
  {k : PropertyKey} {p : Property}

/-- **The nearest object** that has the property decides; the objects before it are passed,
those after it are not asked. -/
theorem get_nearest (hl : m.heap.Chain start (before ++ holder :: after))
    (hbefore : ∀ q ∈ before, m.heap.own? q k = none) (hholder : m.heap.own? holder k = some p)
    (depth : Nat) (receiver : Value) :
    execute E (depth + before.length + 2) (Program.getAlong k receiver start) m =
        execute E (depth + 1) (Program.getThrough p receiver) m ∧
      consulted E (depth + before.length + 2) (Program.getAlong k receiver start) m =
        before.flatMap (passing k receiver) ++ [.get holder k receiver, .getOwnProperty holder k] ++
          consulted E (depth + 1) (Program.getThrough p receiver) m := by
  -- on the objects that are passed: each of them costs one level of depth
  induction before generalizing start with
  | nil =>
    cases hl with
    | cons hlink _ =>
      obtain ⟨s, ho, -⟩ := hlink
      exact get_own E ho depth k (Heap.own?_eq ho k ▸ hholder) receiver
  | cons q before ih =>
    cases hl with
    | cons hlink hrest =>
      obtain ⟨s, ho, rfl⟩ := hlink
      have hown : s.own? k = none := Heap.own?_eq ho k ▸ hbefore q List.mem_cons_self
      have hpass := get_inherited E ho (depth + before.length + 1) k hown receiver
      have hrest := ih hrest fun r hr => hbefore r (List.mem_cons_of_mem q hr)
      constructor
      · exact hpass.1.trans hrest.1
      · refine (hpass.2.trans (congrArg _ hrest.2)).trans ?_
        simp only [List.flatMap_cons, List.append_assoc]

/-- If no object has the property, all of them are passed. -/
theorem get_missing (hl : m.heap.Chain start l) (hnone : ∀ q ∈ l, m.heap.own? q k = none)
    (depth : Nat) (receiver : Value) :
    execute E (depth + l.length + 1) (Program.getAlong k receiver start) m =
        (.value .undefined, m) ∧
      consulted E (depth + l.length + 1) (Program.getAlong k receiver start) m =
        l.flatMap (passing k receiver) := by
  induction hl with
  | nil => exact ⟨rfl, rfl⟩
  | @cons q _ l hlink _ ih =>
    obtain ⟨s, ho, rfl⟩ := hlink
    have hown : s.own? k = none := Heap.own?_eq ho k ▸ hnone q List.mem_cons_self
    have hpass := get_inherited E ho (depth + l.length) k hown receiver
    have hrest := ih fun r hr => hnone r (List.mem_cons_of_mem q hr)
    constructor
    · exact hpass.1.trans hrest.1
    · exact hpass.2.trans (congrArg _ hrest.2)

/-! ## Lookups -/

/-- Getting a property asks for `walk` and then does what the property says: a value is taken
as it is, a getter is called once for the receiver and without arguments, and an accessor
without a getter gives undefined. -/
def GetsThrough (E : Embedder σ) (fuel : Nat) (m : Machine σ) (o : ObjectId) (k : PropertyKey)
    (receiver : Value) (walk : List Request) : Slot → Prop
  | .data v _ =>
    execute E fuel (Program.getFor o k receiver) m = (.value v, m) ∧
      consulted E fuel (Program.getFor o k receiver) m = walk
  | .accessor (some getter) _ =>
    ∃ depth, fuel ≤ depth + m.heap.objects.size ∧
      execute E fuel (Program.getFor o k receiver) m =
        execute E depth (Program.callObject getter receiver []) m ∧
      consulted E fuel (Program.getFor o k receiver) m =
        walk ++ consulted E depth (Program.callObject getter receiver []) m
  | .accessor none _ =>
    execute E fuel (Program.getFor o k receiver) m = (.value .undefined, m) ∧
      consulted E fuel (Program.getFor o k receiver) m = walk

theorem getsThrough_nearest (hl : m.heap.Chain (some o) (before ++ holder :: after))
    (hbefore : ∀ q ∈ before, m.heap.own? q k = none) (hholder : m.heap.own? holder k = some p)
    {fuel : Nat} (hfuel : m.heap.objects.size < fuel) (receiver : Value) :
    GetsThrough E fuel m o k receiver
      (before.flatMap (passing k receiver) ++ [.get holder k receiver, .getOwnProperty holder k])
      p.slot := by
  have hlength := hl.length_le_size
  rw [List.length_append, List.length_cons] at hlength
  obtain ⟨depth, rfl⟩ : ∃ n, fuel = n + before.length + 2 := ⟨fuel - before.length - 2, by omega⟩
  have hget := get_nearest E hl hbefore hholder depth receiver
  obtain ⟨⟨v, w⟩ | ⟨_ | getter, setter⟩, e, c⟩ := p
  · exact ⟨hget.1, hget.2.trans (List.append_nil _)⟩
  · exact ⟨hget.1, hget.2.trans (List.append_nil _)⟩
  · exact ⟨depth + 1, by omega, hget⟩

/-- **Lookups along a chain.** Take a machine whose objects are all objects of the model, with
chains that end, and one of its objects; `l` are the objects on its chain.

* The object has a property if some object on the chain has it as its own.
* What a property is worth to a receiver is decided by the nearest object that has it, and by
  it alone: the objects before it are asked for the property and for their prototypes, it is
  asked for the property, and no object after it is asked at all. What is found is a value, or
  a getter that is called once for the receiver and without arguments, or an accessor without a
  getter, which gives undefined. If no object has the property, the value is undefined.
* The object is an instance of a function if the object that the function has as its
  `prototype` is on the chain strictly above it. Code may run to find that object, so it is the
  chain after that which counts; it ends if there are no exotic objects by then. -/
theorem chain_lookups (hg : m.heap.Grounded) (ho : o.index < m.heap.objects.size)
    (E : Embedder σ) {fuel : Nat} (hfuel : m.heap.objects.size < fuel) :
    ∃ l, m.heap.Chain (some o) l ∧
      (∀ k, ∃ b, execute E fuel (Program.hasProperty o k) m = (.value b, m) ∧
        (b = true ↔ ∃ q ∈ l, (m.heap.own? q k).isSome)) ∧
      (∀ k receiver before holder after p, l = before ++ holder :: after →
        (∀ q ∈ before, m.heap.own? q k = none) → m.heap.own? holder k = some p →
        GetsThrough E fuel m o k receiver
          (before.flatMap (passing k receiver) ++
            [.get holder k receiver, .getOwnProperty holder k]) p.slot) ∧
      (∀ k receiver, (∀ q ∈ l, m.heap.own? q k = none) →
        execute E fuel (Program.getFor o k receiver) m = (.value .undefined, m) ∧
        consulted E fuel (Program.getFor o k receiver) m = l.flatMap (passing k receiver)) ∧
      ∀ c x p m', m.heap.cell c = .value x → x.traits.isCallable = true →
        execute E fuel (Program.get c (.string "prototype")) m = (.value (.object p), m') →
        (m'.heap.Plain → ∃ l', m'.heap.Chain (some o) l') ∧
        ∀ l', m'.heap.Chain (some o) l' → l'.length ≤ fuel →
          execute E fuel (Program.ordinaryHasInstance (.object c) (.object o)) m =
            (.value (decide (p ∈ l'.tail)), m') := by
  obtain ⟨l, hl⟩ := hg o ho
  have hlength : l.length < fuel := Nat.lt_of_le_of_lt hl.length_le_size hfuel
  refine ⟨l, hl, fun k => ?_, ?_, fun k receiver hnone => ?_, ?_⟩
  · exact ⟨_, execute_hasProperty_nearest E hl hlength k, Heap.isSome_nearest?_iff⟩
  · rintro k receiver before holder after p rfl hbefore hholder
    exact getsThrough_nearest E hl hbefore hholder hfuel receiver
  · obtain ⟨depth, rfl⟩ : ∃ n, fuel = n + l.length + 1 := ⟨fuel - l.length - 1, by omega⟩
    exact get_missing E hl hnone depth receiver
  · intro c x p m' hc hx hget
    refine ⟨fun hplain => ?_, fun l' hl' hfuel' =>
      execute_ordinaryHasInstance E hc hx hget hl' hfuel'⟩
    obtain ⟨s, hs⟩ := hg.exists_object ho
    have hchanges : Heap.Changes true m.heap m'.heap := changes_of_run hget
    obtain ⟨s', hs', -⟩ := hchanges.kind hs
    exact hchanges.grounded hplain hg o (Array.getElem?_eq_some_iff.mp hs').1

/-- An object inherits from an array that has the property as an accessor, and the array from an
object that has it as a value. The getter is called for the receiver, the object above is not
asked. It is the `prototype` of a function, which the first object is therefore an instance
of. -/
theorem chain_lookups_past_array :
    let E : Embedder (List (Value × List Value)) :=
      { (default : Embedder (List (Value × List Value))) with
        call := fun _ this args => do
          let calls ← Program.load
          Program.store (calls ++ [(this, args)])
          return .string "got" }
    let p : Program (List (Value × List Value)) ObjectId := do
      let top ← Program.allocate (.ordinary none "Object" none false)
      let f ← Program.allocate (.function "f" 0 ⟨0⟩ none)
      let array ← Program.allocate (.array 0 (some top))
      let _ ← Program.defineOwnProperty top (.string "a") (.data .null true true true)
      let _ ← Program.defineOwnProperty f (.string "prototype") (.data (.object top) true true true)
      let _ ← Program.defineOwnProperty array (.string "a") { get := some (.object f) }
      Program.allocate (.ordinary (some array) "Object" none false)
    let m := (execute E 2 p (initial {} [])).2
    let get := Program.getFor ⟨14⟩ (.string "a") (.boolean true)
    m.heap.Grounded ∧
      (∃ depth,
        execute E 20 get m = execute E depth (Program.callObject ⟨12⟩ (.boolean true) []) m ∧
        consulted E 20 get m =
          passing (.string "a") (.boolean true) ⟨14⟩ ++
            [.get ⟨13⟩ (.string "a") (.boolean true), .getOwnProperty ⟨13⟩ (.string "a")] ++
            consulted E depth (Program.callObject ⟨12⟩ (.boolean true) []) m) ∧
      (execute E 20 get m).2.host = [(.boolean true, [])] ∧
      execute E 20 (Program.ordinaryHasInstance (.object ⟨12⟩) (.object ⟨14⟩)) m =
        (.value true, m) := by
  intro E p m get
  have hg : m.heap.Grounded :=
    Passes.grounded (.refl _) (passes_end E 2 p _) (show m.heap.Plain by decide +kernel)
  have hchain : m.heap.Chain (some ⟨14⟩) [⟨14⟩, ⟨13⟩, ⟨11⟩] :=
    .cons (show m.heap.Inherits ⟨14⟩ (some ⟨13⟩) by decide +kernel)
      (.cons (show m.heap.Inherits ⟨13⟩ (some ⟨11⟩) by decide +kernel)
        (.cons (show m.heap.Inherits ⟨11⟩ none by decide +kernel) .nil))
  have hown : m.heap.own? ⟨14⟩ (.string "a") = none ∧ m.heap.own? ⟨13⟩ (.string "a") =
      some (.accessor (some ⟨12⟩) none false false) := by decide +kernel
  have hsize : m.heap.objects.size = 15 := by decide +kernel
  obtain ⟨l, hl, -, hget, -, hinstance⟩ := chain_lookups (o := ⟨14⟩) hg (by rw [hsize]; decide) E
    (show m.heap.objects.size < 20 by rw [hsize]; decide)
  obtain rfl := hchain.unique m.heap.singleLinked_inherits hl
  refine ⟨hg, ?_, by decide +kernel, ?_⟩
  · obtain ⟨depth, -, hcall⟩ := hget (.string "a") (.boolean true) [⟨14⟩] ⟨13⟩ [⟨11⟩] _ rfl
      (by simpa using hown.1) hown.2
    exact ⟨depth, hcall⟩
  · have hcallable : holdsObject m.heap ⟨12⟩ (fun s => s.traits.isCallable) := by decide +kernel
    have hvalue : m.heap.own? ⟨12⟩ (.string "prototype") =
        some (.data (.object ⟨11⟩) true true true) := by decide +kernel
    obtain ⟨s, hcell, hcallable⟩ := exists_of_holdsObject hcallable
    -- the function has the property itself, so nothing runs to get it
    obtain ⟨lf, hlf, -, hgetf, -, -⟩ := chain_lookups (o := ⟨12⟩) hg (by rw [hsize]; decide) E
      (show m.heap.objects.size < 20 by rw [hsize]; decide)
    obtain ⟨rest, rfl⟩ : ∃ rest, lf = ⟨12⟩ :: rest := by
      cases hlf
      exact ⟨_, rfl⟩
    have hprototype := (hgetf (.string "prototype") (.object ⟨12⟩) [] ⟨12⟩ rest _ rfl (by simp)
      hvalue).1
    exact (hinstance ⟨12⟩ _ ⟨11⟩ m hcell hcallable hprototype).2 _ hchain (by decide)

end Machine

end Ecma
