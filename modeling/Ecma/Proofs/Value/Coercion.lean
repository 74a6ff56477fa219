import Ecma.Operation.Comparison
import Ecma.Proofs.Machine.Requests
import Ecma.Proofs.Value.LooseEquality

/-!
# Objects become primitive values

To convert an object its methods are called, and these may do anything: run other conversions,
fail, give an object, or replace the very methods that are tried next. What the conversion
itself does is nevertheless known. **The protocol** says which requests it makes, in which order
and how it ends: `ConvertsByProtocol` for the method that an object may have for this purpose,
and `Tries` for the methods that are tried otherwise. Its rules mention the machine as it is
when each method is looked up, so they hold whatever the methods do to it.

A conversion never gives an object. Where a conversion is told by recursion (`convertRound`),
the second round therefore finds a primitive value, and **two rounds are enough**; and where
the order of two values is told by cases of the numerics that they become (`compareWith`), the
case in which there is no numeric can be filled in with anything.
-/

namespace Ecma

/-! ## The protocol -/

/-- The key that a request looks up. -/
def Request.lookedUp? : Request → Option PropertyKey
  | get _ k _ => some k
  | _ => none

@[simp] theorem Request.lookedUp?_get (o : ObjectId) (k : PropertyKey) (receiver : Value) :
    (get o k receiver).lookedUp? = some k := rfl

@[simp] theorem Request.lookedUp?_call (f : ObjectId) (this : Value) (args : List Value) :
    (call f this args).lookedUp? = none := rfl

/-- Take a value unless it is an object. -/
def Outcome.refuseObject : Outcome Value → Outcome Value
  | value v => if v.isObject then raise .conversionGaveObject else value v
  | failure e => failure e
  | stopped s => stopped s

namespace Machine

variable {σ : Type}

/-- Whether a value can be called; `none` if there is no such object. -/
def callable? (m : Machine σ) : Value → Option Bool
  | .object f => m.heap.objects[f.index]?.map fun c => c.traits.isCallable
  | _ => some false

/-- How methods of an object are tried one after the other: the requests that are made and how
it ends. -/
inductive Tries (E : Embedder σ) (fuel : Nat) (o : ObjectId) :
    List String → Machine σ → List Request → Outcome Value → Machine σ → Prop
  /-- no method is left -/
  | exhausted (m : Machine σ) : Tries E fuel o [] m [] (.raise .noPrimitive) m
  /-- a lookup that ends without a value ends it all -/
  | lookupEnds {name : String} {rest : List String} {m m' : Machine σ} {x : Outcome Value}
      (hget : execute E fuel (Program.get o (.ofString name)) m = (x, m'))
      (hx : ∀ v, x ≠ .value v) :
      Tries E fuel o (name :: rest) m [.get o (.ofString name) (.object o)] x m'
  /-- so does one that leads to no object of the machine -/
  | dangling {name : String} {rest : List String} {m m' : Machine σ} {v : Value}
      (hget : execute E fuel (Program.get o (.ofString name)) m = (.value v, m'))
      (hv : m'.callable? v = none) :
      Tries E fuel o (name :: rest) m [.get o (.ofString name) (.object o)] (.fault .dangling) m'
  /-- what cannot be called is passed over -/
  | skipped {name : String} {rest : List String} {m m₁ m' : Machine σ} {v : Value}
      {l : List Request} {x : Outcome Value}
      (hget : execute E fuel (Program.get o (.ofString name)) m = (.value v, m₁))
      (hv : m₁.callable? v = some false) (h : Tries E fuel o rest m₁ l x m') :
      Tries E fuel o (name :: rest) m (.get o (.ofString name) (.object o) :: l) x m'
  /-- a call that does not give an object ends it in the same way -/
  | ends {name : String} {rest : List String} {m m₁ m' : Machine σ} {f : ObjectId}
      {x : Outcome Value}
      (hget : execute E fuel (Program.get o (.ofString name)) m = (.value (.object f), m₁))
      (hf : m₁.callable? (.object f) = some true)
      (hcall : execute E fuel (Program.callObject f (.object o) []) m₁ = (x, m'))
      (hx : ∀ v, x = .value v → v.isObject = false) :
      Tries E fuel o (name :: rest) m
        [.get o (.ofString name) (.object o), .call f (.object o) []] x m'
  /-- after an object the other methods are tried -/
  | again {name : String} {rest : List String} {m m₁ m₂ m' : Machine σ} {f : ObjectId}
      {v : Value} {l : List Request} {x : Outcome Value}
      (hget : execute E fuel (Program.get o (.ofString name)) m = (.value (.object f), m₁))
      (hf : m₁.callable? (.object f) = some true)
      (hcall : execute E fuel (Program.callObject f (.object o) []) m₁ = (.value v, m₂))
      (hv : v.isObject = true) (h : Tries E fuel o rest m₂ l x m') :
      Tries E fuel o (name :: rest) m
        (.get o (.ofString name) (.object o) :: .call f (.object o) [] :: l) x m'

variable {E : Embedder σ} {fuel : Nat} {o : ObjectId} {m m₁ m' : Machine σ}

theorem performs_get {k : PropertyKey} {x : Outcome Value}
    (h : execute E fuel (Program.get o k) m = (x, m')) :
    Performs E fuel (Program.get o k) m [.get o k (.object o)] x m' :=
  performs_method h

theorem performs_callObject {f : ObjectId} {this : Value} {args : List Value} {x : Outcome Value}
    (h : execute E fuel (Program.callObject f this args) m = (x, m')) :
    Performs E fuel (Program.callObject f this args) m [.call f this args] x m' :=
  performs_method h

theorem performs_cell (E : Embedder σ) (fuel : Nat) (f : ObjectId) (m : Machine σ) :
    Performs E fuel (Program.cell f) m [] (m.heap.cell f) m := by
  refine (performs_heap m).bind ⟨?_, execute_ofOutcome E fuel _ m⟩
  cases m.heap.cell f <;> rfl

/-- Whether an object can be called is looked up without asking it. -/
theorem performs_isCallableObject (E : Embedder σ) (fuel : Nat) (f : ObjectId) (m : Machine σ) :
    Performs E fuel (Program.isCallableObject f) m []
      ((m.callable? (.object f)).elim (.fault .dangling) .value) m := by
  have hcell := performs_cell E fuel f m
  rw [callable?]
  rcases hf : m.heap.objects[f.index]? with _ | c <;> rw [Heap.cell, hf] at hcell
  · exact (hcell.bind_stopped _).bind_stopped _
  · have htraits : Performs E fuel (Program.traits f) m [] (.value c.traits) m :=
      hcell.bind (performs_pure c.traits m)
    exact htraits.bind (performs_pure c.traits.isCallable m)

/-- A method that can be called is called, and its answer decides whether others are tried. -/
theorem exists_tries_call {f : ObjectId} {name : String} {rest : List String}
    (hget : execute E fuel (Program.get o (.ofString name)) m = (.value (.object f), m₁))
    (hf : m₁.callable? (.object f) = some true)
    (hrest : ∀ m, ∃ l x m', Performs E fuel (Program.tryMethods o rest) m l x m' ∧
      Tries E fuel o rest m l x m') :
    ∃ l x m', Performs E fuel (do
        let result ← Program.callObject f (.object o) []
        if result.isObject then Program.tryMethods o rest else return result) m₁ l x m' ∧
      Tries E fuel o (name :: rest) m (.get o (.ofString name) (.object o) :: l) x m' := by
  rcases hcall : execute E fuel (Program.callObject f (.object o) []) m₁ with ⟨v | e | s, m₂⟩
  · have hcalled := performs_callObject hcall
    cases hv : v.isObject with
    | true =>
      obtain ⟨l, x, m', hperforms, htries⟩ := hrest m₂
      refine ⟨_, x, m', hcalled.bind ?_, .again hget hf hcall hv htries⟩
      rw [hv]
      exact hperforms
    | false =>
      refine ⟨_, .value v, m₂, hcalled.bind ?_, .ends hget hf hcall ?_⟩
      · rw [hv]
        exact performs_pure v m₂
      · rintro _ ⟨⟩
        exact hv
  · exact ⟨_, _, m₂, (performs_callObject hcall).bind_failure _, .ends hget hf hcall nofun⟩
  · exact ⟨_, _, m₂, (performs_callObject hcall).bind_stopped _, .ends hget hf hcall nofun⟩

/-- **Methods are tried** by the rules. -/
theorem exists_tries (E : Embedder σ) (fuel : Nat) (o : ObjectId) (names : List String)
    (m : Machine σ) :
    ∃ l x m', Performs E fuel (Program.tryMethods o names) m l x m' ∧
      Tries E fuel o names m l x m' := by
  -- the methods that are left are tried on the machine that the ones before have left behind
  induction names generalizing m with
  | nil => exact ⟨[], _, m, ⟨rfl, rfl⟩, .exhausted m⟩
  | cons name rest ih =>
    rcases hget : execute E fuel (Program.get o (.ofString name)) m with ⟨v | e | s, m₁⟩
    · have hlookup := performs_get hget
      cases v with
      | object f =>
        have hcallable := performs_isCallableObject E fuel f m₁
        rcases hf : m₁.callable? (.object f) with _ | _ | _ <;> rw [hf] at hcallable
        · exact ⟨_, _, m₁, hlookup.bind (hcallable.bind_stopped _), .dangling hget hf⟩
        · obtain ⟨l, x, m', hrest, htries⟩ := ih m₁
          exact ⟨_, x, m', hlookup.bind (hcallable.bind hrest), .skipped hget hf htries⟩
        · obtain ⟨l, x, m', hcall, htries⟩ := exists_tries_call hget hf ih
          exact ⟨_, x, m', hlookup.bind (hcallable.bind hcall), htries⟩
      | _ =>
        obtain ⟨l, x, m', hrest, htries⟩ := ih m₁
        exact ⟨_, x, m', hlookup.bind hrest, .skipped hget rfl htries⟩
    · exact ⟨_, _, m₁, (performs_get hget).bind_failure _, .lookupEnds hget nofun⟩
    · exact ⟨_, _, m₁, (performs_get hget).bind_stopped _, .lookupEnds hget nofun⟩

/-- The methods are looked up in order, each at most once, and there is at most one call for
each lookup. -/
theorem Tries.lookups {names : List String} {l : List Request} {x : Outcome Value}
    (h : Tries E fuel o names m l x m') :
    l.filterMap Request.lookedUp? <+: names.map .ofString ∧
      l.length ≤ 2 * (l.filterMap Request.lookedUp?).length := by
  induction h with
  | exhausted m => simp
  | lookupEnds hget hx => simp
  | dangling hget hv => simp
  | skipped hget hv h ih =>
    simp only [List.filterMap_cons, Request.lookedUp?_get, List.length_cons]
    exact ⟨(List.prefix_cons_inj _).mpr ih.1, by omega⟩
  | ends hget hf hcall hx => simp [List.filterMap_cons]
  | again hget hf hcall hv h ih =>
    simp only [List.filterMap_cons, Request.lookedUp?_get, Request.lookedUp?_call,
      List.length_cons]
    exact ⟨(List.prefix_cons_inj _).mpr ih.1, by omega⟩

/-! ## Objects -/

/-- A program that only looks makes no request. -/
theorem requests_of_quiet {α : Type} {p : Program σ α} (hp : p.Quiet) (m : Machine σ) :
    requests E fuel p m = [] := by
  induction p generalizing m with
  | done a => rfl
  | fail e => rfl
  | stop s => rfl
  | step e k ih =>
    obtain ⟨rfl | rfl, hk⟩ := hp
    · exact ih _ (hk _) m
    · exact ih _ (hk _) m

theorem requests_bind_of_quiet {α β : Type} (p : Program σ α) {f : α → Program σ β}
    (hf : ∀ a, (f a).Quiet) (m : Machine σ) :
    requests E fuel (p >>= f) m = requests E fuel p m := by
  rw [requests_bind]
  rcases execute E fuel p m with ⟨a | e | s, m'⟩
  · dsimp only
    rw [requests_of_quiet (hf a), List.append_nil]
  · exact List.append_nil _
  · exact List.append_nil _

theorem performs_toObject {v : Value}
    (h : execute E fuel (Program.toObject v) m = (.value o, m')) :
    Performs E fuel (Program.toObject v) m [] (.value o) m' := by
  refine ⟨?_, h⟩
  cases v with
  | undefined => rfl
  | null => rfl
  | object o => rfl
  | _ => exact Program.log_effect _ _ _ m

/-- To find a method is to look it up once, on the object that the value is or becomes. -/
theorem performs_getMethod_of {v : Value} {k : PropertyKey} {x : Outcome (Option ObjectId)}
    (hobject : execute E fuel (Program.toObject v) m = (.value o, m₁))
    (h : execute E fuel (Program.getMethod v k) m = (x, m')) :
    Performs E fuel (Program.getMethod v k) m [.get o k v] x m' := by
  refine ⟨?_, h⟩
  have hget : requests E fuel (Program.getV v k) m = [.get o k v] :=
    ((performs_toObject hobject).bind (performs_method rfl)).requests
  rw [← hget]
  refine requests_bind_of_quiet (Program.getV v k) (fun w => ?_) m
  cases w with
  | object f =>
    have hcallable : (Program.isCallableObject f : Program σ Bool).Quiet :=
      (Program.quiet_traits f).bind fun t => trivial
    refine hcallable.bind fun callable => ?_
    cases callable <;> trivial
  | _ => trivial

theorem performs_getMethod {k : PropertyKey} {x : Outcome (Option ObjectId)}
    (h : execute E fuel (Program.getMethod (.object o) k) m = (x, m')) :
    Performs E fuel (Program.getMethod (.object o) k) m [.get o k (.object o)] x m' :=
  performs_getMethod_of rfl h

/-- **How an object becomes a primitive value.** -/
structure ConvertsByProtocol (E : Embedder σ) (fuel : Nat) (o : ObjectId) (hint : Hint)
    (m : Machine σ) : Prop where
  /-- a conversion method of its own is called once with the name of the hint, and its answer is
  taken unless it is an object -/
  method : ∀ f m₁,
    execute E fuel (Program.getMethod (.object o) (.wellKnown .toPrimitive)) m =
      (.value (some f), m₁) →
    ∃ x m', execute E fuel (Program.callObject f (.object o) [.string hint.name]) m₁ = (x, m') ∧
      Performs E fuel (Program.toPrimitive (.object o) hint) m
        [.get o (.wellKnown .toPrimitive) (.object o), .call f (.object o) [.string hint.name]]
        x.refuseObject m'
  /-- without one the methods are tried that the hint names, in its order -/
  ordinary : ∀ m₁,
    execute E fuel (Program.getMethod (.object o) (.wellKnown .toPrimitive)) m =
      (.value none, m₁) →
    ∃ l x m', Performs E fuel (Program.toPrimitive (.object o) hint) m
        (.get o (.wellKnown .toPrimitive) (.object o) :: l) x m' ∧
      Tries E fuel o hint.methodNames m₁ l x m' ∧
      l.filterMap Request.lookedUp? <+: hint.methodNames.map .ofString ∧
      l.length ≤ 2 * (l.filterMap Request.lookedUp?).length
  /-- if looking for it fails, nothing else is asked -/
  fails : ∀ e m',
    execute E fuel (Program.getMethod (.object o) (.wellKnown .toPrimitive)) m = (.failure e, m') →
    Performs E fuel (Program.toPrimitive (.object o) hint) m
      [.get o (.wellKnown .toPrimitive) (.object o)] (.failure e) m'

theorem convertsByProtocol (E : Embedder σ) (fuel : Nat) (o : ObjectId) (hint : Hint)
    (m : Machine σ) : ConvertsByProtocol E fuel o hint m where
  method f m₁ hmethod := by
    have hfound := performs_getMethod hmethod
    rcases hcall : execute E fuel (Program.callObject f (.object o) [.string hint.name]) m₁ with
      ⟨v | e | s, m'⟩
    · refine ⟨_, m', rfl, hfound.bind ((performs_callObject hcall).bind ?_)⟩
      rw [Outcome.refuseObject]
      split <;> exact ⟨rfl, rfl⟩
    · exact ⟨_, m', rfl, hfound.bind ((performs_callObject hcall).bind_failure _)⟩
    · exact ⟨_, m', rfl, hfound.bind ((performs_callObject hcall).bind_stopped _)⟩
  ordinary m₁ hmethod := by
    obtain ⟨l, x, m', hperforms, htries⟩ := exists_tries E fuel o hint.methodNames m₁
    exact ⟨l, x, m', (performs_getMethod hmethod).bind hperforms, htries, htries.lookups⟩
  fails e m' hmethod := (performs_getMethod hmethod).bind_failure _

end Machine

namespace Program

variable {σ α : Type}

/-! ## Values -/

theorem toPrimitive_of_not_isObject {v : Value} (hv : v.isObject = false) (hint : Hint) :
    (toPrimitive v hint : Program σ Value) = pure v := by
  cases v <;> first | rfl | cases hv

/-- What a value becomes is never an object. -/
theorem returns_toPrimitive (v : Value) (hint : Hint) :
    (toPrimitive v hint : Program σ Value).Returns fun w => w.isObject = false := by
  cases v with
  | object o => exact returns_objectToPrimitive o hint
  | _ => rfl

/-- One round of a conversion that is told by recursion: a primitive value is converted by the
rule, an object is replaced by what it becomes and `again` goes on. -/
def convertRound (hint : Hint) (rule : Value → Except Cause α) (again : Value → Program σ α)
    (v : Value) : Program σ α :=
  if v.isObject then do again (← toPrimitive v hint) else ofExcept (rule v)

/-- **Two rounds** of a conversion are all that is needed. -/
theorem convertRound_two (hint : Hint) (rule : Value → Except Cause α)
    (again : Value → Program σ α) (v : Value) :
    convertRound hint rule (convertRound hint rule again) v =
      (toPrimitive v hint).bind fun p => ofExcept (rule p) := by
  have hprimitive : ∀ p : Value, p.isObject = false →
      convertRound hint rule again p = ofExcept (rule p) := by
    intro p hp
    rw [convertRound, hp, if_neg Bool.false_ne_true]
  cases hv : v.isObject with
  | true =>
    rw [convertRound, hv, if_pos rfl]
    exact (returns_toPrimitive v hint).bind_congr hprimitive
  | false =>
    rw [convertRound, hv, if_neg Bool.false_ne_true, toPrimitive_of_not_isObject hv]
    rfl

/-- The numeric of a value as a value: an integer that the value becomes, and otherwise the
number that this becomes by a further conversion. -/
def numericValue (again : Value → Program σ Double) (v : Value) : Program σ Value := do
  match ← toPrimitive v .number with
  | .bigint n => return .bigint n
  | p => return .number (← convertRound .number Value.primitiveToNumber again p)

/-- The further conversion is one of a primitive value. -/
theorem numericValue_eq (again : Value → Program σ Double) (v : Value) :
    numericValue again v = (toNumeric v).bind fun n => pure n.toValue := by
  rw [toNumeric, bind_eq, bind_assoc]
  refine (returns_toPrimitive v .number).bind_congr fun p hp => ?_
  cases p <;> cases hp <;> rfl

/-- The order of two primitive values, told by cases of the numerics that they become;
`otherwise` is for what is not a numeric. -/
def comparePrimitives (again : Value → Program σ Double) (otherwise : Program σ (Option Bool))
    (p q : Value) : Program σ (Option Bool) :=
  match p, q with
  | .string a, .string b => pure (some (Text.compareText a b = .lt))
  | .bigint a, .string b => pure ((stringToBigInt b).map fun b => a < b)
  | .string a, .bigint b => pure ((stringToBigInt a).map fun a => a < b)
  | p, q => do
    let a ← numericValue again p
    let b ← numericValue again q
    match a, b with
    | .number a, .number b =>
      return if a.isNaN || b.isNaN then none else some (a.lessThan b)
    | .bigint a, .bigint b => return some (a < b)
    | .bigint a, .number b => return (Double.compareInt a b).map (· = .lt)
    | .number a, .bigint b => return (Double.compareInt b a).map (· = .gt)
    | _, _ => otherwise

/-- The order of two values, told in the same way. -/
def compareWith (again : Value → Program σ Double) (otherwise : Program σ (Option Bool))
    (x y : Value) (leftFirst : Bool) : Program σ (Option Bool) := do
  if leftFirst then
    let p ← toPrimitive x .number
    let q ← toPrimitive y .number
    comparePrimitives again otherwise p q
  else
    let q ← toPrimitive y .number
    let p ← toPrimitive x .number
    comparePrimitives again otherwise p q

variable (again : Value → Program σ Double) (otherwise : Program σ (Option Bool))

theorem comparePrimitives_eq {p q : Value} (hp : p.isObject = false) (hq : q.isObject = false) :
    comparePrimitives again otherwise p q = ofExcept (p.lessThan q) := by
  cases p <;> cases hp <;> cases q <;> cases hq <;> rfl

/-- **Nothing else than numerics** is compared. -/
theorem compareWith_eq (x y : Value) (leftFirst : Bool) :
    compareWith again otherwise x y leftFirst = compare x y leftFirst := by
  cases leftFirst with
  | true =>
    refine (returns_toPrimitive x .number).bind_congr fun p hp => ?_
    exact (returns_toPrimitive y .number).bind_congr fun q hq =>
      comparePrimitives_eq again otherwise hp hq
  | false =>
    refine (returns_toPrimitive y .number).bind_congr fun q hq => ?_
    exact (returns_toPrimitive x .number).bind_congr fun p hp =>
      comparePrimitives_eq again otherwise hp hq

/-- **Coercion is well behaved** whatever the code outside does.

* What a value becomes is not an object. A value that is none becomes itself.
* An object is asked by the protocol: its own conversion method is the only one that is called
  if it has one; otherwise the two methods that the hint names are tried in its order, each
  looked up at most once and called at most once, and the second only if the first cannot be
  called or gave an object. What ends without a value ends the conversion in the same way and
  nothing else is asked.
* The conversions that are told by recursion go one round deep, whatever a second round would
  do, and a numeric is a number or an integer. So the order of two values never has to compare
  anything else. -/
theorem coercion_well_behaved :
    (∀ (E : Embedder σ) (fuel : Nat) (m m' : Machine σ) (v w : Value) (hint : Hint),
      Machine.execute E fuel (toPrimitive v hint) m = (.value w, m') → w.isObject = false) ∧
    (∀ (v : Value) (hint : Hint), v.isObject = false →
      (toPrimitive v hint : Program σ Value) = pure v) ∧
    (∀ (E : Embedder σ) (fuel : Nat) (o : ObjectId) (hint : Hint) (m : Machine σ),
      Machine.ConvertsByProtocol E fuel o hint m) ∧
    (∀ (again : Value → Program σ Double) (v : Value),
      convertRound .number Value.primitiveToNumber
        (convertRound .number Value.primitiveToNumber again) v = toNumber v) ∧
    (∀ (again : Value → Program σ String) (v : Value),
      convertRound .string Value.primitiveToString
        (convertRound .string Value.primitiveToString again) v = toText v) ∧
    (∀ (again : Value → Program σ Double) (v : Value),
      (numericValue again v = do return (← toNumeric v).toValue) ∧
      (numericValue again v).Returns fun w => (∃ n, w = .number n) ∨ ∃ n, w = .bigint n) ∧
    ∀ (again : Value → Program σ Double) (otherwise : Program σ (Option Bool)) (x y : Value)
      (leftFirst : Bool), compareWith again otherwise x y leftFirst = compare x y leftFirst := by
  refine ⟨fun E fuel m m' v w hint hrun => (returns_toPrimitive v hint).run hrun,
    fun v hint hv => toPrimitive_of_not_isObject hv hint, Machine.convertsByProtocol,
    fun again v => convertRound_two _ _ again v, fun again v => convertRound_two _ _ again v,
    fun again v => ⟨numericValue_eq again v, ?_⟩, compareWith_eq⟩
  rw [numericValue_eq]
  refine (returns_true _).bind fun n _ => ?_
  cases n with
  | number x => exact .inl ⟨x, rfl⟩
  | bigint n => exact .inr ⟨n, rfl⟩

/-- The method that is tried first replaces the one that is tried next, and gives an object. The
second one is the one that is there by then. -/
theorem coercion_well_behaved_reentrant :
    let E : Embedder (List String) :=
      { (default : Embedder (List String)) with
        call := fun code this _ => do
          let calls ← load
          if code.index = 0 then
            store (calls ++ ["valueOf"])
            let _ ← defineOwnProperty ⟨11⟩ (.string "toString")
              (.data (.object ⟨13⟩) true true true)
            return this
          else
            store (calls ++ ["toString"])
            return .string "s" }
    let p : Program (List String) Bool := do
      let o ← allocate (.ordinary none "Object" none false)
      let f ← allocate (.function "valueOf" 0 ⟨0⟩ none)
      let _ ← allocate (.function "toString" 0 ⟨1⟩ none)
      defineOwnProperty o (.string "valueOf") (.data (.object f) true true true)
    let m := (Machine.execute E 2 p (.initial {} [])).2
    ∃ m₁ l m', Machine.Performs E 9 (toPrimitive (.object ⟨11⟩) .number) m
        (.get ⟨11⟩ (.wellKnown .toPrimitive) (.object ⟨11⟩) :: l) (.value (.string "s")) m' ∧
      Machine.Tries E 9 ⟨11⟩ ["valueOf", "toString"] m₁ l (.value (.string "s")) m' ∧
      m'.host = ["valueOf", "toString"] := by
  intro E p m
  have hnone : (match (Machine.execute E 9
        (getMethod (.object ⟨11⟩) (.wellKnown .toPrimitive)) m).1 with
      | .value none => true
      | _ => false) = true := by decide +kernel
  have hend : (match Machine.execute E 9 (toPrimitive (.object ⟨11⟩) .number) m with
      | (.value v, m') => decide (v = .string "s") && decide (m'.host = ["valueOf", "toString"])
      | _ => false) = true := by decide +kernel
  rcases hmethod : Machine.execute E 9 (getMethod (.object ⟨11⟩) (.wellKnown .toPrimitive)) m with
    ⟨(_ | f) | e | s, m₁⟩ <;> rw [hmethod] at hnone
  · obtain ⟨l, x, m', hperforms, htries, -, -⟩ :=
      (coercion_well_behaved.2.2.1 E 9 ⟨11⟩ .number m).ordinary m₁ hmethod
    rw [hperforms.execute] at hend
    rcases x with v | e | s
    · simp only [Bool.and_eq_true, decide_eq_true_eq] at hend
      obtain ⟨rfl, hhost⟩ := hend
      exact ⟨m₁, l, m', hperforms, htries, hhost⟩
    all_goals cases hend
  all_goals cases hnone

end Program

end Ecma
