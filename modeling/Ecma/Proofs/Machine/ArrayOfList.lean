import Ecma.Operation.List
import Ecma.Proofs.Machine.DataProperty
import Ecma.Proofs.Number.IntegerConversion
import Ecma.Proofs.Object.ArrayLength
import Ecma.Proofs.Object.KeyOrder

/-!
# Lists as arrays

The array of a list is made by appending the values one after the other. Each one is an element
just beyond the end, so it raises the length by one. **The invariant** (`Object.Lists`) ties the
length, the elements and the names of the array to the values that were appended so far, whatever
the indexed map makes of it; as long as the length fits, the next value is accepted
(`Lists.append`).

An array that lists values has all that is asked for when they are read back, so that nothing is
looked for along its prototype chain (`execute_readElements`).
-/

namespace Ecma

theorem PropertyKey.ofNat_eq_index {i : Nat} (hi : i < maxArrayLength) : ofNat i = .index i := by
  have hindex : isIndex i = true :=
    decide_eq_true (hi.trans (show maxArrayLength < maxLength by decide))
  rw [ofNat, if_pos hindex]

theorem Double.toLength_ofNat {n : Nat} (hn : n < maxLength) : (ofNat n).toLength = n := by
  have hexact : n < 2 ^ 53 := by
    simp only [maxLength] at hn
    omega
  have hholds := (toInteger_of_isFinite (isFinite_ofNat hexact)).2
  rw [truncate_ofNat hexact] at hholds
  have hfinite := isInfinite_of_isFinite hholds.isFinite
  simp only [toLength, hfinite, Bool.false_eq_true, if_false, hholds.truncate, Int.toNat_natCast]
  exact Nat.min_eq_left hn.le

namespace Object

/-! ## Appending a value -/

/-- The object is an array that has the values of a list as its elements, a length, and nothing
else. -/
structure Lists (s : Object) (vs : List Value) : Prop where
  kind : s.kind = .array
  extensible : s.extensible = true
  length : s.own? lengthKey = some (lengthProperty vs.length)
  element : ∀ i, s.own? (.index i) = vs[i]?.map (.data · true true true)
  names : ∀ p, s.names p = [lengthKey].filter p

variable {s : Object} {vs : List Value}

theorem lists_newArray (prototype : Option ObjectId) : (newArray 0 prototype).Lists [] where
  kind := rfl
  extensible := rfl
  length := by rw [newArray, own?_put, if_pos rfl]; rfl
  element i := by rw [newArray, own?_put, if_neg (lengthKey_ne_index i).symm, own?_new]; rfl
  names p := by
    rw [newArray, names_put, List.filter_singleton]
    cases p lengthKey <;> rfl

theorem Lists.hasLength (h : s.Lists vs) (hle : vs.length ≤ PropertyKey.maxArrayLength) :
    s.HasLength vs.length true where
  own? := h.length
  le := hle
  lt i _ hi := by
    rw [h.element, Option.isSome_map] at hi
    exact (List.getElem?_eq_some_iff.mp (Option.eq_some_of_isSome hi)).1

/-- The keys are those of the elements and then the length. -/
theorem Lists.keys_eq (h : s.Lists vs) :
    s.keys = (List.range vs.length).map .index ++ [lengthKey] := by
  have hindices : s.properties.indexed.keys = List.range vs.length := by
    refine s.properties.indexed.pairwise_keys.eq_of_mem_iff List.pairwise_lt_range fun i => ?_
    rw [IndexedMap.mem_keys, List.mem_range]
    have hi : s.properties.indexed.get? i = vs[i]?.map (.data · true true true) := h.element i
    rw [hi, Option.isSome_map, isSome_getElem?]
  have hstrings : s.properties.named.keysWhere (fun k => !k.isSymbol) = [lengthKey] := h.names _
  have hsymbols : s.properties.named.keysWhere PropertyKey.isSymbol = [] := h.names _
  rw [keys, PropertyTable.keys, hindices, hstrings, hsymbols, List.append_nil]

/-- **Appending.** The element just beyond the end is accepted and raises the length. -/
theorem Lists.append (h : s.Lists vs) (hlt : vs.length < PropertyKey.maxArrayLength) (v : Value) :
    ∃ s', s.defineInArray (.index vs.length) (.data v true true true) = (true, s') ∧
      s'.Lists (vs ++ [v]) := by
  have hlength := h.hasLength hlt.le
  have hnew : s.own? (.index vs.length) = none := by
    rw [h.element, List.getElem?_eq_none le_rfl, Option.map_none]
  have hdefine := s.define_data (.index vs.length) v
  rw [if_pos (accepts_iff.mpr (.inr ⟨hnew, h.extensible⟩))] at hdefine
  refine ⟨(s.put (.index vs.length) (.data v true true true)).put lengthKey
    (lengthProperty (vs.length + 1)), ?_, ?_⟩
  · have hindex := PropertyKey.arrayIndex?_eq_some.mpr ⟨rfl, hlt⟩
    simp only [defineInArray, hindex, defineElement, hlength.ownLength_eq, hlength.length_eq,
      hdefine]
    rw [if_neg (by simp [Property.isWritable, Property.data]), if_pos le_rfl]
    rfl
  · refine ⟨h.kind, h.extensible, ?_, fun i => ?_, fun p => ?_⟩
    · rw [own?_put, if_pos rfl, List.length_append]
      rfl
    · rw [own?_put, if_neg (lengthKey_ne_index i).symm, own?_put, h.element]
      split
      · next hi =>
        obtain rfl := PropertyKey.index.inj hi
        rw [List.getElem?_concat_length, Option.map_some]
      · next hi =>
        have hne : i ≠ vs.length := fun heq => hi (heq ▸ rfl)
        rcases Nat.lt_or_gt_of_ne hne with hbelow | habove
        · rw [List.getElem?_append_left hbelow]
        · rw [List.getElem?_eq_none habove.le, List.getElem?_eq_none]
          rw [List.length_append, List.length_singleton]
          exact habove
    · have hthere : (s.put (.index vs.length) (.data v true true true)).own? lengthKey ≠ none := by
        rw [own?_put, if_neg (lengthKey_ne_index _), h.length]
        exact Option.some_ne_none _
      rw [names_put, if_neg fun hnew => hthere hnew.2.2, names_put_index, h.names]

end Object

/-- The requests that append values to an array whose next free index is `i`. -/
def Request.appends (a : ObjectId) (i : Nat) (vs : List Value) : List Request :=
  (vs.zipIdx i).map fun e => .defineOwnProperty a (.index e.2) (.data e.1 true true true)

namespace Machine

variable {σ : Type} {m : Machine σ} {a : ObjectId} {s : Object} {vs : List Value}

/-! ## Writing -/

/-- One value is appended by one request, which the array answers by itself. -/
theorem append_value (ha : m.heap.objects[a.index]? = some (.object s)) (h : s.Lists vs)
    (hlt : vs.length < PropertyKey.maxArrayLength) (v : Value) :
    ∃ s', s'.Lists (vs ++ [v]) ∧ ∀ (E : Embedder σ) (fuel : Nat),
      execute E (fuel + 1) (Program.createDataPropertyOrThrow a (.ofNat vs.length) v) m =
          (.value (), m.setObject a s') ∧
        consulted E (fuel + 1) (Program.createDataPropertyOrThrow a (.ofNat vs.length) v) m =
          [.defineOwnProperty a (.index vs.length) (.data v true true true)] := by
  obtain ⟨s', hdefine, hlists⟩ := h.append hlt v
  refine ⟨s', hlists, fun E fuel => ?_⟩
  have hkey := Object.lengthKey_ne_index vs.length
  have hrun := execute_defineInArray E ha fuel h.kind hkey.symm (.data v true true true)
  rw [hdefine] at hrun
  rw [PropertyKey.ofNat_eq_index hlt]
  have hasked : consulted E (fuel + 1)
      (Program.defineOwnProperty a (.index vs.length) (.data v true true true)) m =
        [.defineOwnProperty a (.index vs.length) (.data v true true true)] := by
    refine (consulted_method _).trans (congrArg _ ((within_object ha fuel).trans ?_))
    rw [nestedIn, if_neg fun hk => hkey hk.2.symm]
    rfl
  exact ⟨execute_bind hrun _, (consulted_bind hrun _).trans (congrArg (· ++ []) hasked)⟩

/-- **Appending.** Values are appended one after the other, each by one request to the array. -/
theorem append_values (ha : m.heap.objects[a.index]? = some (.object s)) (h : s.Lists vs)
    (rest : List Value) (hle : vs.length + rest.length ≤ PropertyKey.maxArrayLength) :
    ∃ s', s'.Lists (vs ++ rest) ∧ ∀ (E : Embedder σ) (fuel : Nat),
      execute E (fuel + 1) (Program.appendValues a vs.length rest) m =
          (.value (), m.setObject a s') ∧
        consulted E (fuel + 1) (Program.appendValues a vs.length rest) m =
          Request.appends a vs.length rest := by
  -- the array lists what was appended before
  induction rest generalizing m s vs with
  | nil =>
    refine ⟨s, by rwa [List.append_nil], fun E fuel => ⟨?_, rfl⟩⟩
    rw [setObject_self ha]
    rfl
  | cons v rest ih =>
    rw [List.length_cons] at hle
    obtain ⟨s₁, hlists, hfirst⟩ := append_value ha h (by omega) v
    obtain ⟨s', hlists', hrest⟩ := ih (getElem?_setObject ha s₁) hlists
      (by rw [List.length_append, List.length_singleton]; omega)
    refine ⟨s', by rwa [List.append_assoc] at hlists', fun E fuel => ?_⟩
    obtain ⟨hrun, hconsulted⟩ := hfirst E fuel
    obtain ⟨hrun', hconsulted'⟩ := hrest E fuel
    rw [setObject_setObject, List.length_append, List.length_singleton] at hrun'
    rw [List.length_append, List.length_singleton] at hconsulted'
    refine ⟨(execute_bind hrun _).trans hrun', ?_⟩
    rw [Program.appendValues, consulted_bind hrun, hconsulted, hconsulted']
    rfl

/-- The array of a list is a new object, and no object but this one is asked for anything. -/
theorem create_array_from_list
    (hproto : Intrinsic.arrayPrototype.id.index < m.heap.objects.size)
    (hle : vs.length ≤ PropertyKey.maxArrayLength) :
    ∃ s, s.Lists vs ∧ ∀ (E : Embedder σ) (fuel : Nat),
      execute E (fuel + 1) (Program.createArrayFromList vs) m = (.value m.fresh, m.grow s) ∧
        consulted E (fuel + 1) (Program.createArrayFromList vs) m =
          Request.appends m.fresh 0 vs := by
  let empty := Object.newArray 0 (some Intrinsic.arrayPrototype.id)
  have hnew : ∀ (E : Embedder σ) fuel,
      execute E fuel (Program.createArray 0 none) m = (.value m.fresh, m.grow empty) := by
    intro E fuel
    refine execute_allocate E fuel rfl fun p hp => ?_
    obtain rfl := Option.some.inj hp
    exact hproto
  obtain ⟨s, hlists, hrun⟩ := append_values (m.getElem?_grow_fresh empty)
    (Object.lists_newArray _) vs (by rwa [List.length_nil, Nat.zero_add])
  refine ⟨s, hlists, fun E fuel => ?_⟩
  obtain ⟨hrun, hconsulted⟩ := hrun E fuel
  rw [setObject_grow, List.length_nil] at hrun
  rw [List.length_nil] at hconsulted
  refine ⟨(execute_bind (hnew E _) _).trans (execute_bind hrun _), ?_⟩
  have hquiet : consulted E (fuel + 1) (Program.createArray 0 none) m = [] :=
    Program.log_effect _ _ _ m
  rw [Program.createArrayFromList, consulted_bind (hnew E _), consulted_bind hrun, hquiet,
    hconsulted]
  exact List.append_nil _

/-! ## Reading -/

/-- **Reading.** The elements of an array that lists values are read one after the other, up to
the first whose type is not allowed. -/
theorem execute_readElements (E : Embedder σ) (fuel : Nat)
    (ha : m.heap.objects[a.index]? = some (.object s)) {rest : List Value}
    (h : s.Lists (vs ++ rest)) (hle : (vs ++ rest).length ≤ PropertyKey.maxArrayLength)
    (types : Option (List ValueType)) :
    execute E (fuel + 2) (Program.readElements a types rest.length vs.length vs.reverse) m =
      (if rest.all fun v => types.all fun allowed => v.type ∈ allowed then .value (vs ++ rest)
        else .raise .elementType, m) := by
  induction rest generalizing vs with
  | nil =>
    rw [List.append_nil, List.all_nil, if_pos rfl]
    exact congrArg (fun l => (Outcome.value l, m)) vs.reverse_reverse
  | cons v rest ih =>
    have hlt : vs.length < PropertyKey.maxArrayLength := by
      rw [List.length_append, List.length_cons] at hle
      omega
    have hown : s.own? (.index vs.length) = some (.data v true true true) := by
      rw [h.element, List.getElem?_append_right le_rfl, Nat.sub_self]
      rfl
    have hget := execute_get_own E ha fuel hown rfl
    rw [← PropertyKey.ofNat_eq_index hlt] at hget
    rw [List.length_cons, Program.readElements, execute_bind hget, List.all_cons]
    split
    · next htype =>
      rw [List.append_cons] at h hle ⊢
      have hrest := ih h hle
      rw [List.length_append, List.length_singleton, List.reverse_append] at hrest
      rw [htype, Bool.true_and]
      exact hrest
    · next htype =>
      rw [Bool.eq_false_iff.mpr htype, Bool.false_and]
      rfl

theorem execute_createListFromArrayLike (E : Embedder σ) (fuel : Nat)
    (ha : m.heap.objects[a.index]? = some (.object s)) (h : s.Lists vs)
    (hle : vs.length ≤ PropertyKey.maxArrayLength) (types : Option (List ValueType)) :
    execute E (fuel + 2) (Program.createListFromArrayLike (.object a) types) m =
      (if m.options.maxArguments < vs.length then .raise .tooManyArguments
        else if vs.all fun v => types.all fun allowed => v.type ∈ allowed then .value vs
        else .raise .elementType, m) := by
  have hget : execute E (fuel + 2) (Program.get a (.string "length")) m =
      (.value (.number (.ofNat vs.length)), m) := execute_get_own E ha fuel h.length rfl
  have hlength : execute E (fuel + 2) (Program.toLength (.number (.ofNat vs.length))) m =
      (.value vs.length, m) := by
    have hlt : vs.length < maxLength := hle.trans_lt (by decide)
    exact congrArg (fun n => (Outcome.value n, m)) (Double.toLength_ofNat hlt)
  have hoptions : execute E (fuel + 2) Program.options m = (.value m.options, m) :=
    Program.run_effect _ _ m
  rw [Program.createListFromArrayLike, execute_bind hget, execute_bind hlength,
    execute_bind hoptions]
  split
  · rfl
  · have h : s.Lists ([] ++ vs) := h
    exact execute_readElements E fuel ha h hle types

/-! ## There and back -/

theorem all_allowed_iff {types : Option (List ValueType)} :
    (vs.all fun v => types.all fun allowed => v.type ∈ allowed) = true ↔
      ∀ allowed ∈ types, ∀ v ∈ vs, v.type ∈ allowed := by
  cases types <;> simp

/-- **There and back.** The array of a list that is not too long has its length and its elements,
and nothing else; it is made by requests to itself alone, whatever it inherits. Read as a list again
it gives the same values, unless there are more of them than a call may have arguments, or one has a
type that is not allowed. -/
theorem list_round_trip (hproto : Intrinsic.arrayPrototype.id.index < m.heap.objects.size)
    (hle : vs.length ≤ 2 ^ 32 - 1) :
    ∃ (a : ObjectId) (s : Object) (m' : Machine σ),
      (∀ (E : Embedder σ) (fuel : Nat),
        execute E (fuel + 1) (Program.createArrayFromList vs) m = (.value a, m') ∧
        consulted E (fuel + 1) (Program.createArrayFromList vs) m = Request.appends a 0 vs) ∧
      m' = m.grow s ∧ m'.heap.objects[a.index]? = some (.object s) ∧ s.kind = .array ∧
      s.length = vs.length ∧ s.keys = (List.range vs.length).map .index ++ [Object.lengthKey] ∧
      ∀ (E : Embedder σ) (fuel : Nat) (types : Option (List ValueType)),
        (m.options.maxArguments < vs.length → ∃ c, c.kind = .range ∧
          execute E (fuel + 2) (Program.createListFromArrayLike (.object a) types) m' =
            (.raise c, m')) ∧
        (vs.length ≤ m.options.maxArguments →
          (∀ allowed ∈ types, ∀ v ∈ vs, v.type ∈ allowed) →
          execute E (fuel + 2) (Program.createListFromArrayLike (.object a) types) m' =
            (.value vs, m')) ∧
        (vs.length ≤ m.options.maxArguments →
          (∃ allowed ∈ types, ∃ v ∈ vs, v.type ∉ allowed) → ∃ c, c.kind = .type ∧
          execute E (fuel + 2) (Program.createListFromArrayLike (.object a) types) m' =
            (.raise c, m')) := by
  obtain ⟨s, hlists, hcreate⟩ := create_array_from_list hproto hle
  have ha := m.getElem?_grow_fresh s
  have hread := fun E fuel types =>
    execute_createListFromArrayLike (σ := σ) E fuel ha hlists hle types
  refine ⟨m.fresh, s, m.grow s, hcreate, rfl, ha, hlists.kind, (hlists.hasLength hle).length_eq,
    hlists.keys_eq, fun E fuel types =>
      ⟨fun hmany => ?_, fun hfew hall => ?_, fun hfew hsome => ?_⟩⟩
  · have hmany : (m.grow s).options.maxArguments < vs.length := hmany
    have hraise := hread E fuel types
    rw [if_pos hmany] at hraise
    exact ⟨.tooManyArguments, rfl, hraise⟩
  · have hfew : ¬ (m.grow s).options.maxArguments < vs.length := Nat.not_lt.mpr hfew
    have hvalue := hread E fuel types
    rw [if_neg hfew, if_pos (all_allowed_iff.mpr hall)] at hvalue
    exact hvalue
  · have hfew : ¬ (m.grow s).options.maxArguments < vs.length := Nat.not_lt.mpr hfew
    obtain ⟨allowed, htypes, v, hv, hnot⟩ := hsome
    have hfails : ¬ ∀ allowed ∈ types, ∀ v ∈ vs, v.type ∈ allowed := fun hall =>
      hnot (hall allowed htypes v hv)
    have hraise := hread E fuel types
    rw [if_neg hfew, if_neg (mt all_allowed_iff.mp hfails)] at hraise
    exact ⟨.elementType, rfl, hraise⟩

/-- Two values of different types, the inherited property at the first index being a setter. -/
theorem list_round_trip_below_setter :
    let E : Embedder Unit := default
    let p : Program Unit Bool := do
      let f ← Program.allocate (.function "set" 1 ⟨0⟩ none)
      Program.defineOwnProperty Intrinsic.arrayPrototype.id (.index 0)
        (.accessor none (some f) true true)
    let m := (execute E 1 p (initial {} ())).2
    ∃ a m' c, execute E 1 (Program.createArrayFromList [.null, .boolean true]) m =
        (.value a, m') ∧
      execute E 2 (Program.createListFromArrayLike (.object a) none) m' =
        (.value [.null, .boolean true], m') ∧
      c.kind = .type ∧
      execute E 2 (Program.createListFromArrayLike (.object a) (some [.null])) m' =
        (.raise c, m') := by
  intro E p m
  have hproto : Intrinsic.arrayPrototype.id.index < m.heap.objects.size := by decide +kernel
  have hfew : [Value.null, .boolean true].length ≤ m.options.maxArguments := by decide +kernel
  have hle : [Value.null, .boolean true].length ≤ 2 ^ 32 - 1 := by decide
  obtain ⟨a, s, m', hcreate, -, -, -, -, -, hread⟩ := list_round_trip hproto hle
  obtain ⟨-, hsame, -⟩ := hread E 0 none
  obtain ⟨-, -, hrefused⟩ := hread E 0 (some [.null])
  obtain ⟨c, hc, hraise⟩ := hrefused hfew ⟨_, rfl, .boolean true, by decide, by decide⟩
  exact ⟨a, m', c, (hcreate E 0).1, hsame hfew nofun, hc, hraise⟩

end Machine

end Ecma
