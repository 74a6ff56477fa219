import Ecma.Proofs.Machine.ObjectState
import Ecma.Proofs.Machine.Promises
import Ecma.Proofs.Object.Truncation
import Ecma.Proofs.Object.Validation

/-!
# Asking an object for another property

A request to change a property runs no code unless it gives an array another length. It is
then the rule for properties that decides, and what it leaves is what was asked for
(`define_own_property_by_rule`).

An array whose length is to change first converts the value that it is given. If this gives a
number that is no length, the request fails; if the number is below the present length, the
array is cut off (`shrinking_length`).
-/

namespace Ecma

namespace Machine

variable {σ : Type} {m : Machine σ} {o : ObjectId} {s : Object} {k : PropertyKey} {d : Descriptor}

/-! ## Objects other than arrays -/

/-- **The rule for properties.** A request to an object that is not an array runs no code, and
is granted exactly if it is permitted.

If it is refused, nothing changes. If it is granted, the object has the property that was asked
for, and everything else about the object is as it was: its other properties, the order of the
keys that it had, whether it is extensible, and its prototype. The same request is then granted
again and changes nothing. -/
theorem define_own_property_by_rule (ho : m.heap.cell o = .value (.object s))
    (hs : s.kind ≠ .array) (k : PropertyKey) (hd : d.WellFormed) :
    ∃ granted s',
      (∀ (E : Embedder σ) (fuel : Nat),
        execute E (fuel + 1) (Program.defineOwnProperty o k d) m =
          (.value granted, m.setObject o s')) ∧
      (granted = true ↔ d.Permits s.extensible (s.own? k)) ∧
      (granted = false → m.setObject o s' = m) ∧
      s.AlikeBut k s' ∧ ((s.own? k).isSome → s'.keys = s.keys) ∧
      (granted = true →
        (∃ q, s'.own? k = some q ∧ d.Yields (s.own? k) q ∧
          ∀ (E : Embedder σ) (fuel : Nat),
            execute E (fuel + 1) (Program.getOwnProperty o k) (m.setObject o s') =
              (.value (some q), m.setObject o s')) ∧
        ∃ s'', (∀ (E : Embedder σ) (fuel : Nat),
            execute E (fuel + 1) (Program.defineOwnProperty o k d) (m.setObject o s') =
              (.value true, m.setObject o s'')) ∧
          (∀ j, s''.own? j = s'.own? j) ∧ s''.keys = s'.keys) := by
  have hobject := getElem?_of_cell ho
  have halike := s.alikeBut_define k d
  have hobject' := getElem?_setObject hobject (s.define k d).2
  refine ⟨(s.define k d).1, (s.define k d).2, fun E fuel => execute_define E hobject fuel hs k d,
    Object.define_granted_iff, fun hrefused => ?_, halike, Object.keys_define, fun hgranted => ?_⟩
  · rw [Object.define_refused hrefused, setObject_self hobject]
  · obtain ⟨q, hq, hyields⟩ := Object.yields_define hd hgranted
    obtain ⟨hagain, hown, hkeys⟩ := Object.define_again hd hgranted
    refine ⟨⟨q, hq, hyields, fun E fuel => ?_⟩, _, fun E fuel => ?_, hown, hkeys⟩
    · rw [execute_getOwnProperty E hobject' fuel k, hq]
    · rw [execute_define E hobject' fuel (halike.kind ▸ hs) k d, hagain, setObject_setObject]

/-- A data property that is configurable is turned into an accessor; one that is not stays. -/
theorem define_own_property_by_rule_converts :
    let p : Program Unit Bool := do
      let o ← Program.newObject
      let _ ← Program.allocate (.function "get" 0 ⟨0⟩ none)
      let _ ← Program.defineOwnProperty o (.string "b") (.data .null false true false)
      Program.defineOwnProperty o (.string "a") (.data .null true true true)
    let m := (execute default 1 p (initial {} ())).2
    let d : Descriptor := { get := some (.object ⟨12⟩), enumerable := some false }
    ∃ s s' q, m.heap.cell ⟨11⟩ = .value (.object s) ∧ s.kind ≠ .array ∧ d.WellFormed ∧
      (∀ (E : Embedder Unit) (fuel : Nat),
        execute E (fuel + 1) (Program.defineOwnProperty ⟨11⟩ (.string "a") d) m =
          (.value true, m.setObject ⟨11⟩ s')) ∧
      s'.own? (.string "a") = some q ∧ d.Yields (some (.data .null true true true)) q ∧
      s'.own? (.string "b") = some (.data .null false true false) ∧
      ∀ (E : Embedder Unit) (fuel : Nat),
        execute E (fuel + 1) (Program.defineOwnProperty ⟨11⟩ (.string "b") d) m =
          (.value false, m) := by
  intro p m d
  have hd : d.WellFormed := by
    refine ⟨nofun, ?_, nofun⟩
    rintro _ ⟨⟩
    exact ⟨some ⟨12⟩, rfl⟩
  have hobject : holdsObject m.heap ⟨11⟩ (fun s => !s.isArray &&
      s.own? (.string "a") = some (.data .null true true true) &&
      s.own? (.string "b") = some (.data .null false true false)) := by decide +kernel
  obtain ⟨s, hcell, hcheck⟩ := exists_of_holdsObject hobject
  simp only [Bool.and_eq_true, decide_eq_true_eq] at hcheck
  obtain ⟨⟨hkind, ha⟩, hb⟩ := hcheck
  have hs : s.kind ≠ .array := by simpa [Object.isArray] using hkind
  obtain ⟨granted, s', hrun, hiff, -, halike, -, hthen⟩ :=
    define_own_property_by_rule hcell hs (.string "a") hd
  obtain ⟨refused, s'', hrun', hiff', hsame, -⟩ :=
    define_own_property_by_rule hcell hs (.string "b") hd
  rw [ha] at hiff hthen
  rw [hb] at hiff'
  obtain rfl : granted = true := hiff.mpr (.inl rfl)
  obtain rfl : refused = false := by
    refine Bool.eq_false_iff.mpr fun hgranted => ?_
    obtain hconf | hfits := hiff'.mp hgranted
    · cases hconf
    · cases hfits.enumerable false rfl
  obtain ⟨⟨q, hq, hyields, -⟩, -⟩ := hthen rfl
  refine ⟨s, s', q, hcell, hs, hd, hrun, hq, hyields, (halike.own? _ (by decide)).trans hb, ?_⟩
  intro E fuel
  rw [hrun' E fuel, hsame rfl]

/-! ## The length of an array -/

section

variable {E : Embedder σ} {fuel : Nat} {v : Value} {x : Double}

/-- A value that is converted without effect asks for a length if the number is one. -/
theorem execute_requestedLength
    (hconv : execute E fuel (Program.toNumber v) m = (.value x, m)) :
    execute E fuel (requestedLength v) m =
      if (Double.ofNat (x.toUint 32)).equals x then (.value (x.toUint 32), m)
      else (.raise .invalidArrayLength, m) := by
  have huint : execute E fuel (Program.toUint 32 v) m = (.value (x.toUint 32), m) :=
    execute_bind hconv _
  rw [requestedLength, execute_bind huint, execute_bind hconv]
  split <;> rfl

/-- The length of an array is set once the value has been converted. -/
theorem execute_defineLength (ho : m.heap.objects[o.index]? = some (.object s))
    (ha : s.kind = .array) (hv : d.value = some v) :
    execute E (fuel + 1) (Program.defineOwnProperty o Object.lengthKey d) m =
      Run.bind (execute E fuel (requestedLength v))
        (fun n => Run.onObject o fun s => s.setLength n d) m := by
  refine ((execute_method E _ _ m).trans (respond_object E ho fuel)).trans ?_
  simp only [respondObject, ha, defineInArray, hv]
  rfl

/-- A number that is a length is set as the array allows. -/
theorem execute_setLength (ho : m.heap.objects[o.index]? = some (.object s))
    (ha : s.kind = .array) (hv : d.value = some v)
    (hconv : execute E fuel (Program.toNumber v) m = (.value x, m)) {n : Nat} (hn : n < 2 ^ 32)
    (hintegral : x.isIntegral = true) (htruncate : x.truncate = n) :
    execute E (fuel + 1) (Program.defineOwnProperty o Object.lengthKey d) m =
      (.value (s.setLength n d).1, m.setObject o (s.setLength n d).2) := by
  have hlength : (Double.ofNat (x.toUint 32)).equals x = true :=
    Double.equals_toUint_iff.mpr ⟨hintegral, n, hn, htruncate⟩
  have huint : x.toUint 32 = n :=
    Double.toUint_of_truncate (Double.isFinite_of_isIntegral hintegral) le_rfl hn htruncate
  rw [execute_defineLength ho ha hv, Run.bind, execute_requestedLength hconv, if_pos hlength, huint]
  exact onObject_eq ho _

/-- A number that is no length is refused with a failure. -/
theorem execute_setLength_invalid (ho : m.heap.objects[o.index]? = some (.object s))
    (ha : s.kind = .array) (hv : d.value = some v)
    (hconv : execute E fuel (Program.toNumber v) m = (.value x, m))
    (hx : ¬ ∃ n : Nat, n < 2 ^ 32 ∧ x.isIntegral = true ∧ x.truncate = n) :
    execute E (fuel + 1) (Program.defineOwnProperty o Object.lengthKey d) m =
      (.raise .invalidArrayLength, m) := by
  have hlength : ¬ (Double.ofNat (x.toUint 32)).equals x = true := by
    intro hequals
    obtain ⟨hintegral, n, hn, htruncate⟩ := Double.equals_toUint_iff.mp hequals
    exact hx ⟨n, hn, hintegral, htruncate⟩
  rw [execute_defineLength ho ha hv, Run.bind, execute_requestedLength hconv, if_neg hlength]
  rfl

end

/-- **Lowering a length.** Take an array in a machine that a run passes through, and a request
for its length whose value is converted to a number without effect.

Let the number be an integer below the length. If the length is writable and the request asks
for none of the flags that the length lacks, the array is cut off at the number if no element
from there on is fixed; otherwise the request is refused, but the array is cut off just above
the greatest fixed element. The length is left writable unless the request says not to. If the
length is not writable, or the request asks for such a flag, it is refused and nothing
changes.

A number that is not an integer of 32 bits is no length. -/
theorem shrinking_length {options : RealmOptions} {host : σ} {m₀ m : Machine σ}
    (h : (initial options host).Reaches m₀) {E₀ : Embedder σ} {fuel₀ : Nat} {α : Type}
    {p : Program σ α} (hp : Passes E₀ fuel₀ α p m₀ m) {o : ObjectId} {s : Object}
    (ho : m.heap.cell o = .value (.object s)) (ha : s.kind = .array)
    {d : Descriptor} {v : Value} (hv : d.value = some v) {E : Embedder σ} {fuel : Nat} {x : Double}
    (hconv : execute E fuel (Program.toNumber v) m = (.value x, m)) :
    ∃ (old : Nat) (w : Bool),
      s.own? Object.lengthKey = some (.data (.number (.ofNat old)) w false false) ∧
      old < 2 ^ 32 ∧
      (∀ n : Nat, x.isIntegral = true → x.truncate = n → n < old →
        (w = true → d.enumerable ≠ some true → d.configurable ≠ some true →
          (s.fixedIn n old = ∅ → ∃ s',
            execute E (fuel + 1) (Program.defineOwnProperty o Object.lengthKey d) m =
              (.value true, m.setObject o s') ∧
            s.CutTo old n (d.writable ≠ some false) s') ∧
          ∀ k, IsGreatest (s.fixedIn n old) k → ∃ s',
            execute E (fuel + 1) (Program.defineOwnProperty o Object.lengthKey d) m =
              (.value false, m.setObject o s') ∧
            s.CutTo old (k + 1) (d.writable ≠ some false) s') ∧
        (w = false ∨ d.enumerable = some true ∨ d.configurable = some true →
          execute E (fuel + 1) (Program.defineOwnProperty o Object.lengthKey d) m =
            (.value false, m))) ∧
      ((¬ ∃ n : Nat, n < 2 ^ 32 ∧ x.isIntegral = true ∧ x.truncate = n) →
        execute E (fuel + 1) (Program.defineOwnProperty o Object.lengthKey d) m =
          (.raise .invalidArrayLength, m)) := by
  have hobject := getElem?_of_cell ho
  obtain ⟨old, w, hlen⟩ := hp.sound h _ s hobject ha
  have hold : old < 2 ^ 32 := Nat.lt_succ_of_le hlen.le
  refine ⟨old, w, hlen.own?, hold, fun n hintegral htruncate hn => ⟨?_, fun hrefuse => ?_⟩,
    execute_setLength_invalid hobject ha hv hconv⟩
  · rintro rfl henum hconf
    rw [execute_setLength hobject ha hv hconv (hn.trans hold) hintegral htruncate]
    obtain ⟨hempty, s', hset, hcut⟩ | ⟨k, hk, s', hset, hcut⟩ :=
      hlen.setLength_cut hn henum hconf <;> rw [hset]
    · refine ⟨fun _ => ⟨s', rfl, hcut⟩, fun k hk => ?_⟩
      rw [hempty] at hk
      exact absurd hk.1 (Set.notMem_empty k)
    · refine ⟨fun hempty => ?_, fun k' hk' => ?_⟩
      · rw [hempty] at hk
        exact absurd hk.1 (Set.notMem_empty k)
      · obtain rfl := hk.unique hk'
        exact ⟨s', rfl, hcut⟩
  · rw [execute_setLength hobject ha hv hconv (hn.trans hold) hintegral htruncate,
      hlen.setLength_refused hn hrefuse, setObject_self hobject]

/-- A length is set to zero and made read-only, with an element in the way. -/
theorem shrinking_length_blocked :
    let p : Program Unit Bool := do
      let a ← Program.allocate (.array 0 none)
      let _ ← Program.defineOwnProperty a (.index 0) (.data .null true true true)
      let _ ← Program.defineOwnProperty a (.index 1) (.data .null true true false)
      let _ ← Program.defineOwnProperty a (.index 2) (.data .null true true true)
      Program.defineOwnProperty a (.index 3) (.data .null true true true)
    let m := (execute default 1 p (initial {} ())).2
    let d : Descriptor := { value := some (.number (.ofNat 0)), writable := some false }
    ∃ s s', m.heap.cell ⟨11⟩ = .value (.object s) ∧ s.kind = .array ∧
      IsGreatest (s.fixedIn 0 4) 1 ∧
      execute default 1 (Program.defineOwnProperty ⟨11⟩ Object.lengthKey d) m =
        (.value false, m.setObject ⟨11⟩ s') ∧
      s.CutTo 4 2 false s' := by
  intro p m d
  have hobject : holdsObject m.heap ⟨11⟩ (fun s => s.isArray &&
      s.own? Object.lengthKey = some (.data (.number (.ofNat 4)) true false false) &&
      s.isFixed 1 && !s.isFixed 2 && !s.isFixed 3) := by decide +kernel
  obtain ⟨s, hcell, hcheck⟩ := exists_of_holdsObject hobject
  simp only [Bool.and_eq_true, decide_eq_true_eq, Bool.not_eq_true'] at hcheck
  obtain ⟨⟨⟨⟨harray, hlength⟩, hone⟩, htwo⟩, hthree⟩ := hcheck
  have ha : s.kind = .array := of_decide_eq_true harray
  have hgreatest : IsGreatest (s.fixedIn 0 4) 1 := by
    refine ⟨⟨by decide, by decide, hone⟩, fun i hi => ?_⟩
    obtain ⟨-, hlt, hfixed⟩ := hi
    have hnot : i ≠ 2 ∧ i ≠ 3 := by
      constructor <;> rintro rfl
      · exact absurd (htwo.symm.trans hfixed) (by decide)
      · exact absurd (hthree.symm.trans hfixed) (by decide)
    omega
  have hconv : execute (default : Embedder Unit) 0 (Program.toNumber (.number (.ofNat 0))) m =
    (.value (.ofNat 0), m) := rfl
  obtain ⟨old, w, hown, hold, hlower, -⟩ :=
    shrinking_length (.refl _) (passes_end default 1 p _) hcell ha (d := d) rfl hconv
  simp only [hlength, Property.data, Option.some.injEq, Property.mk.injEq, Slot.data.injEq,
    Value.number.injEq, and_true] at hown
  obtain ⟨hnumber, rfl⟩ := hown
  obtain rfl : 4 = old := by
    have htruncate := congrArg Double.truncate hnumber
    rw [Double.truncate_ofNat (by decide), Double.truncate_ofNat (by omega)] at htruncate
    omega
  have hzero : (Double.ofNat 0).isIntegral = true := Double.isIntegral_ofNat (by decide)
  have hflag : (none : Option Bool) ≠ some true := by decide
  obtain ⟨hlow, -⟩ := hlower 0 hzero (Double.truncate_ofNat (by decide)) (by decide)
  obtain ⟨s', hrun, hcut⟩ := (hlow rfl hflag hflag).2 1 hgreatest
  exact ⟨s, s', hcell, ha, hgreatest, hrun, hcut⟩

end Machine

end Ecma
