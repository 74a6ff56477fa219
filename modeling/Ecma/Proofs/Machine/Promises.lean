import Ecma.Proofs.Machine.Nesting

/-!
# What objects promise over whole runs

Two facts about every machine that runs lead to from the heap of a new realm on, and
about every machine that such a run passes through while requests are pending.

* Arrays are sound: the length is there and above every array index
  (`length_above_indices`).
* Objects evolve: what was fixed about an object stays as it is, whatever is run next
  (`object_evolves`).

The second rests on the first, since an array writes its length past the rule for
properties. Both are kept by each change that a run can make, and so by every run, of
any program, with any code outside the model, however it ends.

When requests are pending, one thing has been decided before: an object that was asked
for another prototype while it was extensible gets it when the chain has been walked,
even if the code of exotic objects along the chain makes it non-extensible. So to the
end of a run that is under way an object promises everything but its prototype, and that
it cannot promise (`prototype_stored_after_closing`).
-/

namespace Ecma

namespace Heap

/-- Every array of the heap has a length above its indices. -/
def Sound (h : Heap) : Prop := ∀ (i : Nat) (s : Object), h.objects[i]? = some (.object s) → s.Sound

/-- Every object of one heap evolves to what stands at its place in the other, apart
from its prototype unless the changes are those of whole requests. -/
def Evolves (whole : Bool) (h h' : Heap) : Prop :=
  ∀ (i : Nat) (s : Object), h.objects[i]? = some (.object s) →
    ∃ s', h'.objects[i]? = some (.object s') ∧ s.Holds s' ∧ (whole = true → s.Evolves s')

theorem Evolves.trans {whole : Bool} {h₁ h₂ h₃ : Heap} (h₁₂ : Evolves whole h₁ h₂)
    (h₂₃ : Evolves whole h₂ h₃) : Evolves whole h₁ h₃ := by
  intro i s hi
  obtain ⟨s', hs', hholds, he⟩ := h₁₂ i s hi
  obtain ⟨s'', hs'', hholds', he'⟩ := h₂₃ i s' hs'
  exact ⟨s'', hs'', hholds.trans hholds', fun hw => (he hw).trans (he' hw)⟩

/-- New objects are sound: an array is built with a length that it can have. -/
theorem sound_of_build {b : Blueprint} {s : Object} (hb : b.build = .value (.object s)) :
    s.Sound := by
  cases b with
  | ordinary prototype className primitive isHtmlDda =>
    obtain rfl := Cell.object.inj (Outcome.value.inj hb)
    exact Object.sound_of_ne_array nofun
  | array length prototype =>
    rw [Blueprint.build] at hb
    split at hb
    · cases hb
    · next hle =>
      obtain rfl := Cell.object.inj (Outcome.value.inj hb)
      exact Object.sound_newArray (Nat.le_of_not_lt hle) _
  | function name length call construct =>
    obtain rfl := Cell.object.inj (Outcome.value.inj hb)
    exact Object.sound_of_ne_array nofun
  | exotic x => cases hb

theorem sound_initial : Heap.initial.Sound := by
  intro i s hi
  have hmem : Cell.object s ∈ Intrinsic.all.map fun i => Cell.object i.object := by
    rw [← List.mem_toArray]
    exact Array.mem_of_getElem? hi
  obtain ⟨i, -, hi⟩ := List.mem_map.mp hmem
  obtain rfl := Cell.object.inj hi
  exact Object.sound_of_ne_array nofun

/-- Replacing one object by one that keeps a fact that all others have. -/
theorem Sound.modifyObject {h : Heap} (hs : h.Sound) {o : ObjectId} {f : Object → Object}
    (hf : ∀ s, h.objects[o.index]? = some (.object s) → (f s).Sound) :
    (h.modifyObject o f).Sound := by
  intro i s hi
  rw [getElem?_modifyObject] at hi
  split at hi
  · next heq =>
    subst heq
    rcases hold : h.objects[o.index]? with _ | ⟨old⟩ | x
    · rw [hold] at hi
      cases hi
    · rw [hold] at hi
      obtain rfl := Cell.object.inj (Option.some.inj hi)
      exact hf old hold
    · rw [hold] at hi
      cases hi
  · exact hs i s hi

/-- What a run can do to objects keeps arrays sound. -/
theorem Changes.sound {whole : Bool} {h h' : Heap} (hc : Changes whole h h') (hs : h.Sound) : h'.Sound := by
  induction hc with
  | scopes hscopes => exact fun i s hi => hs i s (hscopes.objects ▸ hi)
  | trans _ _ ih ih' => exact ih' (ih hs)
  | allocate hb hp =>
    intro i s hi
    rw [getElem?_allocate] at hi
    split at hi
    · obtain rfl := Option.some.inj hi
      exact sound_of_build hb
    · exact hs i s hi
  | step ho hf =>
    refine hs.modifyObject fun s hi => ?_
    obtain rfl := object_inj ho hi
    exact hf.sound (hs _ _ ho)
  | prototype ho hext hc p hp ih =>
    refine (ih hs).modifyObject fun s hi ha => ?_
    obtain ⟨n, w, hlen⟩ := ih hs _ s hi ha
    exact ⟨n, w, hlen.own?, hlen.le, hlen.lt⟩

/-- What a run can do to objects keeps their promises. -/
theorem Changes.evolves {whole : Bool} {h h' : Heap} (hc : Changes whole h h') (hs : h.Sound) :
    Evolves whole h h' := by
  have hself : ∀ s : Object, s.Holds s ∧ (whole = true → s.Evolves s) :=
    fun s => ⟨(Object.Evolves.refl s).toHolds, fun _ => .refl s⟩
  induction hc with
  | scopes hscopes => exact fun i s hi => ⟨s, hscopes.objects ▸ hi, hself s⟩
  | trans hc _ ih ih' =>
    -- the later changes start from arrays that are sound because the earlier ones kept them so
    exact (ih hs).trans (ih' (hc.sound hs))
  | allocate hb hp => exact fun i s hi => ⟨s, getElem?_allocate_of_some hi _, hself s⟩
  | step ho hf =>
    intro i s hi
    refine ⟨_, exists_modifyObject hi _ _, ?_⟩
    split
    · next heq =>
      obtain rfl := object_inj (heq ▸ hi) ho
      have he := hf.evolves (hs _ _ ho)
      exact ⟨he.toHolds, fun _ => he⟩
    · exact hself s
  | prototype ho hext hc p hp ih =>
    intro i s hi
    obtain ⟨s', hs', hholds, he⟩ := ih hs i s hi
    refine ⟨_, exists_modifyObject hs' _ _, ?_⟩
    split
    · next heq =>
      obtain rfl := object_inj (heq ▸ hi) ho
      have hnew : s.Holds { s' with prototype := p } :=
        ⟨hholds.kind, hholds.fixed, hholds.extensible, hholds.own?⟩
      refine ⟨hnew, fun hw => ⟨hnew, fun hnot => ?_⟩⟩
      -- an extensible object promises nothing about its prototype
      exact absurd ((hext hw).symm.trans hnot) (by decide)
    · exact ⟨hholds, he⟩

end Heap

namespace Machine

variable {σ : Type}

/-- Running programs, each with any code outside the model, leads from one machine to
the other. -/
inductive Reaches : Machine σ → Machine σ → Prop
  | refl (m : Machine σ) : Reaches m m
  | run {m m' : Machine σ} (h : Reaches m m') (E : Embedder σ) (fuel : Nat) {α : Type}
      (p : Program σ α) : Reaches m (execute E fuel p m').2

theorem Reaches.changes {m m' : Machine σ} (h : m.Reaches m') :
    Heap.Changes true m.heap m'.heap := by
  induction h with
  | refl => exact .refl _
  | run _ E fuel p ih => exact ih.trans (changes_execute E fuel p _)

/-- Arrays are sound in every machine that a run passes through. -/
theorem Passes.sound {options : RealmOptions} {host : σ} {m₀ m : Machine σ}
    (h : (initial options host).Reaches m₀) {E : Embedder σ} {fuel : Nat} {α : Type}
    {p : Program σ α} (hp : Passes E fuel α p m₀ m) : m.heap.Sound :=
  (h.changes.trans hp.changes).sound Heap.sound_initial

/-- **Arrays.** In every machine that a run passes through, an array has a length that
is a data property, neither enumerable nor configurable, and holds an integer from `0`
to `2 ^ 32 - 1`; and every array index of it is below that integer. -/
theorem length_above_indices {options : RealmOptions} {host : σ} {m₀ m : Machine σ}
    (h : (initial options host).Reaches m₀) {E : Embedder σ} {fuel : Nat} {α : Type}
    {p : Program σ α} (hp : Passes E fuel α p m₀ m) {o : ObjectId} {s : Object}
    (ho : m.heap.cell o = .value (.object s)) (ha : s.kind = .array) :
    ∃ (x : Double) (w : Bool) (n : Nat),
      s.own? Object.lengthKey = some (.data (.number x) w false false) ∧
        x.isIntegral ∧ x.truncate = n ∧ n ≤ 2 ^ 32 - 1 ∧
        ∀ i, i < 2 ^ 32 - 1 → (s.own? (.index i)).isSome → i < n := by
  obtain ⟨n, w, hlen⟩ := hp.sound h _ s (getElem?_of_cell ho) ha
  have hle : n ≤ 2 ^ 32 - 1 := hlen.le
  have hexact : n < 2 ^ 53 := by omega
  exact ⟨.ofNat n, w, n, hlen.own?, Double.isIntegral_ofNat hexact, Double.truncate_ofNat hexact,
    hle, hlen.lt⟩

/-- An array is given a length by an object whose conversion to a number gives the array
two elements, one below and one above the length that it answers. -/
theorem length_above_indices_reentrant :
    let E : Embedder Unit :=
      { (default : Embedder Unit) with
        call := fun _ _ _ => do
          let _ ← Program.defineOwnProperty ⟨11⟩ (.index 1) (.data .null true true true)
          let _ ← Program.defineOwnProperty ⟨11⟩ (.index 7) (.data .null true true true)
          return .number (.ofNat 3) }
    let p : Program Unit Bool := do
      let a ← Program.allocate (.array 0 none)
      let f ← Program.allocate (.function "valueOf" 0 ⟨0⟩ none)
      let x ← Program.newObject
      let _ ← Program.defineOwnProperty x (.string "valueOf") (.ofValue (.object f))
      Program.defineOwnProperty a Object.lengthKey (.ofValue (.object x))
    let m := (execute E 6 p (initial {} ())).2
    ∃ s, m.heap.cell ⟨11⟩ = .value (.object s) ∧
      (s.own? (.index 1)).isSome ∧ (s.own? (.index 7)).isNone ∧
      ∃ (x : Double) (w : Bool) (n : Nat),
        s.own? Object.lengthKey = some (.data (.number x) w false false) ∧
          x.isIntegral ∧ x.truncate = n ∧ n ≤ 2 ^ 32 - 1 ∧
          ∀ i, i < 2 ^ 32 - 1 → (s.own? (.index i)).isSome → i < n := by
  intro E p m
  have hcheck : holdsObject m.heap ⟨11⟩ (fun s =>
      s.isArray && (s.own? (.index 1)).isSome && (s.own? (.index 7)).isNone) := by decide +kernel
  obtain ⟨s, hcell, hs⟩ := exists_of_holdsObject hcheck
  obtain ⟨hfirst, hgone⟩ := (Bool.and_eq_true _ _).mp hs
  obtain ⟨ha, hkept⟩ := (Bool.and_eq_true _ _).mp hfirst
  exact ⟨s, hcell, hkept, hgone,
    length_above_indices (.refl _) (passes_end E 6 p _) hcell (of_decide_eq_true ha)⟩

/-- **Objects.** Take an object in a machine that a run passes through. Whatever runs
follow from there, it is still there and everything that was fixed about it is as it
was; and so it is at the end of the run under way, apart from a prototype that it was
asked for before. -/
theorem object_evolves {options : RealmOptions} {host : σ} {m₀ m : Machine σ}
    (h : (initial options host).Reaches m₀) {E : Embedder σ} {fuel : Nat} {α : Type}
    {p : Program σ α} (hp : Passes E fuel α p m₀ m) {o : ObjectId} {s : Object}
    (ho : m.heap.cell o = .value (.object s)) :
    (∀ m', m.Reaches m' → ∃ s', m'.heap.cell o = .value (.object s') ∧ s.Evolves s') ∧
      ∃ s', (execute E fuel p m₀).2.heap.cell o = .value (.object s') ∧ s.Holds s' := by
  have hsound := hp.sound h
  constructor
  · intro m' hm'
    obtain ⟨s', hs', -, he⟩ := hm'.changes.evolves hsound _ s (getElem?_of_cell ho)
    exact ⟨s', by rw [Heap.cell, hs'], he rfl⟩
  · obtain ⟨s', hs', hholds, -⟩ := hp.rest.evolves hsound _ s (getElem?_of_cell ho)
    exact ⟨s', by rw [Heap.cell, hs'], hholds⟩

/-- An object with a property that is fixed is made non-extensible, and is then asked
for another value, to drop the property, and for another prototype. -/
theorem object_evolves_fixed :
    let p : Program Unit Bool := do
      let o ← Program.newObject
      let _ ← Program.defineOwnProperty o (.string "a") (.data .null false true false)
      Program.preventExtensions o
    let q : Program Unit Bool := do
      let _ ← Program.defineOwnProperty ⟨11⟩ (.string "a") (.ofValue .undefined)
      let _ ← Program.delete ⟨11⟩ (.string "a")
      Program.setPrototypeOf ⟨11⟩ none
    let m := (execute default 1 p (initial {} ())).2
    let m' := (execute default 1 q m).2
    ∃ s s', m.heap.cell ⟨11⟩ = .value (.object s) ∧
      s.extensible = false ∧ s.own? (.string "a") = some (.data .null false true false) ∧
      m'.heap.cell ⟨11⟩ = .value (.object s') ∧ s.Evolves s' := by
  intro p q m m'
  have hm' : m.Reaches m' := .run (.refl _) default 1 q
  have hcheck : holdsObject m.heap ⟨11⟩ (fun s => !s.extensible &&
      s.own? (.string "a") = some (.data .null false true false)) := by decide +kernel
  obtain ⟨s, hcell, hs⟩ := exists_of_holdsObject hcheck
  obtain ⟨hext, ha⟩ := (Bool.and_eq_true _ _).mp hs
  obtain ⟨s', hs', he⟩ := (object_evolves (.refl _) (passes_end default 1 p _) hcell).1 m' hm'
  exact ⟨s, s', hcell, by simpa using hext, of_decide_eq_true ha, hs', he⟩

/-- What is left out at the end of a run does happen. While the chain of the prototype that
an object is asked for is walked, the code of an exotic object makes the object
non-extensible; then the prototype is stored all the same. -/
theorem prototype_stored_after_closing :
    let E : Embedder Unit :=
      { (default : Embedder Unit) with
        exotic := fun _ r => match r with
          | .getPrototypeOf _ => do
            let _ ← Program.preventExtensions ⟨11⟩
            return none
          | _ => .stop .exhausted }
    let p : Program Unit ObjectId := do
      let _ ← Program.newObject
      Program.allocate (.exotic ⟨⟨0⟩, {}⟩)
    let q : Program Unit Bool := Program.setPrototypeOf ⟨11⟩ (some ⟨12⟩)
    let m₀ := (execute E 3 p (initial {} ())).2
    ∃ m s s', Passes E 3 Bool q m₀ m ∧ m.heap.cell ⟨11⟩ = .value (.object s) ∧
      s.extensible = false ∧ s.prototype = some Intrinsic.objectPrototype.id ∧
      (execute E 3 q m₀).2.heap.cell ⟨11⟩ = .value (.object s') ∧
      s'.prototype = some ⟨12⟩ ∧ ¬ s.Evolves s' := by
  intro E p q m₀
  let m := (execute E 1 (E.exotic ⟨0⟩ (.getPrototypeOf ⟨12⟩)) m₀).2
  have hopen : holdsObject m₀.heap ⟨11⟩ (fun s => s.extensible && s.prototype ≠ some ⟨12⟩) := by
    decide +kernel
  have hclosed : holdsObject m.heap ⟨11⟩ (fun s => !s.extensible &&
      s.prototype = some Intrinsic.objectPrototype.id) := by decide +kernel
  have hstored : holdsObject (execute E 3 q m₀).2.heap ⟨11⟩
      (fun s => s.prototype = some ⟨12⟩) := by decide +kernel
  -- the code of the exotic object runs within the walk, and the walk within the request
  have hpasses : Passes E 3 Bool q m₀ m := by
    obtain ⟨s₀, hcell₀, hs₀⟩ := exists_of_holdsObject hopen
    obtain ⟨hext₀, hne⟩ := (Bool.and_eq_true _ _).mp hs₀
    refine .within (.setPrototypeOf hcell₀ (of_decide_eq_true hne).symm hext₀) ?_
    exact .within (.exotic (x := ⟨⟨0⟩, {}⟩) rfl) (passes_end E 1 _ m₀)
  obtain ⟨s, hcell, hs⟩ := exists_of_holdsObject hclosed
  obtain ⟨hnot, hold⟩ := (Bool.and_eq_true _ _).mp hs
  have hext : s.extensible = false := by simpa using hnot
  have hbefore : s.prototype = some Intrinsic.objectPrototype.id := of_decide_eq_true hold
  obtain ⟨s', hcell', hnew⟩ := exists_of_holdsObject hstored
  have hafter : s'.prototype = some ⟨12⟩ := of_decide_eq_true hnew
  refine ⟨m, s, s', hpasses, hcell, hext, hbefore, hcell', hafter, fun he => ?_⟩
  have hsame := hafter.symm.trans ((he.prototype hext).trans hbefore)
  exact absurd hsame (by decide)

end Machine

end Ecma
