import Ecma.Proofs.Machine.ChainWalk
import Ecma.Proofs.Machine.Timeline
import Ecma.Proofs.Object.KeyOrder

/-!
# Own keys over whole runs

Nothing in an object says when its properties were created except the order of its keys.
Seen from outside, a property is as old as the number of machines, counted back from the
latest, in which the object has had it on end (`age`): it was **last created** right before
the first of these. Setting a property anew does not make it younger; deleting and creating it
again does, even if both happen while one request is pending, since the timeline of a run
shows the machine in between.

The names of an object are listed in the order of their creation
(`own_keys_in_order_of_creation`). One step of the object takes names out, which leaves the
others in order, or adds one that is younger than all others.
-/

namespace Ecma

/-- The names of an object that satisfy `p`, in order of creation. -/
def Heap.namesOf (h : Heap) (o : ObjectId) (p : PropertyKey → Bool) : List PropertyKey :=
  match h.objects[o.index]? with
  | some (.object s) => s.names p
  | some (.exotic _) => []
  | none => []

namespace Heap

variable {h h' : Heap} {o : ObjectId} {s : Object} {p : PropertyKey → Bool}

theorem namesOf_eq (ho : h.objects[o.index]? = some (.object s)) : h.namesOf o p = s.names p := by
  rw [namesOf, ho]

theorem mem_namesOf {k : PropertyKey} :
    k ∈ h.namesOf o p ↔ p k ∧ k.index? = none ∧ (h.own? o k).isSome := by
  rcases ho : h.objects[o.index]? with _ | ⟨s⟩ | x
  · simp [namesOf, own?, ho]
  · rw [namesOf_eq ho, own?_eq ho]
    exact PropertyTable.mem_keysWhere
  · simp [namesOf, own?, ho]

/-- One change of an object takes names out of a group, or adds a new one at its end. -/
theorem Moves.names (hmoves : h.Moves h') (ho : h.objects[o.index]? = some (.object s)) :
    Object.NamesStep (h.namesOf o p) (h'.namesOf o p) := by
  obtain ⟨s', hs', hmove⟩ := hmoves _ s ho
  rw [namesOf_eq ho, namesOf_eq hs']
  cases hmove with
  | stay => exact .fewer (.refl _)
  | step hstep => exact hstep.names p
  | prototype => exact .fewer (.refl _)

end Heap

namespace Machine

variable {σ α : Type} {o : ObjectId}

/-! ## How old a property is -/

/-- In how many machines, counted from the latest, the object has had a property on end. -/
def age (o : ObjectId) (history : List (Machine σ)) (k : PropertyKey) : Nat :=
  (history.takeWhile fun m => (m.heap.own? o k).isSome).length

/-- One property was created before the other, or both were there from the start on and were
listed in this order. -/
def CreatedBefore (o : ObjectId) (history : List (Machine σ)) (first : List PropertyKey)
    (a b : PropertyKey) : Prop :=
  age o history b < age o history a ∨
    age o history a = history.length ∧ age o history b = history.length ∧ [a, b].Sublist first

variable {history : List (Machine σ)} {now : Machine σ} {first : List PropertyKey}
  {p : PropertyKey → Bool} {a b : PropertyKey}

theorem age_cons (h : (now.heap.own? o a).isSome) :
    age o (now :: history) a = age o history a + 1 := by
  simp [age, h]

theorem age_eq_zero (h : (now.heap.own? o a).isSome = false) : age o (now :: history) a = 0 := by
  simp [age, h]

/-- Properties that are still there keep their order. -/
theorem CreatedBefore.later (h : CreatedBefore o history first a b)
    (ha : (now.heap.own? o a).isSome) (hb : (now.heap.own? o b).isSome) :
    CreatedBefore o (now :: history) first a b := by
  rw [CreatedBefore, age_cons ha, age_cons hb, List.length_cons]
  rcases h with hlt | ⟨hage, hage', hfirst⟩
  · exact .inl (Nat.succ_lt_succ hlt)
  · exact .inr ⟨by rw [hage], by rw [hage'], hfirst⟩

/-- Names that were in order and are still there are in order. -/
theorem pairwise_later {l : List PropertyKey} (h : l.Pairwise (CreatedBefore o history first))
    (hl : ∀ k ∈ l, (now.heap.own? o k).isSome) :
    l.Pairwise (CreatedBefore o (now :: history) first) :=
  h.imp_of_mem fun ha hb hab => hab.later (hl _ ha) (hl _ hb)

/-- A name that was not there a machine ago is younger than those that were. -/
theorem createdBefore_new {prev : Machine σ} (ha : a ∈ prev.heap.namesOf o p)
    (hkept : (now.heap.own? o a).isSome) (hb : b ∉ prev.heap.namesOf o p)
    (hnew : b ∈ now.heap.namesOf o p) : CreatedBefore o (now :: prev :: history) first a b := by
  obtain ⟨hp, hindex, hthere⟩ := Heap.mem_namesOf.mp hnew
  have hbefore : (prev.heap.own? o b).isSome = false := by
    refine Bool.eq_false_iff.mpr fun hthen => hb ?_
    exact Heap.mem_namesOf.mpr ⟨hp, hindex, hthen⟩
  left
  rw [age_cons hthere, age_eq_zero hbefore, age_cons hkept,
    age_cons (Heap.mem_namesOf.mp ha).2.2]
  omega

/-- **Histories.** The names of a group are in order of creation at the end of every history
in which objects take one step at a time. -/
theorem pairwise_names {start : Machine σ} {s : Object} (history : List (Machine σ))
    (hgradual : (now :: history).IsChain fun m' m => m.heap.Moves m'.heap)
    (hstart : (now :: history).getLast? = some start)
    (ho : start.heap.objects[o.index]? = some (.object s)) :
    (∃ s', now.heap.objects[o.index]? = some (.object s')) ∧
      (now.heap.namesOf o p).Pairwise
        (CreatedBefore o (now :: history) (start.heap.namesOf o p)) := by
  induction history generalizing now with
  | nil =>
    obtain rfl := Option.some.inj hstart
    refine ⟨⟨s, ho⟩, List.pairwise_iff_forall_sublist.mpr fun {a b} hab => .inr ?_⟩
    have hage : ∀ k ∈ [a, b], age o [now] k = 1 := fun k hk =>
      age_cons (Heap.mem_namesOf.mp (hab.subset hk)).2.2
    exact ⟨hage a (by simp), hage b (by simp), hab⟩
  | cons prev history ih =>
    obtain ⟨hmoves, hgradual⟩ := List.isChain_cons_cons.mp hgradual
    obtain ⟨⟨s', hs'⟩, hprev⟩ := ih hgradual hstart
    have hthere : ∀ k ∈ now.heap.namesOf o p, (now.heap.own? o k).isSome := fun k hk =>
      (Heap.mem_namesOf.mp hk).2.2
    obtain ⟨s'', hs'', -⟩ := hmoves _ s' hs'
    refine ⟨⟨s'', hs''⟩, ?_⟩
    cases hmoves.names hs' (p := p) with
    | fewer hfewer => exact pairwise_later (hprev.sublist hfewer) hthere
    | @more k hk hmore =>
      have hkept : ∀ j ∈ prev.heap.namesOf o p, (now.heap.own? o j).isSome := by
        intro j hj
        exact hthere j (hmore ▸ List.mem_append_left [k] hj)
      have hnew : k ∈ now.heap.namesOf o p := hmore ▸ List.mem_append_right _ List.mem_cons_self
      rw [hmore]
      refine List.pairwise_append.mpr
        ⟨pairwise_later hprev hkept, List.pairwise_singleton _ _, fun a ha b hb => ?_⟩
      obtain rfl := List.mem_singleton.mp hb
      exact createdBefore_new ha (hkept a ha) hk hnew

/-! ## Whole runs -/

/-- What an object in the state `s` at the end of a history lists as its keys; `first` is what
it listed at the start. -/
structure KeysInOrder (o : ObjectId) (history : List (Machine σ)) (first : List PropertyKey)
    (s : Object) : Prop where
  nodup : s.keys.Nodup
  mem_iff : ∀ k, k ∈ s.keys ↔ (s.own? k).isSome
  /-- integers in ascending order, then strings and then symbols in order of creation -/
  groups : ∃ (indices : List Nat) (strings : List String) (symbols : List Symbol),
    s.keys = indices.map .index ++ strings.map .string ++ symbols.map .symbol ∧
      indices.Pairwise (· < ·) ∧
      (strings.map .string).Pairwise (CreatedBefore o history first) ∧
      (symbols.map .symbol).Pairwise (CreatedBefore o history first)
  /-- a table with the same integers and the same names lists the same keys, in whatever way it
  holds the ones and in whatever order it holds the others -/
  canonical : ∀ t : PropertyTable,
    (∀ n, (t.indexed.get? n).isSome = (s.properties.indexed.get? n).isSome) →
      t.named.entries.Perm s.properties.named.entries → t.keys = s.keys

/-- The keys are in order at the end of every history in which objects take one step at a
time. -/
theorem keysInOrder {history : List (Machine σ)} {start : Machine σ} {s s' : Object}
    (hgradual : (now :: history).IsChain fun m' m => m.heap.Moves m'.heap)
    (hstart : (now :: history).getLast? = some start)
    (ho : start.heap.objects[o.index]? = some (.object s))
    (hnow : now.heap.objects[o.index]? = some (.object s')) :
    KeysInOrder o (now :: history) s.keys s' where
  nodup := s'.properties.nodup_keys
  mem_iff _ := PropertyTable.mem_keys
  groups := by
    have hgroup : ∀ p, (s.names p).Sublist s.keys →
        (s'.names p).Pairwise (CreatedBefore o (now :: history) s.keys) := by
      intro p hp
      have hnames := (pairwise_names (p := p) history hgradual hstart ho).2
      rw [Heap.namesOf_eq ho, Heap.namesOf_eq hnow] at hnames
      exact hnames.imp fun hab => hab.imp_right fun h => ⟨h.1, h.2.1, h.2.2.trans hp⟩
    obtain ⟨indices, strings, symbols, hkeys, hindices, hstrings, hsymbols⟩ :=
      s'.properties.keys_eq
    refine ⟨indices, strings, symbols, hkeys, hindices, hstrings ▸ hgroup _ ?_,
      hsymbols ▸ hgroup _ ?_⟩
    · exact (List.sublist_append_right _ _).trans (List.sublist_append_left _ _)
    · exact List.sublist_append_right _ _
  canonical _ hindexed hnamed := PropertyTable.keys_congr hindexed hnamed

/-- **Own keys.** Take any stretch of any run, from a machine in which the object is there.
At its end the object lists the keys of its own properties, each once: the integers in
ascending order, then the strings, then the symbols, these two groups by the moment at which
they were last created on the way. -/
theorem own_keys_in_order_of_creation (E : Embedder σ) (fuel : Nat) (p : Program σ α)
    (m : Machine σ) (o : ObjectId) :
    (timeline E fuel p m).head? = some m ∧
      (timeline E fuel p m).getLast? = some (execute E fuel p m).2 ∧
      ∀ before history after, timeline E fuel p m = before ++ history.reverse ++ after →
        ∀ start now s, history.getLast? = some start → history.head? = some now →
          start.heap.cell o = .value (.object s) →
            ∃ s', KeysInOrder o history s.keys s' ∧
              ∀ (E' : Embedder σ) (fuel' : Nat),
                execute E' (fuel' + 1) (Program.ownKeys o) now = (.value s'.keys, now) ∧
                ∀ k, now.heap.own? o k = s'.own? k ∧
                  execute E' (fuel' + 1) (Program.getOwnProperty o k) now =
                    (.value (s'.own? k), now) := by
  refine ⟨rfl, getLast?_timeline E fuel p m, ?_⟩
  intro before history after hsplit start now s hstart hnow ho
  cases history with
  | nil => cases hnow
  | cons now' past =>
    obtain rfl := Option.some.inj hnow
    have hgradual : (now' :: past).IsChain fun m' m => m.heap.Moves m'.heap := by
      have htimeline := gradual_timeline E fuel p m
      rw [hsplit] at htimeline
      exact List.isChain_reverse.mp htimeline.left_of_append.right_of_append
    have hobject := getElem?_of_cell ho
    obtain ⟨s', hs'⟩ := (pairwise_names (p := fun _ => true) _ hgradual hstart hobject).1
    refine ⟨s', keysInOrder hgradual hstart hobject hs', fun E' fuel' => ?_⟩
    refine ⟨execute_ownKeys E' hs' fuel', fun k => ⟨Heap.own?_eq hs' k, ?_⟩⟩
    exact execute_getOwnProperty E' hs' fuel' k

/-- Of two strings the first is set anew, deleted and set again, so that it comes last; a symbol
that was created between them stays behind both. -/
theorem own_keys_in_order_of_creation_recreated :
    let o : ObjectId := ⟨11⟩
    let write (k : PropertyKey) : Program Unit Bool := Program.setFor o k .null (.object o)
    let p : Program Unit Bool := do
      let _ ← write (.string "a")
      let _ ← write (.wellKnown .iterator)
      let _ ← write (.index 10)
      let _ ← write (.string "b")
      let _ ← write (.index 1)
      let _ ← write (.string "a")
      let _ ← Program.delete o (.string "a")
      write (.string "a")
    let m := (execute default 1 Program.newObject (initial {} ())).2
    let m' := (execute default 4 p m).2
    ∃ s s', m.heap.cell o = .value (.object s) ∧
      KeysInOrder o (timeline default 4 p m).reverse s.keys s' ∧
      execute default 1 (Program.ownKeys o) m' = (.value s'.keys, m') ∧
      s'.keys = [.index 1, .index 10, .string "b", .string "a", .wellKnown .iterator] := by
  intro o write p m m'
  have hobject : holdsObject m.heap o (fun _ => true) := by decide +kernel
  have hcheck : (match (execute default 1 (Program.ownKeys o) m').1 with
      | .value keys =>
        keys = [.index 1, .index 10, .string "b", .string "a", .wellKnown .iterator]
      | _ => false) = true := by decide +kernel
  obtain ⟨s, hcell, -⟩ := exists_of_holdsObject hobject
  obtain ⟨hfirst, hlast, hkeys⟩ := own_keys_in_order_of_creation default 4 p m o
  obtain ⟨s', horder, hexecute⟩ :=
    hkeys [] (timeline default 4 p m).reverse [] (by simp) m m' s
      (by rw [List.getLast?_reverse, hfirst]) (by rw [List.head?_reverse, hlast]) hcell
  have hown : execute default 1 (Program.ownKeys o) m' = (.value s'.keys, m') :=
    (hexecute default 0).1
  rw [hown] at hcheck
  exact ⟨s, s', hcell, horder, hown, of_decide_eq_true hcheck⟩

end Machine

end Ecma
