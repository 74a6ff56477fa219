import Ecma.Proofs.Machine.ChainWalk
import Ecma.Proofs.Machine.Promises

/-!
# Prototype chains over whole runs

A heap without exotic objects is grounded in every machine that a run passes through: the
prototype chain of every object ends. The heap of a new realm is, and every change that a
run can make keeps it so (`Heap.Changes.grounded`), because an object gets another
prototype only after the chain of that one was walked to its end without meeting the
object. That walk ends because the heap is grounded, and so do the walks of all lookups:
that the chains end and that the machine can find this out is one invariant.
-/

namespace Ecma

/-- Intrinsic objects stand where their position says. -/
theorem Intrinsic.position_eq {i : Nat} {x : Intrinsic} (hi : Intrinsic.all[i]? = some x) :
    x.position = i := by
  have hall : ∀ j : Fin Intrinsic.all.length, (Intrinsic.all.get j).position = j := by decide
  obtain ⟨hlt, rfl⟩ := List.getElem?_eq_some_iff.mp hi
  exact hall ⟨i, hlt⟩

namespace Heap

theorem Grounded.of_objects_eq {h h' : Heap} (hg : h.Grounded) (hobjects : h'.objects = h.objects) :
    h'.Grounded := by
  intro o ho
  obtain ⟨l, hl⟩ := hg o (hobjects ▸ ho)
  exact ⟨l, hl.frame_objects fun q _ s hq => ⟨s, hobjects ▸ hq, rfl⟩⟩

/-- All intrinsic objects but the first inherit from the first. -/
theorem grounded_initial : Heap.initial.Grounded := by
  have hparent : ∀ x : Intrinsic, ∀ p ∈ x.parent, p.index < x.position := by
    intro x p hp
    cases x <;> simp [Intrinsic.parent] at hp <;> subst hp <;> decide
  refine grounded_of_earlier fun i hi => ?_
  have hcell : Heap.initial.objects[i]? = Intrinsic.all[i]?.map fun x => .object x.object := by
    rw [initial, List.getElem?_toArray, List.getElem?_map]
  have hlt : i < Intrinsic.all.length := by simpa [initial] using hi
  obtain ⟨x, hx⟩ : ∃ x, Intrinsic.all[i]? = some x := ⟨_, List.getElem?_eq_getElem hlt⟩
  refine ⟨x.object, by rw [hcell, hx, Option.map_some], fun p hp => ?_⟩
  exact Intrinsic.position_eq hx ▸ hparent x p hp

/-- What a run can do to a heap keeps it grounded, as long as there are no exotic
objects. -/
theorem Changes.grounded {whole : Bool} {h h' : Heap} (hc : Changes whole h h')
    (hplain : h'.Plain) (hg : h.Grounded) : h'.Grounded := by
  induction hc with
  | scopes hscopes => exact hg.of_objects_eq hscopes.objects
  | trans _ hc' ih ih' => exact ih' hplain (ih (hc'.plain hplain) hg)
  | @allocate h b c hb hp =>
    cases c with
    | object s => exact hg.allocate hp
    | exotic x => exact absurd (by rw [getElem?_allocate, if_pos rfl]) (hplain h.objects.size x)
  | step ho hf =>
    refine hg.modifyObject fun s hs => ?_
    obtain rfl := object_inj ho hs
    exact hf.alike.prototype
  | prototype ho hext hc p hp ih =>
    have hplain' : Plain _ := fun i x hi => hplain i x (exotic_modifyObject _ _ hi)
    obtain ⟨l, hl, hnot⟩ := hp hplain'
    exact (ih hplain' hg).setPrototype hl hnot

end Heap

namespace Machine

variable {σ : Type}

/-- The heap of every machine that a run passes through is grounded, if there are no exotic
objects in it. -/
theorem Passes.grounded {options : RealmOptions} {host : σ} {m₀ m : Machine σ}
    (h : (initial options host).Reaches m₀) {E : Embedder σ} {fuel : Nat} {α : Type}
    {p : Program σ α} (hp : Passes E fuel α p m₀ m) (hplain : m.heap.Plain) : m.heap.Grounded :=
  (h.changes.trans hp.changes).grounded hplain Heap.grounded_initial

/-- The walks from an object along its chain end, with any code outside the model and any
depth of requests above the number of objects. -/
structure WalksEnd (m : Machine σ) (o : ObjectId) (l : List ObjectId) : Prop where
  /-- some object on the chain has the property, or none -/
  hasProperty : ∀ (E : Embedder σ) (fuel : Nat), m.heap.objects.size < fuel → ∀ k,
    execute E fuel (Program.hasProperty o k) m = (.value (m.heap.nearest? k l).isSome, m)
  /-- what is left to do after the walk is to take the value of what was found -/
  get : ∀ (E : Embedder σ) (fuel : Nat), m.heap.objects.size < fuel → ∀ k receiver,
    ∃ depth, fuel ≤ depth + l.length ∧ execute E fuel (Program.getFor o k receiver) m =
      execute E depth
        ((m.heap.nearest? k l).elim (pure .undefined) (Program.getThrough · receiver)) m
  /-- what is left to do after the walk is to set the value through what was found -/
  set : ∀ (E : Embedder σ) (fuel : Nat), m.heap.objects.size < fuel → ∀ k v receiver,
    ∃ depth, fuel ≤ depth + l.length ∧ execute E fuel (Program.setFor o k v receiver) m =
      execute E depth (Program.setThrough
        ((m.heap.nearest? k l).getD (.data .undefined true true true)) k v receiver) m

theorem WalksEnd.of_chain {m : Machine σ} {o : ObjectId} {l : List ObjectId}
    (hl : m.heap.Chain (some o) l) : m.WalksEnd o l where
  hasProperty E _ hfuel k :=
    execute_hasProperty_nearest E hl (Nat.lt_of_le_of_lt hl.length_le_size hfuel) k
  get E _ hfuel k receiver :=
    execute_getFor_nearest E hl (Nat.lt_of_le_of_lt hl.length_le_size hfuel) k receiver
  set E _ hfuel k v receiver :=
    execute_setFor_nearest E hl (Nat.lt_of_le_of_lt hl.length_le_size hfuel) k v receiver

/-- **Prototype chains end.** Take a machine that a run passes through and that has no
exotic objects, and an object in it.

* Its prototype chain is finite, no object is on it twice, and the walks of lookups along it
  end.
* Whether it is an instance of a constructor is found by walking its chain as it is when the
  prototype object of the constructor is known.
* Asked for another prototype, an object of the machine or none, it answers yes exactly if
  that is its prototype already, or if it is extensible and not on the chain that starts
  there. Then nothing but its prototype changes, and otherwise nothing at all. -/
theorem prototype_chains_end {options : RealmOptions} {host : σ} {m₀ m : Machine σ}
    (h : (initial options host).Reaches m₀) {E : Embedder σ} {fuel : Nat} {α : Type}
    {p : Program σ α} (hp : Passes E fuel α p m₀ m) (hplain : m.heap.Plain) {o : ObjectId}
    (ho : o.index < m.heap.objects.size) :
    ∃ s l, m.heap.cell o = .value (.object s) ∧ m.heap.Chain (some o) l ∧ l.Nodup ∧
      m.WalksEnd o l ∧
      (∀ (E : Embedder σ) (fuel : Nat) (c : ObjectId) (x : Cell) (target : ObjectId)
        (m' : Machine σ), m.heap.cell c = .value x → x.traits.isCallable = true →
        execute E fuel (Program.get c (.string "prototype")) m = (.value (.object target), m') →
        m'.heap.Plain → m'.heap.objects.size < fuel →
        ∃ l', m'.heap.Chain (some o) l' ∧
          execute E fuel (Program.ordinaryHasInstance (.object c) (.object o)) m =
            (.value (decide (target ∈ l'.tail)), m')) ∧
      ∀ (E : Embedder σ) (fuel : Nat) (q : Option ObjectId), m.heap.objects.size < fuel →
        (∀ parent ∈ q, parent.index < m.heap.objects.size) →
        ∃ lq b, m.heap.Chain q lq ∧ (b = true ↔ q = s.prototype ∨ s.extensible = true ∧ o ∉ lq) ∧
          execute E fuel (Program.setPrototypeOf o q) m = (.value b,
            if b then { m with heap := m.heap.modifyObject o fun s => { s with prototype := q } }
            else m) := by
  have hg := hp.grounded h hplain
  obtain ⟨l, hl⟩ := hg o ho
  obtain ⟨s, hs⟩ := hg.exists_object ho
  refine ⟨s, l, by rw [Heap.cell, hs], hl, hl.nodup m.heap.singleLinked_inherits, .of_chain hl, ?_,
    ?_⟩
  · intro E fuel c x target m' hc hx hget hplain' hfuel
    have hchanges : Heap.Changes true m.heap m'.heap := changes_of_run hget
    obtain ⟨s', hs', -⟩ := hchanges.kind hs
    obtain ⟨l', hl'⟩ := (hchanges.grounded hplain' hg) o (Array.getElem?_eq_some_iff.mp hs').1
    have hlength : l'.length ≤ fuel := Nat.le_trans hl'.length_le_size (Nat.le_of_lt hfuel)
    exact ⟨l', hl', execute_ordinaryHasInstance E hc hx hget hl' hlength⟩
  · intro E fuel q hfuel hq
    obtain ⟨lq, hlq⟩ := hg.exists_chain hq
    have hset := execute_setPrototypeOf E hs hlq (Nat.lt_of_le_of_lt hlq.length_le_size hfuel)
    refine ⟨lq, decide (q = s.prototype ∨ s.extensible = true ∧ o ∉ lq), hlq,
      decide_eq_true_iff, ?_⟩
    by_cases hfree : q = s.prototype ∨ s.extensible = true ∧ o ∉ lq
    · rw [hset, if_pos hfree, decide_eq_true hfree, if_pos rfl]
    · rw [hset, if_neg hfree, decide_eq_false hfree, if_neg Bool.false_ne_true]

/-- An array that inherits from an object cannot become the prototype of that object, also
when it has been tried before. -/
theorem prototype_chains_end_circle :
    let p : Program Unit Bool := do
      let a ← Program.allocate (.ordinary none "Object" none false)
      let b ← Program.allocate (.array 0 (some a))
      Program.setPrototypeOf a (some b)
    let m := (execute default 3 p (initial {} ())).2
    execute default 14 (Program.setPrototypeOf ⟨11⟩ (some ⟨12⟩)) m = (.value false, m) := by
  intro p m
  have hobject : m.heap.objects[11]?.bind Cell.prototype? = none := by decide +kernel
  have harray : m.heap.objects[12]?.bind Cell.prototype? = some ⟨11⟩ := by decide +kernel
  obtain ⟨s, l, hs, -, -, -, -, hset⟩ := prototype_chains_end (.refl _) (passes_end default 3 p _)
    (show m.heap.Plain by decide +kernel) (show (⟨11⟩ : ObjectId).index < _ by decide +kernel)
  obtain ⟨lq, b, hlq, hb, hrun⟩ := hset default 14 (some ⟨12⟩) (by decide +kernel)
    (by rintro _ ⟨⟩; decide +kernel)
  have hcircle : ¬ (some ⟨12⟩ = s.prototype ∨ s.extensible = true ∧ ⟨11⟩ ∉ lq) := by
    rintro (hsame | ⟨-, hnot⟩)
    · rw [getElem?_of_cell hs] at hobject
      cases hsame.trans hobject
    · cases hlq with
      | cons hx hrest =>
        obtain ⟨array, hcell, rfl⟩ := hx
        rw [hcell] at harray
        have hparent : array.prototype = some ⟨11⟩ := harray
        rw [hparent] at hrest
        cases hrest
        exact hnot (by simp)
  obtain rfl : b = false := Bool.eq_false_iff.mpr fun hyes => hcircle (hb.mp hyes)
  exact hrun

end Machine

end Ecma
