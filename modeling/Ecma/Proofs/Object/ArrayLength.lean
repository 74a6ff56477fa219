import Ecma.Proofs.Number.Exact
import Ecma.Proofs.Object.Evolution

/-!
# The length of an array is above its indices

`Object.HasLength s n w` says that `s` has a length that is `n`, writable if `w`, and
no array index at or above `n`. Two quite different methods keep it true.

Defining an element beyond the end raises the length to just above it. Setting the
length below the end first writes the new length, then deletes elements from the last
one on, and writes the length once more if it meets one that cannot be deleted: what
is left then is that element and what was before it, since the elements come in
descending order (`deleteElements_cases`). Meanwhile the length stays writable, even if
it is to become read-only at the end, so that the second write is never refused.

Reading a length back depends on its being held exactly, which it is
(`Double.truncate_ofNat`).
-/

namespace Ecma.Object

/-! ## Arrays with a length -/

/-- The object has the length `n`, writable if `w`, and no array index from `n` on. -/
structure HasLength (s : Object) (n : Nat) (w : Bool) : Prop where
  own? : s.own? lengthKey = some (.data (.number (.ofNat n)) w false false)
  le : n ≤ PropertyKey.maxArrayLength
  lt : ∀ i, i < PropertyKey.maxArrayLength → (s.own? (.index i)).isSome → i < n

/-- If the object is an array, it has a length. -/
def Sound (s : Object) : Prop := s.kind = .array → ∃ n w, s.HasLength n w

variable {s : Object} {n : Nat} {w : Bool}

theorem HasLength.ownLength_eq (h : s.HasLength n w) :
    s.ownLength = .data (.number (.ofNat n)) w false false := by
  rw [ownLength, h.own?, Option.getD_some]

theorem HasLength.length_eq (h : s.HasLength n w) : s.length = n := by
  have hn : n < 2 ^ 53 := by
    have hle := h.le
    simp only [PropertyKey.maxArrayLength] at hle
    omega
  rw [length, h.ownLength_eq]
  simp only [Property.data]
  rw [if_pos (Double.isFinite_ofNat hn), Double.truncate_ofNat hn, Int.toNat_natCast]

theorem sound_of_ne_array (h : s.kind ≠ .array) : s.Sound := fun ha => absurd ha h

/-- A new array has the length that was asked for. -/
theorem sound_newArray (hn : n ≤ PropertyKey.maxArrayLength) (prototype : Option ObjectId) :
    (newArray n prototype).Sound := by
  refine fun _ => ⟨n, true, ?_, hn, ?_⟩
  · rw [newArray, own?_put, if_pos rfl]
    rfl
  · intro i _ hi
    rw [newArray, own?_put, if_neg nofun, own?_new] at hi
    cases hi

/-! ## Methods that do not move the length -/

/-- The length is not configurable, so that it is never what is deleted. -/
theorem HasLength.delete (h : s.HasLength n w) (k : PropertyKey) :
    (s.delete k).2.HasLength n w where
  own? := by
    rw [own?_delete, if_neg, h.own?]
    rintro ⟨rfl, hgone⟩
    simp [Object.delete, h.own?, Property.data] at hgone
  le := h.le
  lt i hi hs := by
    rw [own?_delete] at hs
    split at hs
    · cases hs
    · exact h.lt i hi hs

/-- Defining a property that is neither the length nor an array index from `n` on. -/
theorem HasLength.define (h : s.HasLength n w) {k : PropertyKey} (d : Descriptor)
    (hk : k ≠ lengthKey) (hi : ∀ i, k.arrayIndex? = some i → i < n) :
    (s.define k d).2.HasLength n w where
  own? := by rw [s.own?_define_ne hk.symm, h.own?]
  le := h.le
  lt i hlt hs := by
    by_cases hik : .index i = k
    · exact hi i (PropertyKey.arrayIndex?_eq_some.mpr ⟨hik.symm, hlt⟩)
    · rw [s.own?_define_ne hik] at hs
      exact h.lt i hlt hs

/-! ## Writing the length -/

/-- Writing a length that is above every array index. -/
theorem hasLength_put {m : Nat} (hm : m ≤ PropertyKey.maxArrayLength)
    (hlt : ∀ i, i < PropertyKey.maxArrayLength → (s.own? (.index i)).isSome → i < m) (w : Bool) :
    (s.put lengthKey (.data (.number (.ofNat m)) w false false)).HasLength m w where
  own? := by rw [own?_put, if_pos rfl]
  le := hm
  lt i hi hs := by
    rw [own?_put, if_neg nofun] at hs
    exact hlt i hi hs

/-- Defining an element: one beyond the end raises the length to just above it. -/
theorem HasLength.defineElement (h : s.HasLength n w) {i : Nat}
    (hi : i < PropertyKey.maxArrayLength) (d : Descriptor) :
    ∃ n' w', (s.defineElement i d).2.HasLength n' w' := by
  have hwithin : i < n → (s.define (.index i) d).2.HasLength n w := by
    intro hin
    refine h.define d nofun ?_
    intro j hj
    obtain ⟨hij, -⟩ := PropertyKey.arrayIndex?_eq_some.mp hj
    exact PropertyKey.index.inj hij ▸ hin
  -- the element is new, so that nothing but it stands above the old indices
  have habove : n ≤ i → ∀ j, j < PropertyKey.maxArrayLength →
      ((s.define (.index i) d).2.own? (.index j)).isSome → j < i + 1 := by
    intro hni j hj hs
    by_cases hji : j = i
    · omega
    · rw [s.own?_define_ne (fun he => hji (PropertyKey.index.inj he))] at hs
      have hjn := h.lt j hj hs
      omega
  simp only [Object.defineElement]
  rw [h.length_eq, h.ownLength_eq]
  split
  · exact ⟨n, w, h⟩
  rcases hnext : s.define (.index i) d with ⟨_ | _, next⟩
  · -- refused, so nothing was changed
    obtain hsame | ⟨q, -, hput⟩ := s.define_cases (.index i) d
    · rw [hnext] at hsame
      obtain rfl : next = s := hsame
      exact ⟨n, w, h⟩
    · rw [hnext] at hput
      cases hput
  · rw [hnext] at hwithin habove
    dsimp only at hwithin habove ⊢
    split
    · next hbeyond =>
      exact ⟨i + 1, true, hasLength_put hi (habove hbeyond) true⟩
    · next hin =>
      exact ⟨n, w, hwithin (Nat.lt_of_not_le hin)⟩

theorem HasLength.defineInArray (h : s.HasLength n w) {k : PropertyKey} (hk : k ≠ lengthKey)
    (d : Descriptor) : ∃ n' w', (s.defineInArray k d).2.HasLength n' w' := by
  simp only [Object.defineInArray]
  split
  · next i hi =>
    exact h.defineElement (PropertyKey.arrayIndex?_eq_some.mp hi).2 d
  · next hnone =>
    refine ⟨n, w, h.define d hk ?_⟩
    intro i hi
    rw [hnone] at hi
    cases hi

/-- A property that is not configurable is left as it is or updated. -/
theorem define_fixed_cases {k : PropertyKey} {p : Property} (hp : s.own? k = some p)
    (hc : p.configurable = false) (d : Descriptor) :
    (s.define k d).2 = s ∨
      d.conflictsWithFlags p = false ∧ s.define k d = (true, s.put k (p.update d)) := by
  have hvalidate : d.validate s.extensible (s.own? k) = .keep ∨
      d.validate s.extensible (s.own? k) = d.validateFixed p := by
    rw [hp, Descriptor.validate]
    split
    · exact Or.inl rfl
    · rw [if_neg (by rw [hc]; exact Bool.false_ne_true)]
      exact Or.inr rfl
  rcases hvalidate with hv | hv
  · rw [Object.define, hv]
    exact Or.inl rfl
  · obtain hf | hf | ⟨hflags, -, hf⟩ := d.validateFixed_cases p
    · rw [Object.define, hv, hf]
      exact Or.inl rfl
    · rw [Object.define, hv, hf]
      exact Or.inl rfl
    · rw [Object.define, hv, hf]
      exact Or.inr ⟨hflags, rfl⟩

/-- The length after an update that asks for no other flags. -/
theorem update_length {v : Value} {w : Bool} {d : Descriptor}
    (h : d.conflictsWithFlags (.data v w false false) = false) :
    (Property.data v w false false).update d =
      .data (d.value.getD v) (d.writable.getD w) false false := by
  obtain ⟨hconf, henum⟩ := Property.flags_update rfl h
  simp only [Property.update, Property.data, Property.updateSlot] at hconf henum ⊢
  rw [hconf, henum]

/-- Asking for a length that is not below the present one, or for none. -/
theorem HasLength.define_length (h : s.HasLength n w) {d : Descriptor} {m : Nat}
    (hvalue : d.value.getD (.number (.ofNat n)) = .number (.ofNat m)) (hnm : n ≤ m)
    (hm : m ≤ PropertyKey.maxArrayLength) :
    ∃ n' w', (s.define lengthKey d).2.HasLength n' w' := by
  obtain hsame | ⟨hflags, hput⟩ := define_fixed_cases h.own? rfl d
  · rw [hsame]
    exact ⟨n, w, h⟩
  · rw [hput, update_length hflags, hvalue]
    refine ⟨m, _, hasLength_put hm ?_ _⟩
    intro i hi hs
    exact Nat.lt_of_lt_of_le (h.lt i hi hs) hnm

/-! ## Lowering the length -/

/-- Deleting goes through a list up to the first element that cannot be deleted, and
changes nothing else. -/
theorem deleteElements_cases (o : Object) (l : List Nat) :
    ∃ gone rest, l = gone ++ rest ∧ (o.deleteElements l).1 = rest.head? ∧
      (∀ i ∈ gone, (o.deleteElements l).2.own? (.index i) = none) ∧
      ∀ k, (∀ i ∈ gone, k ≠ .index i) → (o.deleteElements l).2.own? k = o.own? k := by
  induction l generalizing o with
  | nil => exact ⟨[], [], rfl, rfl, nofun, fun _ _ => rfl⟩
  | cons i rest ih =>
    rw [deleteElements]
    have hown := o.own?_delete (.index i)
    rcases hnext : o.delete (.index i) with ⟨_ | _, next⟩
    · rw [hnext] at hown
      refine ⟨[], i :: rest, rfl, rfl, nofun, ?_⟩
      intro k _
      rw [hown k, if_neg (by simp)]
    · rw [hnext] at hown
      -- the induction hypothesis starts from the object without element `i`
      obtain ⟨gone, left, rfl, hstop, hgone, hother⟩ := ih next
      refine ⟨i :: gone, left, rfl, hstop, ?_, ?_⟩
      · intro j hj
        by_cases hin : j ∈ gone
        · exact hgone j hin
        · obtain rfl := (List.mem_cons.mp hj).resolve_right hin
          have hkept : ∀ i ∈ gone, (PropertyKey.index j) ≠ .index i :=
            fun i hi he => hin (PropertyKey.index.inj he ▸ hi)
          rw [hother _ hkept, hown, if_pos ⟨rfl, rfl⟩]
      · intro k hk
        have hki := hk i List.mem_cons_self
        rw [hother k fun j hj => hk j (List.mem_cons_of_mem i hj), hown, if_neg fun h => hki h.1]

theorem own?_length_deleteElements (o : Object) (l : List Nat) :
    (o.deleteElements l).2.own? lengthKey = o.own? lengthKey := by
  obtain ⟨_, _, -, -, -, hother⟩ := o.deleteElements_cases l
  exact hother lengthKey fun i _ => lengthKey_ne_index i

/-- A request about a writable length is granted unless it asks for other flags. -/
theorem define_writable_length {v : Value} (h : s.own? lengthKey = some (.data v true false false))
    {d : Descriptor} (hd : d.isData) :
    s.define lengthKey d =
      if d.conflictsWithFlags (.data v true false false) then (false, s)
      else (true, s.put lengthKey (.data (d.value.getD v) (d.writable.getD true) false false)) := by
  have hgeneric : d.isGeneric = false := by simp [Descriptor.isGeneric, hd]
  have hfixed : (Property.data v true false false).configurable = false := rfl
  rw [Object.define, h, Descriptor.validate, hgeneric, hfixed]
  simp only [Bool.false_and, Bool.false_eq_true, if_false]
  rw [Descriptor.validateFixed, hgeneric, hd]
  split
  · rfl
  next hflags =>
  rw [← update_length (Bool.eq_false_iff.mpr hflags)]
  rfl

theorem mem_keysIn {old i : Nat} :
    i ∈ s.properties.indexed.keysIn n old ↔ (s.own? (.index i)).isSome ∧ n ≤ i ∧ i < old := by
  rw [IndexedMap.mem_keysIn]
  refine and_congr_right fun hi => ?_
  obtain ⟨p, hp⟩ := Option.isSome_iff_exists.mp hi
  have hlength := IndexedMap.lt_length_of_get? hp
  omega

/-- Deleting the elements from `n` on, the last one first: those from there on are gone, or
those above the one where deleting stopped, and nothing else. -/
theorem own?_deleteElements {old n : Nat} {stop : Option Nat} {left : Object}
    (h : s.deleteElements (s.properties.indexed.keysIn n old).reverse = (stop, left)) :
    (∀ i, stop = some i → i < old) ∧
      (∀ i, stop.elim n (· + 1) ≤ i → i < old → left.own? (.index i) = none) ∧
      ∀ k, (∀ i, stop.elim n (· + 1) ≤ i → i < old → k ≠ .index i) → left.own? k = s.own? k := by
  obtain ⟨gone, rest, hsplit, hstop, hgone, hother⟩ :=
    s.deleteElements_cases (s.properties.indexed.keysIn n old).reverse
  rw [h] at hstop hgone hother
  obtain rfl : stop = rest.head? := hstop
  have hmem : ∀ i, i ∈ gone ∨ i ∈ rest ↔ (s.own? (.index i)).isSome ∧ n ≤ i ∧ i < old := by
    intro i
    rw [← List.mem_append, ← hsplit, List.mem_reverse, mem_keysIn]
  have hdescending : (gone ++ rest).Pairwise (fun a b => b < a) := by
    rw [← hsplit, List.pairwise_reverse]
    exact s.properties.indexed.pairwise_keysIn n old
  -- what went is what the list has above the place where deleting stopped
  have hcut : ∀ i, i ∈ gone ↔ (s.own? (.index i)).isSome ∧
      rest.head?.elim n (· + 1) ≤ i ∧ i < old := by
    intro i
    cases rest with
    | nil => simpa using hmem i
    | cons k rest =>
      obtain ⟨-, hrest, habove⟩ := List.pairwise_append.mp hdescending
      have hbelow := (List.pairwise_cons.mp hrest).1
      have hk := ((hmem k).mp (.inr List.mem_cons_self)).2.1
      change i ∈ gone ↔ (s.own? (.index i)).isSome ∧ k + 1 ≤ i ∧ i < old
      constructor
      · intro hi
        obtain ⟨hsome, -, hlt⟩ := (hmem i).mp (.inl hi)
        exact ⟨hsome, habove i hi k List.mem_cons_self, hlt⟩
      · rintro ⟨hsome, hki, hlt⟩
        obtain hi | hi := (hmem i).mpr ⟨hsome, by omega, hlt⟩
        · exact hi
        · obtain rfl | hi := List.mem_cons.mp hi
          · omega
          · have := hbelow i hi
            omega
  refine ⟨fun i hi => ?_, fun i hn hold => ?_, fun k hout => ?_⟩
  · exact ((hmem i).mp (.inr (List.mem_of_head? hi))).2.2
  · by_cases hi : i ∈ gone
    · exact hgone i hi
    · rw [hother (.index i) fun j hj he => hi (PropertyKey.index.inj he ▸ hj)]
      have habsent : ¬ (s.own? (.index i)).isSome :=
        fun hsome => hi ((hcut i).mpr ⟨hsome, hn, hold⟩)
      simpa using habsent
  · refine hother k fun i hi => ?_
    obtain ⟨-, hn, hold⟩ := (hcut i).mp hi
    exact hout i hn hold

/-- Where no array index was at `old` or above, those that are left are below `n`, or not above
the one where deleting stopped. -/
theorem lt_of_deleteElements {old n : Nat}
    (hlt : ∀ i, i < PropertyKey.maxArrayLength → (s.own? (.index i)).isSome → i < old)
    {stop : Option Nat} {left : Object}
    (h : s.deleteElements (s.properties.indexed.keysIn n old).reverse = (stop, left)) (j : Nat)
    (hj : j < PropertyKey.maxArrayLength) (hs : (left.own? (.index j)).isSome) :
    j < stop.elim n (· + 1) := by
  obtain ⟨-, hgone, hkept⟩ := own?_deleteElements h
  refine Nat.lt_of_not_le fun hcut => ?_
  rcases Nat.lt_or_ge j old with hold | hold
  · rw [hgone j hcut hold] at hs
    cases hs
  · have hout : ∀ i, stop.elim n (· + 1) ≤ i → i < old → PropertyKey.index j ≠ .index i := by
      rintro i - hi heq
      obtain rfl := PropertyKey.index.inj heq
      omega
    rw [hkept _ hout] at hs
    have hbefore := hlt j hj hs
    omega

/-- The two writes of a shrinking length differ in the number and in whether it is to
stay writable; what can stand in their way is the same. -/
theorem define_request {v : Value} (h : s.own? lengthKey = some (.data v true false false))
    (d : Descriptor) (m : Nat) (writable : Option Bool) :
    s.define lengthKey { d with value := some (.number (.ofNat m)), writable := writable } =
      if d.conflictsWithFlags (lengthProperty 0) then (false, s)
      else (true, s.put lengthKey (.data (.number (.ofNat m)) (writable.getD true) false false)) :=
  define_writable_length h rfl

/-- A request for the flags of the length is refused. -/
theorem HasLength.shrink_refused {old : Nat} (h : s.HasLength old true) (n : Nat) {d : Descriptor}
    (hflags : d.conflictsWithFlags (lengthProperty 0) = true) : s.shrink n d = (false, s) := by
  simp only [Object.shrink]
  rw [define_request h.own?, if_pos hflags]

/-- The steps of lowering a writable length: it is written, elements are deleted, and it is
written again if one of them was in the way or it is to become read-only. Until then it is
writable, so that none of this is refused. -/
theorem HasLength.shrink_steps {old : Nat} (h : s.HasLength old true) (n : Nat) {d : Descriptor}
    (hflags : d.conflictsWithFlags (lengthProperty 0) = false) :
    ∃ lowered stop left,
      lowered = s.put lengthKey (.data (.number (.ofNat n)) true false false) ∧
      lowered.deleteElements (lowered.properties.indexed.keysIn n old).reverse = (stop, left) ∧
      left.own? lengthKey = some (.data (.number (.ofNat n)) true false false) ∧
      s.shrink n d =
        match stop with
        | some i => (false, left.put lengthKey
            (.data (.number (.ofNat (i + 1))) (d.writable ≠ some false) false false))
        | none => (true, if d.writable = some false then
            left.put lengthKey (.data (.number (.ofNat n)) false false false) else left) := by
  have hnot : ¬ d.conflictsWithFlags (lengthProperty 0) = true := by simp [hflags]
  have hfirst : (if d.writable = some false then some true else d.writable).getD true = true := by
    rcases d.writable with _ | _ | _ <;> rfl
  have hlast : (if d.writable = some false then some false
      else if d.writable = some false then some true else d.writable).getD true =
      decide (d.writable ≠ some false) := by
    rcases d.writable with _ | _ | _ <;> rfl
  simp only [Object.shrink]
  rw [h.length_eq, define_request h.own?, if_neg hnot, hfirst]
  dsimp only
  generalize hlowered : s.put lengthKey (.data (.number (.ofNat n)) true false false) = lowered
  have hkept := lowered.own?_length_deleteElements (lowered.properties.indexed.keysIn n old).reverse
  rw [← hlowered, own?_put, if_pos rfl, hlowered] at hkept
  rcases hdelete : lowered.deleteElements (lowered.properties.indexed.keysIn n old).reverse with
    ⟨_ | i, left⟩ <;> rw [hdelete] at hkept
  · refine ⟨lowered, none, left, rfl, hdelete, hkept, ?_⟩
    dsimp only
    split
    · rw [define_writable_length hkept rfl]
      rfl
    · rfl
  · refine ⟨lowered, some i, left, rfl, hdelete, hkept, ?_⟩
    dsimp only
    rw [define_request hkept, if_neg hnot, hlast]

/-- Lowering a writable length: what is left is below the new length, or below just
after the element that could not be deleted. -/
theorem HasLength.shrink {old : Nat} (h : s.HasLength old true) {n : Nat} (hn : n < old)
    (d : Descriptor) : ∃ n' w', (s.shrink n d).2.HasLength n' w' := by
  have hmax := h.le
  by_cases hflags : d.conflictsWithFlags (lengthProperty 0) = true
  · rw [h.shrink_refused n hflags]
    exact ⟨old, true, h⟩
  obtain ⟨lowered, stop, left, hlowered, hdelete, hkept, hshrink⟩ :=
    h.shrink_steps n (Bool.eq_false_iff.mpr hflags)
  have hlt : ∀ i, i < PropertyKey.maxArrayLength → (lowered.own? (.index i)).isSome → i < old := by
    intro i hi hs
    rw [hlowered, own?_put, if_neg (lengthKey_ne_index i).symm] at hs
    exact h.lt i hi hs
  have hbelow := lt_of_deleteElements hlt hdelete
  rw [hshrink]
  cases stop with
  | none =>
    have hle : n ≤ PropertyKey.maxArrayLength := by omega
    dsimp only
    split
    · exact ⟨n, false, hasLength_put hle hbelow false⟩
    · exact ⟨n, true, hkept, hle, hbelow⟩
  | some i =>
    have hle : i + 1 ≤ PropertyKey.maxArrayLength := by
      have hi := (own?_deleteElements hdelete).1 i rfl
      omega
    exact ⟨i + 1, _, hasLength_put hle hbelow _⟩

theorem HasLength.setLength (h : s.HasLength n w) {m : Nat} (hm : m ≤ PropertyKey.maxArrayLength)
    (d : Descriptor) : ∃ n' w', (s.setLength m d).2.HasLength n' w' := by
  simp only [Object.setLength]
  rw [h.length_eq, h.ownLength_eq]
  split
  · next hle => exact h.define_length rfl hle hm
  · next hlt =>
    split
    · next hw =>
      obtain rfl : w = true := hw
      exact h.shrink (Nat.lt_of_not_le hlt) d
    · exact ⟨n, w, h⟩

end Ecma.Object
