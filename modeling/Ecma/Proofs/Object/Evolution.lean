import Ecma.Object.Array

/-!
# What can become of an object

`Object.Evolves s s'` is the promise that an object in state `s` makes about every
later state `s'`, whoever asks it for what in between:

* a property that is not configurable stays, and stays what it is (`Property.Keeps`);
* an object that is not extensible stays so, has no other properties than before and
  keeps its prototype.

All of it but the last, which needs more care while a run is under way, is
`Object.Holds`.

The relation is reflexive and transitive, so it is enough that each method keeps the
promise once. Everything goes through the rule of `Descriptor.validate`
(`evolves_define`), with one exception: defining an element beyond the end of an array
writes the length directly. That keeps the promise because it is done only when the
length is there and writable.
-/

namespace Ecma

/-! ## One property -/

/-- What a property that is not configurable may become: it stays that way, with the
same enumerability, of the same kind; a value that is not writable and accessors stay
the same. -/
structure Property.Keeps (p p' : Property) : Prop where
  configurable : p'.configurable = false
  enumerable : p'.enumerable = p.enumerable
  isData : p'.isData = p.isData
  slot : p.isWritable = false → p'.slot = p.slot

namespace Property

theorem Keeps.refl {p : Property} (h : p.configurable = false) : p.Keeps p :=
  ⟨h, rfl, rfl, fun _ => rfl⟩

theorem Keeps.trans {p q r : Property} (hpq : p.Keeps q) (hqr : q.Keeps r) : p.Keeps r where
  configurable := hqr.configurable
  enumerable := hqr.enumerable.trans hpq.enumerable
  isData := hqr.isData.trans hpq.isData
  slot hw := by
    -- what is not writable in `p` has not moved to `q`, where it is not writable either
    have hslot := hpq.slot hw
    have hq : q.isWritable = false := by rwa [isWritable, hslot]
    exact (hqr.slot hq).trans hslot

theorem isData_update (p : Property) (d : Descriptor) : (p.update d).isData = p.isData := by
  simp only [update, isData, updateSlot]
  cases p.slot <;> rfl

/-- A descriptor that does not ask for other flags leaves a property that is not
configurable with the flags that it has. -/
theorem flags_update {p : Property} {d : Descriptor} (hp : p.configurable = false)
    (hflags : d.conflictsWithFlags p = false) :
    (p.update d).configurable = false ∧ (p.update d).enumerable = p.enumerable := by
  simp only [Descriptor.conflictsWithFlags, Bool.or_eq_false_iff, decide_eq_false_iff_not,
    Bool.and_eq_false_iff, bne_eq_false_iff_eq] at hflags
  obtain ⟨hconf, henum⟩ := hflags
  constructor
  · change d.configurable.getD p.configurable = false
    rw [hp]
    rcases hd : d.configurable with _ | _ | _
    · rfl
    · rfl
    · exact absurd hd hconf
  · change d.enumerable.getD p.enumerable = p.enumerable
    rcases hd : d.enumerable with _ | b
    · rfl
    · rw [hd] at henum
      simpa using henum

theorem keeps_update {p : Property} {d : Descriptor} (hp : p.configurable = false)
    (hflags : d.conflictsWithFlags p = false)
    (hslot : p.isWritable = false → updateSlot d p.slot = p.slot) : p.Keeps (p.update d) := by
  obtain ⟨hconf, henum⟩ := flags_update hp hflags
  exact ⟨hconf, henum, isData_update p d, hslot⟩

end Property

namespace Descriptor

/-- A descriptor that is not about what a slot holds does not change it. -/
theorem updateSlot_of_isGeneric {d : Descriptor} (h : d.isGeneric) (s : Slot) :
    Property.updateSlot d s = s := by
  simp only [isGeneric, isAccessor, isData, Bool.and_eq_true, Bool.not_eq_true',
    Bool.or_eq_false_iff, Option.isSome_eq_false_iff, Option.isNone_iff_eq_none] at h
  obtain ⟨⟨hget, hset⟩, hvalue, hwritable⟩ := h
  cases s <;> simp [Property.updateSlot, hget, hset, hvalue, hwritable]

/-- What the rule can say about a property that is not configurable: it refuses, keeps
or updates it, and updates it only if the flags are not in the way and what it holds
is writable or not at issue. -/
theorem validateFixed_cases (d : Descriptor) (p : Property) :
    d.validateFixed p = .refuse ∨ d.validateFixed p = .keep ∨
      (d.conflictsWithFlags p = false ∧ (d.isGeneric ∨ p.isWritable) ∧
        d.validateFixed p = .store (p.update d)) := by
  simp only [validateFixed]
  split
  · exact Or.inl rfl
  next hflags =>
  have hflags : d.conflictsWithFlags p = false := Bool.eq_false_iff.mpr hflags
  split
  · next hgeneric => exact Or.inr (Or.inr ⟨hflags, Or.inl hgeneric, rfl⟩)
  -- past this point the request is about what the property holds
  split
  · exact Or.inl rfl
  split
  · split
    · exact Or.inl rfl
    · exact Or.inr (Or.inl rfl)
  · next hslot =>
    refine Or.inr (Or.inr ⟨hflags, Or.inr ?_, rfl⟩)
    rw [Property.isWritable, hslot]
  · split
    · exact Or.inl rfl
    · exact Or.inr (Or.inl rfl)

/-- **The rule loosens nothing**: what it stores in the place of a property that is not
configurable is what that may become. -/
theorem keeps_of_validateFixed {d : Descriptor} {p q : Property} (hp : p.configurable = false)
    (h : d.validateFixed p = .store q) : p.Keeps q := by
  obtain hv | hv | ⟨hflags, hslot, hv⟩ := d.validateFixed_cases p
  · cases hv.symm.trans h
  · cases hv.symm.trans h
  · obtain rfl := Verdict.store.inj (hv.symm.trans h)
    refine Property.keeps_update hp hflags fun hw => ?_
    rcases hslot with hgeneric | hwritable
    · exact updateSlot_of_isGeneric hgeneric p.slot
    · rw [hw] at hwritable
      cases hwritable

/-- What the rule stores: something that the property before may become, or a new
property of an extensible object. -/
theorem validate_store {d : Descriptor} {extensible : Bool} {old : Option Property} {q : Property}
    (h : d.validate extensible old = .store q) :
    (∀ p, old = some p → p.configurable = false → p.Keeps q) ∧ (old = none → extensible = true) := by
  cases old with
  | none =>
    refine ⟨fun p hp => (by cases hp), fun _ => ?_⟩
    rw [validate] at h
    split at h
    · assumption
    · cases h
  | some p =>
    refine ⟨?_, fun hp => (by cases hp)⟩
    rintro p ⟨⟩ hp
    rw [validate] at h
    split at h
    · cases h
    · rw [if_neg (by rw [hp]; exact Bool.false_ne_true)] at h
      exact keeps_of_validateFixed hp h

end Descriptor

/-! ## One object -/

/-- What can become of an object apart from its prototype. -/
structure Object.Holds (s s' : Object) : Prop where
  kind : s'.kind = s.kind
  /-- a property that is not configurable stays what it is -/
  fixed : ∀ k p, s.own? k = some p → p.configurable = false → ∃ p', s'.own? k = some p' ∧ p.Keeps p'
  /-- an object that is not extensible never becomes so -/
  extensible : s.extensible = false → s'.extensible = false
  /-- it gets no other properties -/
  own? : s.extensible = false → ∀ k, s.own? k = none → s'.own? k = none

/-- What can become of an object. -/
structure Object.Evolves (s s' : Object) : Prop extends s.Holds s' where
  /-- an object that is not extensible keeps its prototype -/
  prototype : s.extensible = false → s'.prototype = s.prototype

namespace Object

theorem Evolves.refl (s : Object) : s.Evolves s where
  kind := rfl
  fixed _ p hp hc := ⟨p, hp, .refl hc⟩
  extensible h := h
  own? _ _ h := h
  prototype _ := rfl

theorem Holds.trans {a b c : Object} (hab : a.Holds b) (hbc : b.Holds c) : a.Holds c where
  kind := hbc.kind.trans hab.kind
  fixed k p hp hc := by
    obtain ⟨q, hq, hpq⟩ := hab.fixed k p hp hc
    obtain ⟨r, hr, hqr⟩ := hbc.fixed k q hq hpq.configurable
    exact ⟨r, hr, hpq.trans hqr⟩
  extensible h := hbc.extensible (hab.extensible h)
  own? h k hk := hbc.own? (hab.extensible h) k (hab.own? h k hk)

theorem Evolves.trans {a b c : Object} (hab : a.Evolves b) (hbc : b.Evolves c) : a.Evolves c where
  toHolds := hab.toHolds.trans hbc.toHolds
  prototype h := (hbc.prototype (hab.extensible h)).trans (hab.prototype h)

/-- Storing a property keeps the promise if the property before may become it, or if
there is none before and the object is extensible. -/
theorem evolves_put {o : Object} {k : PropertyKey} {q : Property}
    (hold : ∀ p, o.own? k = some p → p.configurable = false → p.Keeps q)
    (hnew : o.own? k = none → o.extensible = true) : o.Evolves (o.put k q) where
  kind := rfl
  fixed j p hp hc := by
    rw [own?_put]
    by_cases hj : j = k
    · subst hj
      exact ⟨q, if_pos rfl, hold p hp hc⟩
    · exact ⟨p, by rw [if_neg hj, hp], .refl hc⟩
  extensible h := h
  own? hext j hj := by
    rw [own?_put]
    split
    · next hjk =>
      subst hjk
      rw [hnew hj] at hext
      cases hext
    · exact hj
  prototype _ := rfl

/-- Defining stores what the rule says, or changes nothing. -/
theorem define_cases (o : Object) (k : PropertyKey) (d : Descriptor) :
    (o.define k d).2 = o ∨
      ∃ q, d.validate o.extensible (o.own? k) = .store q ∧ o.define k d = (true, o.put k q) := by
  simp only [define, apply]
  rcases d.validate o.extensible (o.own? k) with _ | _ | q
  · exact Or.inl rfl
  · exact Or.inl rfl
  · exact Or.inr ⟨q, rfl, rfl⟩

/-- Defining leaves other keys alone. -/
theorem own?_define_ne (o : Object) {k j : PropertyKey} (h : j ≠ k) (d : Descriptor) :
    (o.define k d).2.own? j = o.own? j := by
  obtain hsame | ⟨q, -, hput⟩ := o.define_cases k d
  · rw [hsame]
  · rw [hput, own?_put, if_neg h]

theorem evolves_define (o : Object) (k : PropertyKey) (d : Descriptor) :
    o.Evolves (o.define k d).2 := by
  obtain h | ⟨q, hq, h⟩ := o.define_cases k d
  · rw [h]
    exact .refl o
  · rw [h]
    obtain ⟨hold, hnew⟩ := Descriptor.validate_store hq
    exact evolves_put hold hnew

theorem Evolves.of_define {o o' : Object} {k : PropertyKey} {d : Descriptor} {granted : Bool}
    (h : o.define k d = (granted, o')) : o.Evolves o' := by
  have hdefine := o.evolves_define k d
  rwa [h] at hdefine

/-- Only the property of the key is gone after deleting, if it is. -/
theorem own?_delete (o : Object) (k j : PropertyKey) :
    (o.delete k).2.own? j = if j = k ∧ (o.delete k).1 then none else o.own? j := by
  rw [delete]
  split
  · next hnone =>
    split
    · next hj => rw [hj.1, hnone]
    · rfl
  · next p hp =>
    split
    · simp only [own?, PropertyTable.get?_erase, and_true]
    · simp

theorem evolves_delete (o : Object) (k : PropertyKey) : o.Evolves (o.delete k).2 := by
  have hsame : (o.delete k).2.kind = o.kind ∧ (o.delete k).2.extensible = o.extensible ∧
      (o.delete k).2.prototype = o.prototype := by
    simp only [delete]
    split
    · exact ⟨rfl, rfl, rfl⟩
    · split <;> exact ⟨rfl, rfl, rfl⟩
  obtain ⟨hkind, hext, hproto⟩ := hsame
  refine ⟨⟨hkind, ?_, fun h => hext.trans h, ?_⟩, fun _ => hproto⟩
  · -- a property that is not configurable is not the one that went
    intro j p hp hc
    refine ⟨p, ?_, .refl hc⟩
    rw [own?_delete, if_neg, hp]
    rintro ⟨rfl, hgone⟩
    simp [delete, hp, hc] at hgone
  · intro _ j hj
    rw [own?_delete, hj]
    split <;> rfl

theorem evolves_preventExtensions (o : Object) : o.Evolves o.preventExtensions where
  kind := rfl
  fixed _ p hp hc := ⟨p, hp, .refl hc⟩
  extensible _ := rfl
  own? _ _ h := h
  prototype _ := rfl

/-! ## Arrays -/

theorem Evolves.of_deleteElements {o o' : Object} {l : List Nat} {stop : Option Nat}
    (h : o.deleteElements l = (stop, o')) : o.Evolves o' := by
  induction l generalizing o with
  | nil =>
    obtain ⟨-, rfl⟩ := Prod.mk.inj h
    exact .refl o
  | cons i rest ih =>
    have hdelete := o.evolves_delete (.index i)
    rw [deleteElements] at h
    rcases hnext : o.delete (.index i) with ⟨_ | _, next⟩
    · rw [hnext] at h hdelete
      obtain ⟨-, rfl⟩ := Prod.mk.inj h
      exact hdelete
    · rw [hnext] at h hdelete
      exact hdelete.trans (ih h)

theorem evolves_shrink (o : Object) (n : Nat) (d : Descriptor) : o.Evolves (o.shrink n d).2 := by
  simp only [shrink]
  split
  · next hdefine => exact .of_define hdefine
  · next lowered hdefine =>
    split
    · next i left hdelete =>
      have hleft : o.Evolves left := (Evolves.of_define hdefine).trans (.of_deleteElements hdelete)
      exact hleft.trans (left.evolves_define _ _)
    · next left hdelete =>
      have hleft : o.Evolves left := (Evolves.of_define hdefine).trans (.of_deleteElements hdelete)
      dsimp only
      split
      · exact hleft.trans (left.evolves_define _ _)
      · exact hleft

theorem evolves_setLength (o : Object) (n : Nat) (d : Descriptor) :
    o.Evolves (o.setLength n d).2 := by
  simp only [setLength]
  split
  · exact o.evolves_define _ _
  · split
    · exact o.evolves_shrink n d
    · exact .refl o

/-- Writing a length over one that is there and writable keeps the promise. -/
theorem evolves_put_length {o : Object} {old : Property} (hold : o.own? lengthKey = some old)
    (hw : old.isWritable) (v : Value) :
    o.Evolves (o.put lengthKey { old with slot := .data v true }) := by
  have hdata : old.isData := by
    simp only [Property.isWritable] at hw
    simp only [Property.isData]
    rcases hslot : old.slot with ⟨w, b⟩ | ⟨g, t⟩
    · rfl
    · rw [hslot] at hw
      cases hw
  refine evolves_put ?_ ?_
  · intro p hp hc
    obtain rfl := Option.some.inj (hold.symm.trans hp)
    refine ⟨hc, rfl, hdata.symm, ?_⟩
    intro hnot
    rw [hw] at hnot
    cases hnot
  · intro hnone
    rw [hold] at hnone
    cases hnone

theorem evolves_defineElement {o : Object} (hlength : (o.own? lengthKey).isSome) (i : Nat)
    (d : Descriptor) : o.Evolves (o.defineElement i d).2 := by
  obtain ⟨old, hold⟩ := Option.isSome_iff_exists.mp hlength
  have howned : o.ownLength = old := by rw [ownLength, hold, Option.getD_some]
  simp only [defineElement]
  split
  · exact .refl o
  next hallowed =>
  have hdefine := o.evolves_define (.index i) d
  have hkept : (o.define (.index i) d).2.own? lengthKey = some old := by
    rw [o.own?_define_ne (lengthKey_ne_index i), hold]
  rcases hnext : o.define (.index i) d with ⟨_ | _, next⟩
  · rw [hnext] at hdefine
    exact hdefine
  · -- granted; only a length that was found writable before is written
    rw [hnext] at hdefine hkept
    dsimp only at hdefine hkept ⊢
    rw [howned] at hallowed ⊢
    split
    · next hbeyond =>
      refine hdefine.trans (evolves_put_length hkept ?_ _)
      simpa [hbeyond] using hallowed
    · exact hdefine

theorem evolves_defineInArray {o : Object} (hlength : (o.own? lengthKey).isSome) (k : PropertyKey)
    (d : Descriptor) : o.Evolves (o.defineInArray k d).2 := by
  simp only [defineInArray]
  split
  · exact evolves_defineElement hlength _ d
  · exact o.evolves_define k d

end Object

end Ecma
