import Ecma.Operation.Integrity
import Ecma.Proofs.Object.KeyOrder

/-!
# Closed objects

What a level of integrity makes of a property is `IntegrityLevel.close`: it is no longer
configurable and, if the object is to be frozen, no longer writable; all else stays. **The
rule for changing properties grants this to every property** (`validate_request`), also to one
that was closed before, so an object can be closed whatever it holds.

A closed object is one whose promises leave no room: by what objects promise (`Object.Evolves`)
it stays closed, its keys stay the same, and if it is frozen so do its properties.
-/

namespace Ecma

/-! ## Closing a property -/

namespace IntegrityLevel

/-- A property as closed as a level asks. -/
def close (p : Property) : IntegrityLevel → Property
  | sealed => { p with configurable := false }
  | frozen =>
    match p.slot with
    | .data v _ => .data v false p.enumerable false
    | .accessor get set => .accessor get set p.enumerable false

theorem holds_close (level : IntegrityLevel) (p : Property) : holds (level.close p) level := by
  obtain ⟨slot, enumerable, configurable⟩ := p
  cases level <;> cases slot <;> rfl

theorem close_close (level : IntegrityLevel) (p : Property) :
    level.close (level.close p) = level.close p := by
  obtain ⟨slot, enumerable, configurable⟩ := p
  cases level <;> cases slot <;> rfl

/-- **Granted.** What a level asks of a property is stored, unless it is so already. -/
theorem validate_request (level : IntegrityLevel) (p : Property) (extensible : Bool) :
    (level.request p).validate extensible (some p) = .store (level.close p) ∨
      (level.request p).validate extensible (some p) = .keep ∧ level.close p = p := by
  obtain ⟨⟨v, writable⟩ | ⟨get, set⟩, enumerable, configurable⟩ := p
  · cases level with
    | sealed => cases configurable <;> exact .inl rfl
    | frozen =>
      -- a value that is fixed and not writable is let be
      cases configurable <;> cases writable
      · exact .inr ⟨rfl, rfl⟩
      · exact .inl rfl
      · exact .inl rfl
      · exact .inl rfl
  · cases level <;> cases configurable <;> exact .inl rfl

end IntegrityLevel

namespace Object

variable {s s' : Object} {level : IntegrityLevel} {k : PropertyKey} {p : Property}

/-! ## Closing some properties of an object -/

/-- The properties of some keys are closed and nothing else has changed. -/
structure Closes (level : IntegrityLevel) (ks : List PropertyKey) (s s' : Object) : Prop where
  own? : ∀ k, s'.own? k = if k ∈ ks then (s.own? k).map level.close else s.own? k
  keys : s'.keys = s.keys
  kind : s'.kind = s.kind
  prototype : s'.prototype = s.prototype
  extensible : s'.extensible = s.extensible

theorem Closes.nil (level : IntegrityLevel) (s : Object) : Closes level [] s s :=
  ⟨fun _ => (if_neg List.not_mem_nil).symm, rfl, rfl, rfl, rfl⟩

theorem Closes.cons {ks : List PropertyKey} {s'' : Object} (h : Closes level [k] s s')
    (h' : Closes level ks s' s'') : Closes level (k :: ks) s s'' where
  own? j := by
    rw [h'.own?, h.own?]
    by_cases hj : j = k
    · subst hj
      -- closing it twice is closing it once
      have htwice : ((s.own? j).map level.close).map level.close = (s.own? j).map level.close := by
        rw [Option.map_map]
        exact congrArg (Option.map · _) (funext level.close_close)
      simp [htwice]
    · simp [hj]
  keys := h'.keys.trans h.keys
  kind := h'.kind.trans h.kind
  prototype := h'.prototype.trans h.prototype
  extensible := h'.extensible.trans h.extensible

/-- A request to close a property that is there is granted. -/
theorem define_request_closes (hp : s.own? k = some p) (level : IntegrityLevel) :
    ∃ s', s.define k (level.request p) = (true, s') ∧ Closes level [k] s s' := by
  obtain hstore | ⟨hkeep, hsame⟩ := level.validate_request p s.extensible
  · refine ⟨s.put k (level.close p), ?_, ?_, ?_, rfl, rfl, rfl⟩
    · rw [define, hp, hstore]
      rfl
    · intro j
      rw [own?_put]
      by_cases hj : j = k
      · subst hj
        simp [hp]
      · simp [hj]
    · exact PropertyTable.keys_insert (Option.isSome_iff_exists.mpr ⟨p, hp⟩) _
  · refine ⟨s, ?_, ?_, rfl, rfl, rfl, rfl⟩
    · rw [define, hp, hkeep]
      rfl
    · intro j
      by_cases hj : j = k
      · subst hj
        simp [hp, hsame]
      · simp [hj]

/-- In an array that is sound, an element that is there is not beyond the end. -/
theorem defineInArray_of_own? (hs : s.Sound) (ha : s.kind = .array) (hp : s.own? k = some p)
    (d : Descriptor) : s.defineInArray k d = s.define k d := by
  obtain ⟨n, w, hlen⟩ := hs ha
  rw [defineInArray]
  split
  · next i hi =>
    obtain ⟨rfl, hmax⟩ := PropertyKey.arrayIndex?_eq_some.mp hi
    have hin : i < n := hlen.lt i hmax (by rw [hp]; rfl)
    have hbeyond : ¬ s.length ≤ i := by
      rw [hlen.length_eq]
      exact Nat.not_le.mpr hin
    simp only [defineElement, hbeyond, decide_false, Bool.false_and, Bool.false_eq_true, if_false]
    rcases s.define (.index i) d with ⟨_ | _, next⟩ <;> rfl
  · rfl

/-! ## Closed objects -/

/-- The object is not extensible, and all of its properties are as closed as a level asks. -/
def isClosed (s : Object) (level : IntegrityLevel) : Bool :=
  !s.extensible && s.keys.all fun k => (s.own? k).all fun p => IntegrityLevel.holds p level

theorem isClosed_iff :
    s.isClosed level ↔
      s.extensible = false ∧ ∀ k p, s.own? k = some p → IntegrityLevel.holds p level := by
  simp only [isClosed, Bool.and_eq_true, Bool.not_eq_true', List.all_eq_true, Option.all_eq_true]
  refine and_congr_right fun _ => ⟨fun h k p hp => ?_, fun h k _ p hp => h k p hp⟩
  exact h k (PropertyTable.mem_keys.mpr (Option.isSome_iff_exists.mpr ⟨p, hp⟩)) p hp

/-- All of its keys being closed, every property of an object is. -/
theorem Closes.own?_keys (h : Closes level s.keys s s') (k : PropertyKey) :
    s'.own? k = (s.own? k).map level.close := by
  rw [h.own?]
  split
  · rfl
  · next hk =>
    have hnone : s.own? k = none := by
      rw [← Option.not_isSome_iff_eq_none]
      exact fun hsome => hk (PropertyTable.mem_keys.mpr hsome)
    rw [hnone, Option.map_none]

theorem Closes.isClosed (h : Closes level s.keys s s') (hext : s.extensible = false) :
    s'.isClosed level := by
  refine isClosed_iff.mpr ⟨h.extensible.trans hext, fun k q hq => ?_⟩
  rw [h.own?_keys] at hq
  obtain ⟨p, -, rfl⟩ := Option.map_eq_some_iff.mp hq
  exact level.holds_close p

end Object

/-! ## What stays closed -/

namespace Property

variable {p p' : Property} {level : IntegrityLevel}

theorem configurable_of_holds (h : IntegrityLevel.holds p level) : p.configurable = false := by
  cases level with
  | sealed => simpa [IntegrityLevel.holds] using h
  | frozen =>
    simp only [IntegrityLevel.holds, Bool.and_eq_true, Bool.not_eq_true'] at h
    exact h.1

/-- A property that a frozen object keeps is what it was. -/
theorem Keeps.eq_of_frozen (h : p.Keeps p') (hp : IntegrityLevel.holds p .frozen) : p' = p := by
  simp only [IntegrityLevel.holds, Bool.and_eq_true, Bool.not_eq_true'] at hp
  obtain ⟨hconf, hw⟩ := hp
  obtain ⟨slot, enumerable, configurable⟩ := p
  obtain ⟨slot', enumerable', configurable'⟩ := p'
  obtain rfl : slot' = slot := h.slot hw
  obtain rfl : enumerable' = enumerable := h.enumerable
  obtain rfl : configurable' = configurable := h.configurable.trans hconf.symm
  rfl

theorem Keeps.holds (h : p.Keeps p') (hp : IntegrityLevel.holds p level) :
    IntegrityLevel.holds p' level := by
  cases level with
  | sealed => simp [IntegrityLevel.holds, h.configurable]
  | frozen => rwa [h.eq_of_frozen hp]

end Property

namespace Object

variable {s s' : Object} {level : IntegrityLevel}

/-- What becomes of the properties of a closed object: they stay, and what the object does not
have it does not get. -/
theorem Holds.own?_of_isClosed (h : s.Holds s') (hs : s.isClosed level) (k : PropertyKey) :
    s.own? k = none ∧ s'.own? k = none ∨
      ∃ p p', s.own? k = some p ∧ s'.own? k = some p' ∧ p.Keeps p' ∧
        IntegrityLevel.holds p level := by
  obtain ⟨hext, hclosed⟩ := isClosed_iff.mp hs
  rcases hk : s.own? k with _ | p
  · exact .inl ⟨rfl, h.own? hext k hk⟩
  · have hp := hclosed k p hk
    obtain ⟨p', hp', hkeeps⟩ := h.fixed k p hk (Property.configurable_of_holds hp)
    exact .inr ⟨p, p', rfl, hp', hkeeps, hp⟩

/-- **Closed for good.** Whatever becomes of a closed object, it stays closed. -/
theorem Holds.isClosed (h : s.Holds s') (hs : s.isClosed level) : s'.isClosed level := by
  refine isClosed_iff.mpr ⟨h.extensible (isClosed_iff.mp hs).1, fun k q hq => ?_⟩
  obtain ⟨-, hnone⟩ | ⟨p, p', -, hp', hkeeps, hp⟩ := h.own?_of_isClosed hs k
  · cases hnone.symm.trans hq
  · obtain rfl := Option.some.inj (hp'.symm.trans hq)
    exact hkeeps.holds hp

/-- A closed object keeps its keys. -/
theorem Holds.isSome_own? (h : s.Holds s') (hs : s.isClosed level) (k : PropertyKey) :
    (s'.own? k).isSome = (s.own? k).isSome := by
  obtain ⟨hnone, hnone'⟩ | ⟨p, p', hp, hp', -⟩ := h.own?_of_isClosed hs k
  · rw [hnone, hnone']
  · rw [hp, hp', Option.isSome_some, Option.isSome_some]

/-- A frozen object keeps its properties. -/
theorem Holds.own?_of_frozen (h : s.Holds s') (hs : s.isClosed .frozen) (k : PropertyKey) :
    s'.own? k = s.own? k := by
  obtain ⟨hnone, hnone'⟩ | ⟨p, p', hp, hp', hkeeps, hholds⟩ := h.own?_of_isClosed hs k
  · rw [hnone, hnone']
  · rw [hp, hp', hkeeps.eq_of_frozen hholds]

end Object

end Ecma
