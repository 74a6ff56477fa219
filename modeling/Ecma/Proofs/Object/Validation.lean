import Ecma.Proofs.Object.KeyOrder
import Ecma.Proofs.Value.Equality

/-!
# What the rule for changing properties grants

`Descriptor.Permits` says which requests are granted, field by field, and `Descriptor.Yields`
what the property is like that stands there afterwards: it has the fields that the descriptor
gives and, for the others, those of the property before, or the defaults. Neither mentions how
the rule comes to its verdict.

**The rule grants what is permitted** (`isGranted_validate_iff`) **and stores what is asked
for** (`yields_of_store`, `yields_of_keep`). A request that it has granted it grants again, and
then nothing changes (`validate_again`).
-/

namespace Ecma

/-! ## Getters and setters -/

namespace Property

/-- The getter of an accessor property. -/
def getter (p : Property) : Option ObjectId :=
  match p.slot with
  | .data .. => none
  | .accessor get _ => get

/-- The setter of an accessor property. -/
def setter (p : Property) : Option ObjectId :=
  match p.slot with
  | .data .. => none
  | .accessor _ set => set

end Property

namespace Value

theorem object?_ofObject? (f : Option ObjectId) : (ofObject? f).object? = f := by
  cases f <;> rfl

/-- The value of a getter or a setter is equal to nothing but itself. -/
theorem sameValue_ofObject? {v : Value} {f : Option ObjectId} :
    v.sameValue (ofObject? f) = true ↔ v = ofObject? f := by
  cases f <;> cases v <;> simp [sameValue, equalWith, ofObject?]

theorem sameValue_refl (v : Value) : v.sameValue v = true :=
  (equalWith_equivalence Double.sameValue_equivalence).refl v

theorem sameValue_symm {v w : Value} (h : v.sameValue w = true) : w.sameValue v = true :=
  (equalWith_equivalence Double.sameValue_equivalence).symm h

end Value

/-! ## Requests that are granted -/

namespace Descriptor

/-- The descriptor is not about a value and accessors at once, and gives objects or undefined
for accessors. -/
structure WellFormed (d : Descriptor) : Prop where
  oneKind : d.isData = true → d.isAccessor = false
  get : ∀ v ∈ d.get, ∃ f, v = .ofObject? f
  set : ∀ v ∈ d.set, ∃ f, v = .ofObject? f

/-- What a property holds need not change for the descriptor, or may. -/
def FitsSlot (d : Descriptor) : Slot → Prop
  | .data _ true => True
  | .data v false => d.writable ≠ some true ∧ ∀ w ∈ d.value, w.sameValue v = true
  | .accessor get set => (∀ v ∈ d.get, v = .ofObject? get) ∧ ∀ v ∈ d.set, v = .ofObject? set

/-- A request that a property which is not configurable can meet. -/
structure Fits (d : Descriptor) (p : Property) : Prop where
  configurable : d.configurable ≠ some true
  enumerable : ∀ b ∈ d.enumerable, b = p.enumerable
  slot : d.isGeneric = true ∨ d.isData = p.isData ∧ d.FitsSlot p.slot

/-- What may be asked of an object about a property: a new one of an extensible object,
anything of one that is configurable, and otherwise what the property can meet. -/
def Permits (d : Descriptor) (extensible : Bool) : Option Property → Prop
  | none => extensible = true
  | some p => p.configurable = true ∨ d.Fits p

/-- The property `q` is what a request makes of the property before. -/
structure Yields (d : Descriptor) (old : Option Property) (q : Property) : Prop where
  isData : q.isData = if d.isGeneric then old.all Property.isData else d.isData
  value : ∀ v ∈ q.value?,
    match d.value with
    | some w => v.sameValue w = true
    | none => v = (old.bind Property.value?).getD .undefined
  writable : q.isData = true → q.isWritable = d.writable.getD (old.any Property.isWritable)
  getter : q.isData = false →
    .ofObject? q.getter = d.get.getD (.ofObject? (old.bind Property.getter))
  setter : q.isData = false →
    .ofObject? q.setter = d.set.getD (.ofObject? (old.bind Property.setter))
  enumerable : q.enumerable = d.enumerable.getD (old.any Property.enumerable)
  configurable : q.configurable = d.configurable.getD (old.any Property.configurable)

variable {d : Descriptor} {p q : Property} {extensible : Bool} {old : Option Property}

theorem conflictsWithFlags_eq_false_iff :
    d.conflictsWithFlags p = false ↔
      d.configurable ≠ some true ∧ ∀ b ∈ d.enumerable, b = p.enumerable := by
  rcases henum : d.enumerable with _ | b <;> simp [conflictsWithFlags, henum]

theorem conflictsWithValue_eq_false_iff {v : Value} :
    d.conflictsWithValue v = false ↔ d.FitsSlot (.data v false) := by
  rcases hvalue : d.value with _ | w <;> simp [conflictsWithValue, FitsSlot, hvalue]

theorem conflictsWithAccessors_eq_false_iff {get set : Option ObjectId} :
    d.conflictsWithAccessors get set = false ↔ d.FitsSlot (.accessor get set) := by
  simp only [conflictsWithAccessors, FitsSlot, Bool.or_eq_false_iff, and_comm]
  rcases hget : d.get with _ | v <;> rcases hset : d.set with _ | w <;>
    simp [Value.sameValue_ofObject?]

/-- A property that is not configurable meets what it can. -/
theorem isGranted_validateFixed_iff : (d.validateFixed p).isGranted = true ↔ d.Fits p := by
  have hfits : d.Fits p ↔ d.conflictsWithFlags p = false ∧
      (d.isGeneric = true ∨ d.isData = p.isData ∧ d.FitsSlot p.slot) := by
    rw [conflictsWithFlags_eq_false_iff]
    exact ⟨fun h => ⟨⟨h.configurable, h.enumerable⟩, h.slot⟩, fun h => ⟨h.1.1, h.1.2, h.2⟩⟩
  rw [hfits, validateFixed]
  split
  · next hflags => simp [hflags, Verdict.isGranted]
  next hflags =>
  split
  · next hgeneric => simp [hflags, hgeneric, Verdict.isGranted]
  next hgeneric =>
  split
  · next hkind =>
    have hne : ¬ d.isData = p.isData := fun he => by simp [he] at hkind
    simp [hgeneric, hne, Verdict.isGranted]
  next hkind =>
  have hsame : p.isData = d.isData := by simpa using hkind
  simp only [Bool.eq_false_iff.mpr hflags, hgeneric, hsame, true_and]
  split
  · next v hslot =>
    rw [hslot, ← conflictsWithValue_eq_false_iff]
    split <;> simp_all [Verdict.isGranted]
  · next v hslot => simp [hslot, FitsSlot, Verdict.isGranted]
  · next get set hslot =>
    rw [hslot, ← conflictsWithAccessors_eq_false_iff]
    split <;> simp_all [Verdict.isGranted]

/-- **Granted.** The rule grants a request exactly if it is permitted. -/
theorem isGranted_validate_iff :
    (d.validate extensible old).isGranted = true ↔ d.Permits extensible old := by
  cases old with
  | none => cases extensible <;> simp [validate, Permits, Verdict.isGranted]
  | some p =>
    rw [validate, Permits]
    split
    · next hempty =>
      -- a request that says nothing fits everything
      simp only [Bool.and_eq_true, Option.isNone_iff_eq_none] at hempty
      have hfits : d.Fits p := ⟨by simp [hempty.2], by simp [hempty.1.2], .inl hempty.1.1⟩
      simp [hfits, Verdict.isGranted]
    split
    · next hconf =>
      rw [validateConfigurable]
      split <;> simp [hconf, Verdict.isGranted]
    · next hconf => simp [isGranted_validateFixed_iff, hconf]

/-! ## What is stored -/

/-- What a property that a request is applied to takes over from the property before. -/
structure Carries (old : Option Property) (base : Property) : Prop where
  value : ∀ v ∈ base.value?, v = (old.bind Property.value?).getD .undefined
  writable : base.isData = true → base.isWritable = old.any Property.isWritable
  getter : base.isData = false → base.getter = old.bind Property.getter
  setter : base.isData = false → base.setter = old.bind Property.setter
  enumerable : base.enumerable = old.any Property.enumerable
  configurable : base.configurable = old.any Property.configurable

theorem carries_self (p : Property) : Carries (some p) p := by
  obtain ⟨⟨v, w⟩ | ⟨get, set⟩, e, c⟩ := p <;>
    constructor <;> simp [Property.value?, Property.isData, Property.isWritable, Property.getter,
      Property.setter]

theorem carries_convert (p : Property) : Carries (some p) p.convert := by
  obtain ⟨⟨v, w⟩ | ⟨get, set⟩, e, c⟩ := p <;>
    constructor <;> simp [Property.convert, Property.data, Property.accessor, Property.value?,
      Property.isData, Property.isWritable, Property.getter, Property.setter]

/-- The property that a new one is made from: everything is absent. -/
def blank (d : Descriptor) : Property :=
  if d.isAccessor then .accessor none none false false else .data .undefined false false false

theorem carries_blank (d : Descriptor) : Carries none d.blank := by
  rw [blank]
  split <;>
    constructor <;> simp [Property.data, Property.accessor, Property.value?, Property.isData,
      Property.isWritable, Property.getter, Property.setter]

theorem toProperty_eq (d : Descriptor) : d.toProperty = d.blank.update d := by
  rw [toProperty, blank]
  cases d.isAccessor with
  | false => rfl
  | true =>
    simp only [if_true, Property.accessor, Property.update, Property.updateSlot]
    rcases d.get with _ | v <;> rcases d.set with _ | w <;> rfl

/-- Applying a request gives what it asks for and leaves the rest. -/
theorem yields_update (hd : d.WellFormed) {base : Property} (hbase : Carries old base)
    (hkind : base.isData = if d.isGeneric then old.all Property.isData else d.isData) :
    d.Yields old (base.update d) where
  isData := by rw [Property.isData_update, hkind]
  value v hv := by
    obtain ⟨⟨u, w⟩ | ⟨get, set⟩, e, c⟩ := base
    · obtain rfl : d.value.getD u = v := by
        simpa [Property.update, Property.updateSlot, Property.value?] using hv
      rcases d.value with _ | given
      · exact hbase.value u rfl
      · exact Value.sameValue_refl given
    · simp [Property.update, Property.updateSlot, Property.value?] at hv
  writable hdata := by
    rw [Property.isData_update] at hdata
    rw [← hbase.writable hdata]
    obtain ⟨⟨u, w⟩ | ⟨get, set⟩, e, c⟩ := base
    · rfl
    · cases hdata
  getter hdata := by
    rw [Property.isData_update] at hdata
    rw [← hbase.getter hdata]
    obtain ⟨⟨u, w⟩ | ⟨get, set⟩, e, c⟩ := base
    · cases hdata
    · rcases hget : d.get with _ | v
      · simp [Property.update, Property.updateSlot, Property.getter, hget]
      · obtain ⟨f, rfl⟩ := hd.get v hget
        simp [Property.update, Property.updateSlot, Property.getter, hget, Value.object?_ofObject?]
  setter hdata := by
    rw [Property.isData_update] at hdata
    rw [← hbase.setter hdata]
    obtain ⟨⟨u, w⟩ | ⟨get, set⟩, e, c⟩ := base
    · cases hdata
    · rcases hset : d.set with _ | v
      · simp [Property.update, Property.updateSlot, Property.setter, hset]
      · obtain ⟨f, rfl⟩ := hd.set v hset
        simp [Property.update, Property.updateSlot, Property.setter, hset, Value.object?_ofObject?]
  enumerable := congrArg d.enumerable.getD hbase.enumerable
  configurable := congrArg d.configurable.getD hbase.configurable

/-- What is stored is a property that carries over what was there, with the request applied to
it. -/
theorem exists_base_of_store (hd : d.WellFormed) (h : d.validate extensible old = .store q) :
    ∃ base, q = base.update d ∧ Carries old base ∧
      base.isData = if d.isGeneric then old.all Property.isData else d.isData := by
  cases old with
  | none =>
    rw [validate] at h
    split at h
    · refine ⟨d.blank, ?_, carries_blank d, ?_⟩
      · rw [← toProperty_eq, Verdict.store.inj h]
      · have hkind := hd.oneKind
        rcases haccessor : d.isAccessor with _ | _ <;> rcases hdata : d.isData with _ | _ <;>
          simp_all [blank, isGeneric, Property.isData, Property.data, Property.accessor]
    · cases h
  | some p =>
    rw [validate] at h
    split at h
    · cases h
    split at h
    · rw [validateConfigurable] at h
      split at h
      · next hkind =>
        refine ⟨p, (Verdict.store.inj h).symm, carries_self p, ?_⟩
        rcases hgeneric : d.isGeneric with _ | _ <;> simp_all
      · next hkind =>
        refine ⟨p.convert, (Verdict.store.inj h).symm, carries_convert p, ?_⟩
        obtain ⟨⟨v, w⟩ | ⟨get, set⟩, e, c⟩ := p <;>
          simp_all [Property.convert, Property.isData, Property.data, Property.accessor]
    · rw [validateFixed] at h
      split at h
      · cases h
      split at h
      · next hgeneric =>
        exact ⟨p, (Verdict.store.inj h).symm, carries_self p, by simp [hgeneric]⟩
      next hgeneric =>
      split at h
      · cases h
      next hkind =>
      have hsame : p.isData = d.isData := by simpa using hkind
      split at h
      · split at h <;> cases h
      · exact ⟨p, (Verdict.store.inj h).symm, carries_self p, by simp [hgeneric, hsame]⟩
      · split at h <;> cases h

/-- **Stored.** What the rule stores is what was asked for. -/
theorem yields_of_store (hd : d.WellFormed) (h : d.validate extensible old = .store q) :
    d.Yields old q := by
  obtain ⟨base, rfl, hbase, hkind⟩ := exists_base_of_store hd h
  exact yields_update hd hbase hkind

/-- A property that meets a request about what it holds, and is not writable, is what was asked
for. -/
theorem Fits.yields (h : d.Fits p) (hconf : p.configurable = false)
    (hgeneric : d.isGeneric = false) (hw : p.isWritable = false) : d.Yields (some p) p := by
  obtain ⟨hkind, hslot⟩ := h.slot.resolve_left (by simp [hgeneric])
  have hflags := conflictsWithFlags_eq_false_iff.mpr ⟨h.configurable, h.enumerable⟩
  obtain ⟨hconf', henum⟩ := Property.flags_update hconf hflags
  have hisData : p.isData = if d.isGeneric then (some p).all Property.isData else d.isData := by
    simp [hgeneric, hkind]
  obtain ⟨⟨v, w⟩ | ⟨get, set⟩, e, c⟩ := p
  · obtain rfl : w = false := hw
    obtain ⟨hwritable, hvalue⟩ := hslot
    refine ⟨hisData, ?_, ?_, nofun, nofun, henum.symm, hconf.trans hconf'.symm⟩
    · rintro _ ⟨⟩
      rcases hgiven : d.value with _ | given
      · rfl
      · exact Value.sameValue_symm (hvalue given hgiven)
    · intro _
      rcases hgiven : d.writable with _ | _ | _
      · rfl
      · rfl
      · exact absurd hgiven hwritable
  · obtain ⟨hget, hset⟩ := hslot
    refine ⟨hisData, nofun, nofun, ?_, ?_, henum.symm, hconf.trans hconf'.symm⟩
    · intro _
      rcases hgiven : d.get with _ | f
      · rfl
      · exact (hget f hgiven).symm
    · intro _
      rcases hgiven : d.set with _ | f
      · rfl
      · exact (hset f hgiven).symm

/-- **Kept.** A property that the rule lets be is what was asked for. -/
theorem yields_of_keep (hd : d.WellFormed) (h : d.validate extensible (some p) = .keep) :
    d.Yields (some p) p := by
  rw [validate] at h
  split at h
  · next hempty =>
    -- nothing is asked, so applying the request changes nothing
    simp only [Bool.and_eq_true, Option.isNone_iff_eq_none] at hempty
    obtain ⟨⟨hgeneric, henum⟩, hconf⟩ := hempty
    have hsame : p.update d = p := by
      rw [Property.update, updateSlot_of_isGeneric hgeneric, henum, hconf]
      rfl
    have hyields := yields_update hd (carries_self p) (by simp [hgeneric])
    rwa [hsame] at hyields
  split at h
  · rw [validateConfigurable] at h
    split at h <;> cases h
  · next hconf =>
    have hfits : d.Fits p := isGranted_validateFixed_iff.mp (by rw [h]; rfl)
    have hfixed : d.isGeneric = false ∧ p.isWritable = false := by
      rw [validateFixed] at h
      split at h
      · cases h
      split at h
      · cases h
      next hgeneric =>
      refine ⟨Bool.eq_false_iff.mpr hgeneric, ?_⟩
      rw [Property.isWritable]
      split at h
      · cases h
      split at h
      · next hslot => rw [hslot]
      · cases h
      · next hslot => rw [hslot]
    exact hfits.yields (Bool.eq_false_iff.mpr hconf) hfixed.1 hfixed.2

/-! ## Asking again -/

/-- What was asked for may be asked for again. -/
theorem Yields.permits (h : d.Yields old q) (extensible : Bool) :
    d.Permits extensible (some q) := by
  rcases hconf : q.configurable with _ | _
  swap
  · exact .inl hconf
  refine .inr ⟨?_, ?_, ?_⟩
  · intro hask
    rw [h.configurable, hask] at hconf
    cases hconf
  · intro b hb
    rw [h.enumerable, hb]
    rfl
  · rcases hgeneric : d.isGeneric with _ | _
    swap
    · exact .inl rfl
    refine .inr ⟨?_, ?_⟩
    · rw [h.isData, hgeneric]
      rfl
    · obtain ⟨⟨v, _ | _⟩ | ⟨get, set⟩, e, c⟩ := q
      · refine ⟨fun hask => ?_, fun w hw => ?_⟩
        · have hwritable := h.writable rfl
          rw [hask] at hwritable
          cases hwritable
        · have hvalue := h.value v rfl
          rw [hw] at hvalue
          exact Value.sameValue_symm hvalue
      · trivial
      · refine ⟨fun f hf => ?_, fun f hf => ?_⟩
        · have hget := h.getter rfl
          rw [hf] at hget
          exact hget.symm
        · have hset := h.setter rfl
          rw [hf] at hset
          exact hset.symm

theorem update_update (p : Property) (d : Descriptor) :
    (p.update d).update d = p.update d := by
  have htwice : ∀ {α : Type} (x : Option α) (a : α), x.getD (x.getD a) = x.getD a := by
    intro α x a
    cases x <;> rfl
  obtain ⟨⟨v, w⟩ | ⟨get, set⟩, e, c⟩ := p
  · simp only [Property.update, Property.updateSlot, htwice]
  · simp only [Property.update, Property.updateSlot, htwice]
    rcases d.get with _ | f <;> rcases d.set with _ | g <;> rfl

/-- **Again.** What the rule has stored for a request it lets be, or stores as it is, when it is
asked again. -/
theorem validate_again (hd : d.WellFormed) (h : d.validate extensible old = .store q)
    (extensible' : Bool) :
    d.validate extensible' (some q) = .keep ∨ d.validate extensible' (some q) = .store q := by
  have hyields := yields_of_store hd h
  have hsame : q.update d = q := by
    obtain ⟨base, rfl, -, -⟩ := exists_base_of_store hd h
    exact update_update base d
  have hgranted := isGranted_validate_iff.mpr (hyields.permits extensible')
  rw [validate] at hgranted ⊢
  split
  · exact .inl rfl
  next hempty =>
  rw [if_neg hempty] at hgranted
  split
  · rw [validateConfigurable]
    split
    · rw [hsame]
      exact .inr rfl
    · next hkind =>
      -- it is of the kind that was asked for
      rw [hyields.isData] at hkind
      rcases hgeneric : d.isGeneric with _ | _ <;> simp [hgeneric] at hkind
  · next hconf =>
    rw [if_neg hconf] at hgranted
    obtain hrefuse | hkeep | ⟨-, -, hstore⟩ := d.validateFixed_cases q
    · rw [hrefuse] at hgranted
      cases hgranted
    · exact .inl hkeep
    · rw [hstore, hsame]
      exact .inr rfl

end Descriptor

/-! ## One object -/

namespace Object

variable {s : Object} {k : PropertyKey} {d : Descriptor}

/-- The objects differ in the property of one key at most; the other keys come in the same
order. -/
structure AlikeBut (k : PropertyKey) (s s' : Object) : Prop extends s.Alike s' where
  own? : ∀ j, j ≠ k → s'.own? j = s.own? j
  keys : s'.keys.filter (· ≠ k) = s.keys.filter (· ≠ k)
  extensible : s'.extensible = s.extensible

theorem AlikeBut.refl (k : PropertyKey) (s : Object) : AlikeBut k s s :=
  ⟨.refl s, fun _ _ => rfl, rfl, rfl⟩

theorem alikeBut_put (s : Object) (k : PropertyKey) (q : Property) : AlikeBut k s (s.put k q) where
  kind := rfl
  prototype := rfl
  own? j hj := by rw [own?_put, if_neg hj]
  keys := s.properties.keys_insert_filter k q
  extensible := rfl

theorem alikeBut_define (s : Object) (k : PropertyKey) (d : Descriptor) :
    AlikeBut k s (s.define k d).2 := by
  obtain hsame | ⟨q, -, hput⟩ := s.define_cases k d
  · rw [hsame]
    exact .refl k s
  · rw [hput]
    exact s.alikeBut_put k q

/-- A request that is refused changes nothing. -/
theorem define_refused (h : (s.define k d).1 = false) : (s.define k d).2 = s := by
  obtain hsame | ⟨q, -, hput⟩ := s.define_cases k d
  · exact hsame
  · rw [hput] at h
    cases h

/-- A property that is there keeps its place. -/
theorem keys_define (h : (s.own? k).isSome) : (s.define k d).2.keys = s.keys := by
  obtain hsame | ⟨q, -, hput⟩ := s.define_cases k d
  · rw [hsame]
  · rw [hput]
    exact PropertyTable.keys_insert h q

theorem define_granted_iff : (s.define k d).1 = true ↔ d.Permits s.extensible (s.own? k) := by
  rw [← Descriptor.isGranted_validate_iff, define]
  cases d.validate s.extensible (s.own? k) <;> simp [apply, Verdict.isGranted]

/-- What a request that is granted leaves: the property that was asked for. -/
theorem yields_define (hd : d.WellFormed) (h : (s.define k d).1 = true) :
    ∃ q, (s.define k d).2.own? k = some q ∧ d.Yields (s.own? k) q := by
  rw [define] at h ⊢
  rcases hv : d.validate s.extensible (s.own? k) with _ | _ | q <;> rw [hv] at h
  · cases h
  · rcases hk : s.own? k with _ | p <;> rw [hk] at hv
    · rw [Descriptor.validate] at hv
      split at hv <;> cases hv
    · exact ⟨p, hk, Descriptor.yields_of_keep hd hv⟩
  · exact ⟨q, by rw [apply, own?_put, if_pos rfl], Descriptor.yields_of_store hd hv⟩

/-- A request that is granted once is granted again, and then nothing is seen to change. -/
theorem define_again (hd : d.WellFormed) (h : (s.define k d).1 = true) :
    ((s.define k d).2.define k d).1 = true ∧
      (∀ j, ((s.define k d).2.define k d).2.own? j = (s.define k d).2.own? j) ∧
      ((s.define k d).2.define k d).2.keys = (s.define k d).2.keys := by
  rcases hv : d.validate s.extensible (s.own? k) with _ | _ | q
  · rw [define, hv] at h
    cases h
  · have hdefine : s.define k d = (true, s) := by rw [define, hv]; rfl
    rw [hdefine, hdefine]
    exact ⟨rfl, fun _ => rfl, rfl⟩
  · have hdefine : s.define k d = (true, s.put k q) := by rw [define, hv]; rfl
    have hown : (s.put k q).own? k = some q := by rw [own?_put, if_pos rfl]
    rw [hdefine, define, hown]
    obtain hagain | hagain := Descriptor.validate_again hd hv (s.put k q).extensible <;>
      rw [hagain]
    · exact ⟨rfl, fun _ => rfl, rfl⟩
    · refine ⟨rfl, fun j => ?_, PropertyTable.keys_insert (Option.isSome_of_eq_some hown) q⟩
      rw [apply, own?_put]
      split
      · next hj => rw [hj, hown]
      · rfl

end Object

end Ecma
