import Mathlib.Data.List.Nodup
import Ecma.Operation.Description
import Ecma.Proofs.Machine.DataProperty
import Ecma.Proofs.Value.Coercion

/-!
# Descriptions of properties

A descriptor is written as an object that has a property for each field that is present
(`Descriptor.description`). Reading it back asks for all six fields, present or not, and an absent
one is looked for along the prototype chain. So **the description means the same descriptor**
(`description_round_trip`) only if nothing is found there.

What is found above the object is up to the objects there, which may run code when they are asked.
Reading is therefore followed from any machine that satisfies an invariant (`Delivers`): it does not
matter what such code does, as long as it says no and leaves the description alone.
-/

namespace Ecma

/-- A new object, before anything is written to it. -/
def Object.blank : Object :=
  .new (.ordinary "Object" none false) (some Intrinsic.objectPrototype.id)

namespace Descriptor

variable {d : Descriptor}

/-! ## Completion -/

/-- Defaults do not change what is described. -/
theorem toProperty_complete (d : Descriptor) : d.complete.toProperty = d.toProperty := by
  obtain ⟨value, writable, get, set, enumerable, configurable⟩ := d
  cases value <;> cases writable <;> cases get <;> cases set <;> rfl

theorem complete_complete (d : Descriptor) : d.complete.complete = d.complete := by
  obtain ⟨value, writable, get, set, enumerable, configurable⟩ := d
  cases value <;> cases writable <;> cases get <;> cases set <;> rfl

/-! ## The object that describes -/

/-- The names of the fields. -/
def fieldNames : List String := ["value", "writable", "get", "set", "enumerable", "configurable"]

/-- The fields as they are written, with those that are absent. -/
def fields (d : Descriptor) : List (String × Option Value) :=
  [("value", d.value), ("writable", d.writable.map .boolean), ("get", d.get), ("set", d.set),
    ("enumerable", d.enumerable.map .boolean), ("configurable", d.configurable.map .boolean)]

/-- The fields that are present, as properties. -/
def entries (d : Descriptor) : List (PropertyKey × Value) :=
  (Program.presentFields d).map fun f => (.string f.1, f.2)

/-- The object that describes a descriptor. -/
def description (d : Descriptor) : Object := Object.blank.created d.entries

theorem map_fst_fields (d : Descriptor) : d.fields.map Prod.fst = fieldNames := rfl

theorem nodup_fields (d : Descriptor) : (d.fields.map Prod.fst).Nodup := by
  rw [map_fst_fields]
  decide

theorem presentFields_eq (d : Descriptor) :
    Program.presentFields d = d.fields.filterMap fun f => f.2.map fun v => (f.1, v) := rfl

theorem mem_entries {k : PropertyKey} {v : Value} :
    (k, v) ∈ d.entries ↔ ∃ name, (name, some v) ∈ d.fields ∧ .string name = k := by
  simp only [entries, presentFields_eq, List.mem_map, List.mem_filterMap]
  constructor
  · rintro ⟨f, ⟨⟨name, w⟩, hfield, hf⟩, hk⟩
    obtain ⟨v, rfl, rfl⟩ := Option.map_eq_some_iff.mp hf
    obtain ⟨rfl, rfl⟩ := Prod.mk.inj hk
    exact ⟨name, hfield, rfl⟩
  · rintro ⟨name, hfield, rfl⟩
    exact ⟨(name, v), ⟨_, hfield, rfl⟩, rfl⟩

theorem nodup_entries (d : Descriptor) : (d.entries.map Prod.fst).Nodup := by
  rw [List.Nodup, List.pairwise_map, entries, List.pairwise_map, presentFields_eq,
    List.pairwise_filterMap]
  refine (List.pairwise_map.mp d.nodup_fields).imp fun {a b} hne f hf g hg heq => hne ?_
  obtain ⟨v, -, rfl⟩ := Option.map_eq_some_iff.mp hf
  obtain ⟨w, -, rfl⟩ := Option.map_eq_some_iff.mp hg
  exact PropertyKey.string.inj heq

/-- A description has a property for each field that is present. -/
theorem own?_description {name : String} {v : Option Value} (hfield : (name, v) ∈ d.fields) :
    d.description.own? (.string name) = v.map (.data · true true true) := by
  cases v with
  | none =>
    refine (Object.own?_created_of_not_mem fun hk => ?_).trans (Object.own?_new _ _ _)
    obtain ⟨⟨k, v⟩, hentry, rfl⟩ := List.mem_map.mp hk
    obtain ⟨name', hfield', hname⟩ := mem_entries.mp hentry
    obtain rfl := PropertyKey.string.inj hname
    -- no name is that of two fields
    cases List.inj_on_of_nodup_map d.nodup_fields hfield hfield' rfl
  | some v => exact Object.own?_created_of_mem d.nodup_entries (mem_entries.mpr ⟨name, hfield, rfl⟩)

end Descriptor

namespace Machine

variable {σ α β : Type} {E : Embedder σ} {fuel : Nat}

/-! ## Writing -/

theorem writeFields_eq (o : ObjectId) (fields : List (String × Value)) :
    (Program.writeFields o fields : Program σ Unit) =
      Program.createAll o (fields.map fun f => (.string f.1, f.2)) := by
  induction fields with
  | nil => rfl
  | cons f rest ih =>
    rw [Program.writeFields, ih]
    rfl

theorem execute_fromPropertyDescriptor (E : Embedder σ) (fuel : Nat) {m : Machine σ}
    (hproto : Intrinsic.objectPrototype.id.index < m.heap.objects.size) (d : Descriptor) :
    execute E (fuel + 1) (Program.fromPropertyDescriptor (some d)) m =
      (.value (.object m.fresh), m.grow d.description) := by
  have hnew : execute E (fuel + 1) Program.newObject m = (.value m.fresh, m.grow .blank) := by
    refine execute_allocate E (fuel + 1) rfl fun p hp => ?_
    obtain rfl := Option.some.inj hp
    exact hproto
  have haccepts : ∀ e ∈ d.entries, Object.blank.accepts e.1 = true := fun e _ =>
    Object.accepts_iff.mpr (.inr ⟨Object.own?_new _ _ _, rfl⟩)
  have hkind : Object.blank.kind ≠ .array := nofun
  have hwrite := execute_createAll E (m.getElem?_grow_fresh .blank) hkind fuel haccepts
  rw [setObject_grow] at hwrite
  rw [Program.fromPropertyDescriptor, execute_bind hnew, writeFields_eq]
  exact execute_bind hwrite _

/-! ## Reading -/

/-- From every machine that satisfies `I` the program ends with a value and leaves such a
machine. -/
def Delivers (E : Embedder σ) (fuel : Nat) (I : Machine σ → Prop) (p : Program σ α) (a : α) :
    Prop :=
  ∀ m, I m → ∃ m', execute E fuel p m = (.value a, m') ∧ I m'

variable {I : Machine σ → Prop}

theorem delivers_pure (a : α) : Delivers E fuel I (pure a) a := fun m hm => ⟨m, rfl, hm⟩

theorem Delivers.bind {p : Program σ α} {f : α → Program σ β} {a : α} {b : β}
    (hp : Delivers E fuel I p a) (hf : Delivers E fuel I (f a) b) :
    Delivers E fuel I (p >>= f) b := by
  intro m hm
  obtain ⟨m', hrun, hm'⟩ := hp m hm
  obtain ⟨m'', hrun', hm''⟩ := hf m' hm'
  exact ⟨m'', (execute_bind hrun f).trans hrun', hm''⟩

variable {o parent : ObjectId} {s : Object} {name : String}
  (ho : ∀ m, I m → m.heap.objects[o.index]? = some (.object s))
  (hparent : s.prototype = some parent)
  (hnone : Delivers E (fuel + 1) I (Program.hasProperty parent (.string name)) false)
include ho hparent hnone

/-- A field is read from the object itself, or it is absent. -/
theorem delivers_readField {v : Option Value}
    (hv : s.own? (.string name) = v.map (.data · true true true)) :
    Delivers E (fuel + 2) I (Program.readField o name) v := by
  cases v with
  | none =>
    have hhas : Delivers E (fuel + 2) I (Program.hasProperty o (.string name)) false := by
      intro m hm
      rw [execute_hasProperty_parent E (ho m hm) fuel hv hparent]
      exact hnone m hm
    exact hhas.bind (delivers_pure none)
  | some v =>
    have hhas : Delivers E (fuel + 2) I (Program.hasProperty o (.string name)) true :=
      fun m hm => ⟨m, execute_hasProperty_own E (ho m hm) fuel hv, hm⟩
    have hget : Delivers E (fuel + 2) I (Program.get o (.string name)) v :=
      fun m hm => ⟨m, execute_get_own E (ho m hm) fuel hv rfl, hm⟩
    exact hhas.bind (hget.bind (delivers_pure (some v)))

theorem delivers_readFlag {b : Option Bool}
    (hb : s.own? (.string name) = (b.map Value.boolean).map (.data · true true true)) :
    Delivers E (fuel + 2) I (Program.readFlag o name) b := by
  have hfield := delivers_readField ho hparent hnone hb
  cases b with
  | none => exact hfield.bind (delivers_pure none)
  | some b => exact hfield.bind (.bind (delivers_pure b) (delivers_pure (some b)))

theorem delivers_readAccessor {v : Option Value}
    (hv : s.own? (.string name) = v.map (.data · true true true))
    (hcallable : ∀ w ∈ v, w = .undefined ∨ ∀ m, I m → m.callable? w = some true) (c : Cause) :
    Delivers E (fuel + 2) I (Program.readAccessor o name c) v := by
  have hfield := delivers_readField ho hparent hnone hv
  cases v with
  | none => exact hfield.bind (delivers_pure none)
  | some v =>
    rcases hcallable v rfl with rfl | hcallable
    · exact hfield.bind (delivers_pure (some Value.undefined))
    · cases v with
      | object f =>
        have hcall : Delivers E (fuel + 2) I (Program.isCallable (.object f)) true := by
          intro m hm
          have hrun := (performs_isCallableObject E (fuel + 2) f m).2
          rw [hcallable m hm] at hrun
          exact ⟨m, hrun, hm⟩
        exact hfield.bind (hcall.bind (delivers_pure (some (Value.object f))))
      | _ => exact fun m hm => nomatch hcallable m hm

omit hnone

theorem delivers_toPropertyDescriptor {d : Descriptor} (hd : (d.isAccessor && d.isData) = false)
    (hs : ∀ f ∈ d.fields, s.own? (.string f.1) = f.2.map (.data · true true true))
    (hcallable : ∀ v, d.get = some v ∨ d.set = some v →
      v = .undefined ∨ ∀ m, I m → m.callable? v = some true)
    (hnone : ∀ name ∈ Descriptor.fieldNames,
      Delivers E (fuel + 1) I (Program.hasProperty parent (.string name)) false) :
    Delivers E (fuel + 2) I (Program.toPropertyDescriptor (.object o)) d := by
  have hmem : ∀ {name : String} {v : Option Value}, (name, v) ∈ d.fields →
      Delivers E (fuel + 1) I (Program.hasProperty parent (.string name)) false := fun hf =>
    hnone _ (d.map_fst_fields ▸ List.mem_map_of_mem hf)
  have hflag : ∀ {name : String} {b : Option Bool}, (name, b.map Value.boolean) ∈ d.fields →
      Delivers E (fuel + 2) I (Program.readFlag o name) b := fun hf =>
    delivers_readFlag ho hparent (hmem hf) (hs _ hf)
  have haccessor : ∀ {name : String} {v : Option Value}, (name, v) ∈ d.fields →
      v = d.get ∨ v = d.set → ∀ c, Delivers E (fuel + 2) I (Program.readAccessor o name c) v := by
    intro name v hf hv
    refine delivers_readAccessor ho hparent (hmem hf) (hs _ hf) fun w hw => hcallable w ?_
    exact hv.imp (fun h => h.symm.trans hw) (fun h => h.symm.trans hw)
  have hvalue : Delivers E (fuel + 2) I (Program.readField o "value") d.value := by
    have hf : ("value", d.value) ∈ d.fields := by simp [Descriptor.fields]
    exact delivers_readField ho hparent (hmem hf) (hs _ hf)
  have hend : Delivers E (fuel + 2) I
      (if d.isAccessor && d.isData then Program.raise .mixedDescriptor else pure d) d := by
    rw [hd]
    exact delivers_pure d
  have henumerable : Delivers E (fuel + 2) I (Program.readFlag o "enumerable") d.enumerable :=
    hflag (by simp [Descriptor.fields])
  have hconfigurable : Delivers E (fuel + 2) I (Program.readFlag o "configurable") d.configurable :=
    hflag (by simp [Descriptor.fields])
  have hwritable : Delivers E (fuel + 2) I (Program.readFlag o "writable") d.writable :=
    hflag (by simp [Descriptor.fields])
  have hget : ∀ c, Delivers E (fuel + 2) I (Program.readAccessor o "get" c) d.get :=
    haccessor (by simp [Descriptor.fields]) (.inl rfl)
  have hset : ∀ c, Delivers E (fuel + 2) I (Program.readAccessor o "set" c) d.set :=
    haccessor (by simp [Descriptor.fields]) (.inr rfl)
  exact henumerable.bind <| hconfigurable.bind <| hvalue.bind <| hwritable.bind <|
    (hget _).bind <| (hset _).bind hend

omit ho hparent

/-- A description reads as what it describes, in every machine that has it as it is and in which
what could be called can be called. -/
theorem delivers_description {m : Machine σ} {d : Descriptor}
    (hd : (d.isAccessor && d.isData) = false)
    (hcallable : ∀ v, d.get = some v ∨ d.set = some v →
      v = .undefined ∨ m.callable? v = some true)
    (hI : ∀ m₁, I m₁ → m₁.heap.objects[o.index]? = some (.object d.description) ∧
      ∀ v, m.callable? v = some true → m₁.callable? v = some true)
    (hnone : ∀ name ∈ Descriptor.fieldNames, Delivers E (fuel + 1) I
      (Program.hasProperty Intrinsic.objectPrototype.id (.string name)) false) :
    Delivers E (fuel + 2) I (Program.toPropertyDescriptor (.object o)) d := by
  have hparent := (Object.blank.created_fixed d.entries).2.1
  refine delivers_toPropertyDescriptor (fun m₁ hm₁ => (hI m₁ hm₁).1) hparent hd
    (fun f hf => Descriptor.own?_description hf) (fun v hv => ?_) hnone
  exact (hcallable v hv).imp_right fun hv m₁ hm₁ => (hI m₁ hm₁).2 v hv

/-! ## There and back -/

/-- What can be called can be called when there is another object. -/
theorem callable?_grow {m : Machine σ} {v : Value} (hv : m.callable? v = some true) (s : Object) :
    (m.grow s).callable? v = some true := by
  cases v with
  | object f =>
    obtain ⟨c, hc, hcallable⟩ := Option.map_eq_some_iff.mp hv
    exact Option.map_eq_some_iff.mpr ⟨c, Heap.getElem?_allocate_of_some hc _, hcallable⟩
  | _ => cases hv

/-- A name that is nowhere on a chain of objects of the model is not found when there is another
object, and nothing happens meanwhile. -/
theorem delivers_hasProperty_of_chain {m : Machine σ} {l : List ObjectId}
    (hl : m.heap.Chain (some o) l) {k : PropertyKey} (hnone : ∀ q ∈ l, m.heap.own? q k = none)
    (hfuel : l.length < fuel) (s : Object) :
    Delivers E fuel (· = m.grow s) (Program.hasProperty o k) false := by
  rintro _ rfl
  have hnearest : (m.grow s).heap.nearest? k l = none := by
    refine List.findSome?_eq_none_iff.mpr fun q hq => ?_
    obtain ⟨p, hp⟩ := hl.exists_link hq
    rw [own?_grow m s hp.index_lt, hnone q hq]
  have hl' : (m.grow s).heap.Chain (some o) l := hl.allocate (.object s)
  have hrun := execute_hasProperty_nearest E hl' hfuel k
  rw [hnearest] at hrun
  exact ⟨m.grow s, hrun, rfl⟩

/-- **There and back.** A descriptor that is not mixed and whose accessors can be called is written
as an object that reads as the same descriptor, fields being absent where they were, if none of
their names is found above: because the objects there are of the model and have no such property,
or because they say so when they are asked and leave the description alone. Stored properties and
completed descriptors lose nothing either. -/
theorem description_round_trip :
    (∀ {σ : Type} (m : Machine σ) (d : Descriptor),
      Intrinsic.objectPrototype.id.index < m.heap.objects.size →
      (d.isAccessor && d.isData) = false →
      (∀ v, d.get = some v ∨ d.set = some v → v = .undefined ∨ m.callable? v = some true) →
      ∃ o m', ∀ (E : Embedder σ) (fuel : Nat),
        execute E (fuel + 1) (Program.fromPropertyDescriptor (some d)) m =
          (.value (.object o), m') ∧
        (∀ l, m.heap.Chain (some Intrinsic.objectPrototype.id) l → l.length < fuel + 1 →
          (∀ q ∈ l, ∀ name ∈ Descriptor.fieldNames, m.heap.own? q (.string name) = none) →
          execute E (fuel + 2) (Program.toPropertyDescriptor (.object o)) m' = (.value d, m')) ∧
        ∀ I : Machine σ → Prop,
          (∀ m₁, I m₁ → m₁.heap.objects[o.index]? = m'.heap.objects[o.index]? ∧
            ∀ v, m.callable? v = some true → m₁.callable? v = some true) →
          (∀ name ∈ Descriptor.fieldNames, Delivers E (fuel + 1) I
            (Program.hasProperty Intrinsic.objectPrototype.id (.string name)) false) →
          Delivers E (fuel + 2) I (Program.toPropertyDescriptor (.object o)) d) ∧
    (∀ p : Property, p.toDescriptor.toProperty = p) ∧
    ∀ d : Descriptor, d.complete.toProperty = d.toProperty ∧ d.complete.complete = d.complete := by
  refine ⟨fun m d hproto hd hcallable => ?_, Property.toProperty_toDescriptor,
    fun d => ⟨d.toProperty_complete, d.complete_complete⟩⟩
  have hdescribes := m.getElem?_grow_fresh d.description
  refine ⟨m.fresh, m.grow d.description, fun E fuel =>
    ⟨execute_fromPropertyDescriptor E fuel hproto d, fun l hl hlength hnone => ?_, fun I hI => ?_⟩⟩
  · have hreads : Delivers E (fuel + 2) (· = m.grow d.description)
        (Program.toPropertyDescriptor (.object m.fresh)) d := by
      refine delivers_description hd hcallable ?_ fun name hname =>
        delivers_hasProperty_of_chain hl (fun q hq => hnone q hq name hname) hlength _
      rintro _ rfl
      exact ⟨hdescribes, fun v hv => callable?_grow hv _⟩
    obtain ⟨m', hrun, rfl⟩ := hreads _ rfl
    exact hrun
  · refine delivers_description hd hcallable fun m₁ hm₁ => ?_
    rw [(hI m₁ hm₁).1]
    exact ⟨hdescribes, (hI m₁ hm₁).2⟩

/-- A getter without a setter, and one flag of two. -/
theorem description_round_trip_getter :
    let E : Embedder Unit := default
    let m := (execute E 1 (Program.allocate (.function "get" 0 ⟨0⟩ none)) (initial {} ())).2
    let d : Descriptor := { get := some (.object ⟨11⟩), enumerable := some false }
    ∃ o m', execute E 3 (Program.fromPropertyDescriptor (some d)) m = (.value (.object o), m') ∧
      execute E 3 (Program.toPropertyDescriptor (.object o)) m' = (.value d, m') := by
  intro E m d
  have hsize : Intrinsic.objectPrototype.id.index < m.heap.objects.size := by decide +kernel
  have hgetter : m.callable? (.object ⟨11⟩) = some true := by decide +kernel
  have hchain : m.heap.Chain (some Intrinsic.objectPrototype.id) [Intrinsic.objectPrototype.id] :=
    .cons (show m.heap.Inherits Intrinsic.objectPrototype.id none by decide +kernel) .nil
  have hnone : ∀ q ∈ [Intrinsic.objectPrototype.id], ∀ name ∈ Descriptor.fieldNames,
      m.heap.own? q (.string name) = none := by decide +kernel
  have hcallable : ∀ v, d.get = some v ∨ d.set = some v →
      v = .undefined ∨ m.callable? v = some true := by
    rintro v (hv | hv)
    · obtain rfl := Option.some.inj hv
      exact .inr hgetter
    · cases hv
  obtain ⟨o, m', hruns⟩ := description_round_trip.1 m d hsize rfl hcallable
  obtain ⟨-, hread, -⟩ := hruns E 1
  exact ⟨o, m', (hruns E 2).1, hread _ hchain (by decide) hnone⟩

end Machine

end Ecma
