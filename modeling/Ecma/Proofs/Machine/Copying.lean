import Ecma.Operation.List
import Ecma.Proofs.Machine.DataProperty
import Ecma.Proofs.Object.KeyOrder

/-!
# Copying properties

The enumerable properties of an object are copied to another one by creating them there, one after
the other, with the values that are found. If the source has data properties only, no code runs
meanwhile, and the values are those of the start: **copying is creating**
(`execute_copyProperties`).

So copying can fail only where a property is refused. What was copied before stays
(`copying_data_properties`), and what an object is after a number of properties were copied to it
is said once, for all of them and for the first few (`Object.Copied`).
-/

namespace Ecma

/-- A string that is not an integer. -/
def PropertyKey.isString : PropertyKey → Bool
  | .string _ => true
  | _ => false

theorem Property.exists_value? {p : Property} (h : p.isData) : ∃ v, p.value? = some v := by
  obtain ⟨⟨v, w⟩ | ⟨get, set⟩, e, c⟩ := p
  · exact ⟨v, rfl⟩
  · cases h

namespace Object

/-! ## The order of keys -/

/-- A group without integers is listed in two parts. -/
theorem filter_keys (s : Object) {group : PropertyKey → Bool}
    (hgroup : ∀ n, group (.index n) = false) :
    s.keys.filter group =
      (s.names fun k => !k.isSymbol).filter group ++
        (s.names PropertyKey.isSymbol).filter group := by
  have hindices : (s.properties.indexed.keys.map PropertyKey.index).filter group = [] := by
    refine List.filter_eq_nil_iff.mpr fun k hk => ?_
    obtain ⟨n, -, rfl⟩ := List.mem_map.mp hk
    exact ne_true_of_eq_false (hgroup n)
  rw [keys, PropertyTable.keys, List.filter_append, List.filter_append, hindices, List.nil_append,
    names, names]

theorem filter_keys_isString (s : Object) :
    s.keys.filter PropertyKey.isString = s.names fun k => !k.isSymbol := by
  rw [s.filter_keys fun _ => rfl, List.filter_eq_self.mpr, List.filter_eq_nil_iff.mpr,
    List.append_nil]
  · intro k hk
    obtain ⟨hp, -, -⟩ := PropertyTable.mem_keysWhere.mp hk
    cases k with
    | index n => cases hp
    | string n => cases hp
    | symbol n => exact Bool.false_ne_true
  · intro k hk
    obtain ⟨hp, hindex, -⟩ := PropertyTable.mem_keysWhere.mp hk
    cases k with
    | index n => cases hindex
    | string n => rfl
    | symbol n => cases hp

theorem filter_keys_isSymbol (s : Object) :
    s.keys.filter PropertyKey.isSymbol = s.names PropertyKey.isSymbol := by
  rw [s.filter_keys fun _ => rfl, List.filter_eq_nil_iff.mpr, List.filter_eq_self.mpr,
    List.nil_append]
  · exact fun k hk => (PropertyTable.mem_keysWhere.mp hk).1
  · intro k hk
    simpa using (PropertyTable.mem_keysWhere.mp hk).1

/-- New names come after the old ones, in the order in which they are created. -/
theorem names_created (s : Object) {entries : List (PropertyKey × Value)}
    (hnodup : (entries.map Prod.fst).Nodup) (p : PropertyKey → Bool) :
    (s.created entries).names p =
      s.names p ++
        (entries.map Prod.fst).filter fun k => p k ∧ k.index? = none ∧ s.own? k = none := by
  induction entries generalizing s with
  | nil => rw [List.map_nil, List.filter_nil, List.append_nil, created]
  | cons e rest ih =>
    obtain ⟨k, v⟩ := e
    rw [List.map_cons, List.nodup_cons] at hnodup
    -- creating one does not make the others less new
    have hrest : (rest.map Prod.fst).filter (fun j =>
          p j ∧ j.index? = none ∧ (s.put k (.data v true true true)).own? j = none) =
        (rest.map Prod.fst).filter fun j => p j ∧ j.index? = none ∧ s.own? j = none := by
      refine List.filter_congr fun j hj => ?_
      rw [own?_put, if_neg fun heq : j = k => hnodup.1 (heq ▸ hj)]
    rw [created, ih _ hnodup.2, hrest, names_put, List.map_cons, List.filter_cons]
    simp only [decide_eq_true_eq]
    split
    · rw [List.append_assoc, List.singleton_append]
    · rfl

/-! ## What is copied -/

/-- The keys of the enumerable properties that are not excluded. -/
def copyable (src : Object) (excluded : List PropertyKey) : List PropertyKey :=
  src.keys.filter fun k => (src.own? k).any Property.enumerable && k ∉ excluded

/-- A key with the value that the object has there. -/
def entry (src : Object) (k : PropertyKey) : PropertyKey × Value :=
  (k, ((src.own? k).bind Property.value?).getD .undefined)

/-- The object has data properties only. -/
def IsPlain (src : Object) : Prop := ∀ k p, src.own? k = some p → p.isData

theorem map_fst_entry (src : Object) (ks : List PropertyKey) :
    (ks.map src.entry).map Prod.fst = ks := by
  rw [List.map_map]
  exact List.map_id ks

theorem nodup_copyable (src : Object) (excluded : List PropertyKey) :
    (src.copyable excluded).Nodup :=
  src.properties.nodup_keys.filter _

/-- What is left of `s` after the properties of `src` at some keys were copied to it. -/
structure Copied (src s : Object) (ks : List PropertyKey) (s' : Object) : Prop where
  kind : s'.kind = s.kind
  prototype : s'.prototype = s.prototype
  extensible : s'.extensible = s.extensible
  /-- the values are there, whatever flags they had -/
  copied : ∀ k ∈ ks, ∃ p v,
    src.own? k = some p ∧ p.value? = some v ∧ s'.own? k = some (.data v true true true)
  /-- everything else is as it was -/
  kept : ∀ k, k ∉ ks → s'.own? k = s.own? k
  /-- of the strings and of the symbols, new ones come last, in the order of copying -/
  order : ∀ group ∈ [PropertyKey.isString, PropertyKey.isSymbol],
    s'.keys.filter group =
      s.keys.filter group ++ ks.filter fun k => group k ∧ s.own? k = none

variable {src s : Object} {ks : List PropertyKey}

theorem copied_created (hplain : src.IsPlain) {excluded : List PropertyKey}
    (hks : ks.Sublist (src.copyable excluded)) :
    src.Copied s ks (s.created (ks.map src.entry)) := by
  have hnodup := hks.nodup (src.nodup_copyable excluded)
  have hkeys := src.map_fst_entry ks
  have hfixed := s.created_fixed (ks.map src.entry)
  refine ⟨hfixed.1, hfixed.2.1, hfixed.2.2, fun k hk => ?_, fun k hk => ?_, fun group hgroup => ?_⟩
  · have hthere : (src.own? k).isSome :=
      PropertyTable.mem_keys.mp (List.mem_of_mem_filter (hks.subset hk))
    obtain ⟨p, hp⟩ := Option.isSome_iff_exists.mp hthere
    obtain ⟨v, hv⟩ := Property.exists_value? (hplain k p hp)
    have hentry : src.entry k = (k, v) := by rw [entry, hp, Option.bind_some, hv, Option.getD_some]
    refine ⟨p, v, hp, hv, own?_created_of_mem (hkeys.symm ▸ hnodup) ?_⟩
    exact hentry ▸ List.mem_map_of_mem hk
  · exact own?_created_of_not_mem (hkeys.symm ▸ hk)
  · have hnames := s.names_created (hkeys.symm ▸ hnodup)
    simp only [hkeys] at hnames
    rcases List.mem_pair.mp hgroup with rfl | rfl
    · rw [filter_keys_isString, filter_keys_isString, hnames]
      refine congrArg _ (List.filter_congr fun k _ => ?_)
      cases k <;> simp [PropertyKey.isString, PropertyKey.isSymbol, PropertyKey.index?]
    · rw [filter_keys_isSymbol, filter_keys_isSymbol, hnames]
      refine congrArg _ (List.filter_congr fun k _ => ?_)
      cases k <;> simp [PropertyKey.isSymbol, PropertyKey.index?]

end Object

namespace Machine

variable {σ : Type} {m : Machine σ} {target source : ObjectId} {src s : Object}

section

variable (E : Embedder σ) (fuel : Nat) (hplain : src.IsPlain) (hne : target ≠ source)
  (hsource : m.heap.objects[source.index]? = some (.object src))
  (htarget : m.heap.objects[target.index]? = some (.object s)) (hs : s.kind ≠ .array)
include hplain hne hsource htarget hs

/-- **Copying is creating.** While properties are copied the values are those of the start. -/
theorem execute_copyProperties (ks : List PropertyKey) :
    execute E (fuel + 2) (Program.copyProperties target source ks) m =
      execute E (fuel + 2) (Program.createAll target
        ((ks.filter fun k => (src.own? k).any Property.enumerable).map src.entry)) m := by
  -- the source does not change with the target, so the state of the target may be any
  induction ks generalizing m s with
  | nil => rfl
  | cons k rest ih =>
    have hown := execute_getOwnProperty E hsource (fuel + 1) k
    refine (execute_bind hown _).trans ?_
    rcases hp : src.own? k with _ | p
    · rw [List.filter_cons_of_neg (by rw [hp]; exact Bool.false_ne_true)]
      exact ih hsource htarget hs
    cases he : p.enumerable with
    | false =>
      rw [List.filter_cons_of_neg (by rw [hp]; exact ne_true_of_eq_false he)]
      simp only [he]
      exact ih hsource htarget hs
    | true =>
      have hget : execute E (fuel + 2) (Program.get source k) m = (.value (src.entry k).2, m) := by
        obtain ⟨v, hv⟩ := Property.exists_value? (hplain k p hp)
        rw [execute_get_own E hsource fuel hp hv, Object.entry, hp, Option.bind_some, hv,
          Option.getD_some]
      have hcreate := execute_createDataPropertyOrThrow E htarget hs (fuel + 1) k (src.entry k).2
      rw [List.filter_cons_of_pos (by rw [hp]; exact he), List.map_cons]
      simp only [he]
      refine (execute_bind hget _).trans ?_
      split at hcreate
      · refine (execute_bind hcreate _).trans (.trans ?_ (execute_bind hcreate _).symm)
        have hkept := getElem?_setObject_ne (ObjectId.index_ne hne.symm) m
        exact ih ((hkept _).trans hsource) (getElem?_setObject htarget _) hs
      · exact (execute_bind_raise hcreate _).trans (execute_bind_raise hcreate _).symm

theorem execute_copyDataProperties (excluded : List PropertyKey) :
    execute E (fuel + 2) (Program.copyDataProperties target (.object source) excluded) m =
      execute E (fuel + 2)
        (Program.createAll target ((src.copyable excluded).map src.entry)) m := by
  have hcopy := execute_copyProperties E fuel hplain hne hsource htarget hs
    (src.keys.filter fun k => k ∉ excluded)
  rw [List.filter_filter] at hcopy
  exact (execute_bind (execute_ownKeys E hsource (fuel + 1)) _).trans hcopy

end

/-! ## The whole operation -/

/-- **Copying properties.** From an object with data properties only to another object: all
enumerable properties that are not excluded are copied unless one of them is refused, and then
those before the first such are. -/
theorem copying_data_properties (hsource : m.heap.objects[source.index]? = some (.object src))
    (hplain : src.IsPlain) (htarget : m.heap.objects[target.index]? = some (.object s))
    (hs : s.kind ≠ .array) (hne : target ≠ source) (excluded : List PropertyKey) :
    ∃ (x : Outcome Unit) (s' : Object),
      (∀ (E : Embedder σ) (fuel : Nat),
        execute E (fuel + 2) (Program.copyDataProperties target (.object source) excluded) m =
          (x, m.setObject target s')) ∧
      (m.setObject target s').heap.objects[source.index]? = some (.object src) ∧
      (x = .value () ↔ ∀ k ∈ src.copyable excluded,
        (∃ p, s.own? k = some p ∧ p.configurable = true) ∨
          s.own? k = none ∧ s.extensible = true) ∧
      (x = .value () → src.Copied s (src.copyable excluded) s') ∧
      (x ≠ .value () → ∃ before k after,
        src.copyable excluded = before ++ k :: after ∧
        (∀ j ∈ before, s.accepts j = true) ∧ s.accepts k = false ∧
        x = .raise (.cannotRedefine k.toText) ∧ (Cause.cannotRedefine k.toText).kind = .type ∧
        src.Copied s before s') := by
  have hrun := fun E fuel =>
    execute_copyDataProperties E fuel hplain hne hsource htarget hs excluded
  have hsource' : ∀ s', (m.setObject target s').heap.objects[source.index]? = some (.object src) :=
    fun s' => (getElem?_setObject_ne (ObjectId.index_ne hne.symm) m s').trans hsource
  simp only [← Object.accepts_iff]
  rcases hfirst : (src.copyable excluded).find? (fun k => !s.accepts k) with _ | k
  · have haccepts : ∀ k ∈ src.copyable excluded, s.accepts k = true := by
      simpa using List.find?_eq_none.mp hfirst
    refine ⟨.value (), _, fun E fuel => (hrun E fuel).trans ?_, hsource' _,
      iff_of_true rfl haccepts, fun _ => Object.copied_created hplain (.refl _),
      fun hfailed => absurd rfl hfailed⟩
    exact execute_createAll E htarget hs (fuel + 1) (List.forall_mem_map.mpr haccepts)
  · obtain ⟨hrefused, before, after, hsplit, hbefore⟩ := List.find?_eq_some_iff_append.mp hfirst
    simp only [Bool.not_eq_true', Bool.not_not] at hrefused hbefore
    refine ⟨.raise (.cannotRedefine k.toText), _, fun E fuel => (hrun E fuel).trans ?_, hsource' _,
      iff_of_false nofun ?_, nofun, fun _ => ⟨before, k, after, hsplit, hbefore, hrefused, rfl, rfl,
        Object.copied_created hplain (hsplit ▸ List.sublist_append_left _ _)⟩⟩
    · have hnodup := src.nodup_copyable excluded
      rw [hsplit] at hnodup ⊢
      rw [List.map_append, List.map_cons]
      refine execute_createAll_refused E htarget hs (fuel + 1) (List.forall_mem_map.mpr hbefore) ?_
        hrefused _
      rw [Object.map_fst_entry]
      exact fun hk => (List.nodup_append.mp hnodup).2.2 k hk k List.mem_cons_self rfl
    · intro haccepts
      have hk := haccepts k (hsplit ▸ List.mem_append_right before List.mem_cons_self)
      rw [hrefused] at hk
      cases hk

/-- Of three properties the second is refused, so the first alone is copied. -/
theorem copying_data_properties_refused :
    let src := ((((Object.new (.ordinary "Object" none false) none).put
      (.string "a") (.data .null true true true)).put
      (.string "b") (.data .null true true true)).put
      (.string "c") (.data .undefined true true true)).put
      (.index 7) (.data (.boolean true) false true false)
    let s := (Object.new (.ordinary "Object" none false) none).put
      (.string "b") (.data .undefined true true false)
    let m : Machine Unit := ⟨{ Heap.initial with objects := #[.object src, .object s] }, {}, ()⟩
    ∃ s', (∀ E fuel,
        execute E (fuel + 2) (Program.copyDataProperties ⟨1⟩ (.object ⟨0⟩) [.string "a"]) m =
          (.raise (.cannotRedefine "b"), m.setObject ⟨1⟩ s')) ∧
      s'.own? (.index 7) = some (.data (.boolean true) true true true) ∧
      s'.own? (.string "b") = s.own? (.string "b") ∧ s'.own? (.string "c") = none := by
  intro src s m
  have hplain : src.IsPlain := by
    intro k p hp
    simp only [src, Object.own?_put, Object.own?_new] at hp
    split_ifs at hp <;> cases hp <;> rfl
  have hkeys : src.copyable [.string "a"] = [.index 7, .string "b", .string "c"] := by
    decide +kernel
  have haccepts : s.accepts (.index 7) = true ∧ s.accepts (.string "b") = false := by
    decide +kernel
  have hsource : m.heap.objects[(⟨0⟩ : ObjectId).index]? = some (.object src) := rfl
  have htarget : m.heap.objects[(⟨1⟩ : ObjectId).index]? = some (.object s) := rfl
  obtain ⟨x, s', hrun, -, hall, -, hrefused⟩ :=
    copying_data_properties hsource hplain htarget nofun (by decide) [.string "a"]
  simp only [← Object.accepts_iff] at hall
  have hfailed : x ≠ .value () := fun hx => by
    have hb := hall.mp hx (.string "b") (hkeys ▸ by decide)
    rw [haccepts.2] at hb
    cases hb
  obtain ⟨before, k, after, hsplit, hbefore, hk, rfl, -, hcopied⟩ := hrefused hfailed
  -- the first of the three is accepted and the second is not
  obtain ⟨rfl, rfl, -⟩ : before = [.index 7] ∧ k = .string "b" ∧ after = [.string "c"] := by
    rw [hkeys] at hsplit
    rcases before with _ | ⟨j, _ | ⟨j', before⟩⟩
    · obtain ⟨rfl, -⟩ := List.cons.inj hsplit
      rw [haccepts.1] at hk
      cases hk
    · simpa [eq_comm] using hsplit
    · obtain ⟨-, hsplit⟩ := List.cons.inj hsplit
      obtain ⟨rfl, -⟩ := List.cons.inj hsplit
      have hb := hbefore (.string "b") (by simp)
      rw [haccepts.2] at hb
      cases hb
  obtain ⟨p, v, hp, hv, hcopy⟩ := hcopied.copied (.index 7) (by decide)
  refine ⟨s', hrun, ?_, hcopied.kept _ (by decide), (hcopied.kept _ (by decide)).trans rfl⟩
  obtain rfl : .data (.boolean true) false true false = p := Option.some.inj hp
  obtain rfl : .boolean true = v := Option.some.inj hv
  exact hcopy

end Machine

end Ecma
