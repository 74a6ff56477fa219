import Ecma.Proofs.Machine.Lookup
import Ecma.Proofs.Machine.ObjectState

/-!
# Creating data properties

To create a data property is to ask for one with a value and with all flags set. Such a request is
granted unless there is a property that is not configurable, or none and no room for another
(`Object.accepts`), and what it leaves is the property that was asked for (`define_data`).

Creating one property after the other stops at **the first that is refused**
(`execute_createAll_append`, `execute_createAll_refused`): those before it are there, and nothing
else has changed.
-/

namespace Ecma

namespace Object

variable {s : Object} {k j : PropertyKey}

/-! ## One property -/

/-- The object accepts a data property at a key, whatever its value. -/
def accepts (s : Object) (k : PropertyKey) : Bool :=
  (s.own? k).elim s.extensible Property.configurable

theorem accepts_iff :
    s.accepts k = true ↔
      (∃ p, s.own? k = some p ∧ p.configurable = true) ∨ s.own? k = none ∧ s.extensible = true := by
  rw [accepts]
  rcases s.own? k with _ | p <;> simp

theorem define_data (s : Object) (k : PropertyKey) (v : Value) :
    s.define k (.data v true true true) =
      if s.accepts k then (true, s.put k (.data v true true true)) else (false, s) := by
  rw [define, accepts]
  rcases s.own? k with _ | ⟨⟨u, w⟩ | ⟨get, set⟩, e, c⟩
  · cases s.extensible <;> rfl
  · cases c <;> rfl
  · cases c <;> rfl

theorem accepts_put (s : Object) (k j : PropertyKey) (v : Value) :
    (s.put k (.data v true true true)).accepts j = (decide (j = k) || s.accepts j) := by
  rw [accepts, own?_put]
  split
  · next hj => rw [decide_eq_true hj]; rfl
  · next hj => rw [decide_eq_false hj]; rfl

/-! ## One property after the other -/

/-- The object with data properties created on it. -/
def created (s : Object) : List (PropertyKey × Value) → Object
  | [] => s
  | (k, v) :: rest => (s.put k (.data v true true true)).created rest

variable {entries : List (PropertyKey × Value)}

theorem created_fixed (s : Object) (entries : List (PropertyKey × Value)) :
    (s.created entries).kind = s.kind ∧ (s.created entries).prototype = s.prototype ∧
      (s.created entries).extensible = s.extensible := by
  induction entries generalizing s with
  | nil => exact ⟨rfl, rfl, rfl⟩
  | cons e rest ih => exact ih _

/-- The other properties are as they were. -/
theorem own?_created_of_not_mem (hk : k ∉ entries.map Prod.fst) :
    (s.created entries).own? k = s.own? k := by
  induction entries generalizing s with
  | nil => rfl
  | cons e rest ih =>
    rw [List.map_cons, List.mem_cons, not_or] at hk
    rw [created, ih hk.2, own?_put, if_neg hk.1]

/-- The properties that were created are there. -/
theorem own?_created_of_mem (hnodup : (entries.map Prod.fst).Nodup) {v : Value}
    (hk : (k, v) ∈ entries) : (s.created entries).own? k = some (.data v true true true) := by
  induction entries generalizing s with
  | nil => cases hk
  | cons e rest ih =>
    rw [List.map_cons, List.nodup_cons] at hnodup
    rcases List.mem_cons.mp hk with rfl | hk
    · rw [created, own?_created_of_not_mem hnodup.1, own?_put, if_pos rfl]
    · exact ih hnodup.2 hk

end Object

namespace Program

variable {σ : Type}

/-- Create data properties one after the other. -/
def createAll (o : ObjectId) : List (PropertyKey × Value) → Program σ Unit
  | [] => pure ()
  | (k, v) :: rest => do
    createDataPropertyOrThrow o k v
    createAll o rest

end Program

namespace Machine

variable {σ : Type} (E : Embedder σ) {m : Machine σ} {o : ObjectId} {s : Object}

/-! ## Requests -/

/-- A value that an object has itself is read without asking another one. -/
theorem execute_get_own (ho : m.heap.objects[o.index]? = some (.object s)) (fuel : Nat)
    {k : PropertyKey} {p : Property} (hp : s.own? k = some p) {v : Value}
    (hv : p.value? = some v) : execute E (fuel + 2) (Program.get o k) m = (.value v, m) := by
  rw [Program.get, (get_own E ho fuel k hp _).1]
  obtain ⟨⟨u, w⟩ | ⟨get, set⟩, e, c⟩ := p
  · obtain rfl : u = v := Option.some.inj hv
    rfl
  · cases hv

section

variable (ho : m.heap.objects[o.index]? = some (.object s)) (hs : s.kind ≠ .array) (fuel : Nat)
include ho hs

theorem execute_createDataPropertyOrThrow (k : PropertyKey) (v : Value) :
    execute E (fuel + 1) (Program.createDataPropertyOrThrow o k v) m =
      if s.accepts k then (.value (), m.setObject o (s.put k (.data v true true true)))
      else (.raise (.cannotRedefine k.toText), m) := by
  have hdefine := execute_define E ho fuel hs k (.data v true true true)
  rw [Object.define_data] at hdefine
  split
  · next haccepts =>
    rw [if_pos haccepts] at hdefine
    exact execute_bind hdefine _
  · next hrefused =>
    rw [if_neg hrefused, setObject_self ho] at hdefine
    exact execute_bind hdefine _

/-- Properties that are accepted are created, and the loop goes on from there. -/
theorem execute_createAll_append {before : List (PropertyKey × Value)}
    (hbefore : ∀ e ∈ before, s.accepts e.1 = true) (rest : List (PropertyKey × Value)) :
    execute E (fuel + 1) (Program.createAll o (before ++ rest)) m =
      execute E (fuel + 1) (Program.createAll o rest) (m.setObject o (s.created before)) := by
  induction before generalizing m s with
  | nil => rw [Object.created, setObject_self ho, List.nil_append]
  | cons e before ih =>
    obtain ⟨k, v⟩ := e
    have hcreate := execute_createDataPropertyOrThrow E ho hs fuel k v
    rw [if_pos (hbefore _ List.mem_cons_self)] at hcreate
    have hrest := ih (getElem?_setObject ho (s.put k (.data v true true true))) hs
      fun e he => by rw [Object.accepts_put, hbefore e (List.mem_cons_of_mem _ he), Bool.or_true]
    rw [setObject_setObject] at hrest
    exact (execute_bind hcreate _).trans hrest

theorem execute_createAll {entries : List (PropertyKey × Value)}
    (hentries : ∀ e ∈ entries, s.accepts e.1 = true) :
    execute E (fuel + 1) (Program.createAll o entries) m =
      (.value (), m.setObject o (s.created entries)) := by
  have hrun := execute_createAll_append E ho hs fuel hentries []
  rw [List.append_nil] at hrun
  exact hrun

/-- The first property that is refused ends the loop. -/
theorem execute_createAll_refused {before after : List (PropertyKey × Value)}
    (hbefore : ∀ e ∈ before, s.accepts e.1 = true) {k : PropertyKey}
    (hk : k ∉ before.map Prod.fst) (hrefused : s.accepts k = false) (v : Value) :
    execute E (fuel + 1) (Program.createAll o (before ++ (k, v) :: after)) m =
      (.raise (.cannotRedefine k.toText), m.setObject o (s.created before)) := by
  rw [execute_createAll_append E ho hs fuel hbefore]
  obtain ⟨hkind, -, hext⟩ := s.created_fixed before
  have hcreate := execute_createDataPropertyOrThrow E
    (getElem?_setObject ho (s.created before)) (hkind ▸ hs) fuel k v
  have haccepts : (s.created before).accepts k = false := by
    rw [Object.accepts, Object.own?_created_of_not_mem hk, hext]
    exact hrefused
  rw [haccepts, if_neg Bool.false_ne_true] at hcreate
  exact execute_bind_raise hcreate _

end

end Machine

end Ecma
