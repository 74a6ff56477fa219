import Ecma.Scope.Binding

/-!
# The life of a binding

A table of bindings is used by calls that create, initialize, assign, read and delete. A
call that fails, or that is a fault, leaves the table as it was. What a run of calls can do
to the binding of one name is said once, by `BindingStep`: it is created, given a value,
deleted, or left alone. **Every call takes such a step** (`BindingCall.step`), so what a
step keeps, a run keeps.

The value that a binding shows is told from the calls alone: `lastGiven` is the value of
the last call that gave it one. A binding shows it since it was created, and nothing else.
-/

namespace Ecma

/-- A call on a table of bindings. -/
inductive BindingCall where
  | createMutable (name : String) (deletable : Bool)
  | createImmutable (name : String) (strict : Bool)
  | createImport (name : String) (module : ModuleId) (target : String)
  | init (name : String) (v : Value)
  | assign (name : String) (v : Value) (strict : Bool)
  | read (name : String)
  | delete (name : String)

namespace BindingCall

/-- Carry out a call on a table. -/
def apply (t : Bindings) : BindingCall → Outcome Bindings
  | createMutable name deletable => t.create name (.newMutable deletable)
  | createImmutable name strict => t.create name (.newImmutable strict)
  | createImport name module target => t.create name (.newImport module target)
  | init name v => t.init name v
  | assign name v strict => t.assign name v strict
  | read name => do
    let _ ← t.read name
    return t
  | delete name => .value (t.delete name).2

/-- The table after a call; one that ends without a value leaves it as it was. -/
def next (t : Bindings) (c : BindingCall) : Bindings :=
  match c.apply t with
  | .value t' => t'
  | .failure _ => t
  | .stopped _ => t

/-- The binding that a call creates under a name that has none. Sloppy code creates one by
assigning it. -/
def created (name : String) : BindingCall → Option Binding
  | createMutable n deletable => if n = name then some (.newMutable deletable) else none
  | createImmutable n strict => if n = name then some (.newImmutable strict) else none
  | createImport n module target => if n = name then some (.newImport module target) else none
  | assign n _ _ => if n = name then some (.newMutable true) else none
  | _ => none

/-- The value that a call gives the binding of a name. An initialization that succeeds
gives one, and so does an assignment, unless the binding is there and immutable. -/
def given (name : String) (t : Bindings) (c : BindingCall) : Option Value :=
  match c.apply t with
  | .failure _ => none
  | .stopped _ => none
  | .value _ =>
    match c with
    | init n v => if n = name then some v else none
    | assign n v _ => if n = name ∧ (t.get? name).all (·.isMutable) then some v else none
    | _ => none

end BindingCall

namespace Bindings

/-- The table after a run of calls. -/
def after (t : Bindings) (calls : List BindingCall) : Bindings := calls.foldl BindingCall.next t

/-- The value that a run gives the binding of a name last. -/
def lastGiven (name : String) : Bindings → List BindingCall → Option Value
  | _, [] => none
  | t, c :: calls => (lastGiven name (c.next t) calls).or (c.given name t)

/-- What reading a name gives whose binding was given this value, or none. -/
def shown (name : String) : Option Value → Outcome Value
  | some v => .value v
  | none => .raise (.uninitialized name)

/-- The name has a binding all through a run. -/
def Lasts (name : String) : Bindings → List BindingCall → Prop
  | t, [] => (t.get? name).isSome
  | t, c :: calls => (t.get? name).isSome ∧ Lasts name (c.next t) calls

@[simp] theorem after_cons (t : Bindings) (c : BindingCall) (calls : List BindingCall) :
    t.after (c :: calls) = (c.next t).after calls := rfl

theorem after_append (t : Bindings) (first second : List BindingCall) :
    t.after (first ++ second) = (t.after first).after second :=
  List.foldl_append

/-! ## When an operation succeeds -/

theorem create_eq_value {t t' : Bindings} {n : String} {b : Binding}
    (h : t.create n b = .value t') : t.get? n = none ∧ t' = t.insert n b := by
  rw [create] at h
  split at h
  · cases h
  · next hnone =>
    exact ⟨by simpa [Dictionary.contains] using hnone, (Outcome.value.inj h).symm⟩

theorem init_eq_value {t t' : Bindings} {n : String} {v : Value} (h : t.init n v = .value t') :
    ∃ b, t.get? n = some b ∧ b.isInitialized = false ∧
      t' = t.insert n { b with slot := .value v } := by
  rw [init] at h
  split at h
  · cases h
  · next b hb =>
    split at h
    · cases h
    · next hinit => exact ⟨b, hb, by simpa using hinit, (Outcome.value.inj h).symm⟩

theorem assign_eq_value {t t' : Bindings} {n : String} {v : Value} {strict : Bool}
    (h : t.assign n v strict = .value t') :
    (t.get? n = none ∧ t' = t.insert n { Binding.newMutable true with slot := .value v }) ∨
      ∃ b, t.get? n = some b ∧ b.isInitialized = true ∧
        (b.isMutable = true ∧ t' = t.insert n { b with slot := .value v } ∨
          b.isMutable = false ∧ t' = t) := by
  rw [assign] at h
  split at h
  · next hnone =>
    split at h
    · cases h
    · exact .inl ⟨hnone, (Outcome.value.inj h).symm⟩
  · next b hb =>
    split at h
    · cases h
    next hinit =>
    refine .inr ⟨b, hb, by simpa using hinit, ?_⟩
    split at h
    · next hm => exact .inl ⟨hm, (Outcome.value.inj h).symm⟩
    next hm =>
    split at h
    · cases h
    · exact .inr ⟨by simpa using hm, (Outcome.value.inj h).symm⟩

end Bindings

/-! ## What a call can do to one binding -/

/-- What a call can do to the binding of a name: the binding before, the value that it is
given, the binding after. `made` is what the call would create. -/
inductive BindingStep (made : Option Binding) :
    Option Binding → Option Value → Option Binding → Prop
  | keep (b : Option Binding) : BindingStep made b none b
  | create {b : Binding} (hb : made = some b) : BindingStep made none none (some b)
  | createWith {b : Binding} (hb : made = some b) (hm : b.isMutable = true) (v : Value) :
      BindingStep made none (some v) (some { b with slot := .value v })
  | give {b : Binding} (hb : b.isInitialized = true → b.isMutable = true) (v : Value) :
      BindingStep made (some b) (some v) (some { b with slot := .value v })
  | delete {b : Binding} (hb : b.isDeletable = true) : BindingStep made (some b) none none

namespace BindingCall

/-- Creating a binding concerns its name alone. -/
theorem step_create {t t' : Bindings} {n : String} {b : Binding} (h : t.create n b = .value t')
    (name : String) :
    BindingStep (if n = name then some b else none) (t.get? name) none (t'.get? name) := by
  obtain ⟨hnone, rfl⟩ := Bindings.create_eq_value h
  rw [Dictionary.get?_insert]
  by_cases heq : n = name
  · subst heq
    rw [if_pos rfl, if_pos rfl, hnone]
    exact .create rfl
  · rw [if_neg fun h' : name = n => heq h'.symm]
    exact .keep _

/-- Assigning a binding concerns its name alone. -/
theorem step_assign {t t' : Bindings} {n : String} {v : Value} {strict : Bool}
    (h : t.assign n v strict = .value t') (name : String) :
    BindingStep (if n = name then some (.newMutable true) else none) (t.get? name)
      (if n = name ∧ (t.get? name).all (·.isMutable) then some v else none) (t'.get? name) := by
  by_cases heq : n = name
  · subst heq
    simp only [true_and, if_true]
    rcases Bindings.assign_eq_value h with ⟨hnone, rfl⟩ | ⟨b, hb, -, ⟨hm, rfl⟩ | ⟨hm, rfl⟩⟩
    · rw [if_pos (by simp [hnone]), hnone, Dictionary.get?_insert, if_pos rfl]
      exact .createWith rfl rfl v
    · rw [if_pos (by simp [hb, hm]), hb, Dictionary.get?_insert, if_pos rfl]
      exact .give (fun _ => hm) v
    · -- an immutable binding ignores the assignment
      rw [if_neg (by simp [hb, hm])]
      exact .keep _
  · simp only [heq, false_and, if_false]
    have hsame : t'.get? name = t.get? name := by
      have hne : ¬ name = n := fun h' => heq h'.symm
      rcases Bindings.assign_eq_value h with ⟨-, rfl⟩ | ⟨b, -, -, ⟨-, rfl⟩ | ⟨-, rfl⟩⟩
      · rw [Dictionary.get?_insert, if_neg hne]
      · rw [Dictionary.get?_insert, if_neg hne]
      · rfl
    rw [hsame]
    exact .keep _

/-- A call that succeeds does to the binding of a name what is listed. -/
theorem step_of_value {t t' : Bindings} {c : BindingCall} (h : c.apply t = .value t')
    (name : String) :
    BindingStep (c.created name) (t.get? name) (c.given name t) (t'.get? name) := by
  simp only [given, h]
  cases c with
  | createMutable n deletable => exact step_create h name
  | createImmutable n strict => exact step_create h name
  | createImport n module target => exact step_create h name
  | init n v =>
    obtain ⟨b, hb, hinit, rfl⟩ := Bindings.init_eq_value h
    rw [Dictionary.get?_insert]
    by_cases heq : n = name
    · subst heq
      rw [if_pos rfl, hb]
      simp only [if_true]
      exact .give (fun hyes => absurd (hinit.symm.trans hyes) (by decide)) v
    · rw [if_neg fun h' : name = n => heq h'.symm]
      simp only [if_neg heq]
      exact .keep _
  | assign n v strict => exact step_assign h name
  | read n =>
    obtain ⟨v, -, hv⟩ := Outcome.bind_eq_value h
    obtain rfl := Outcome.value.inj hv
    exact .keep _
  | delete n =>
    obtain rfl := Outcome.value.inj h
    simp only [Bindings.delete]
    rcases hold : t.get? n with _ | b
    · exact .keep _
    · dsimp only
      split
      · next hdeletable =>
        rw [Dictionary.get?_erase]
        split
        · next heq =>
          rw [heq, hold]
          exact .delete hdeletable
        · exact .keep _
      · exact .keep _

/-- **Steps.** A call does to the binding of a name what is listed, and no more. -/
theorem step (t : Bindings) (c : BindingCall) (name : String) :
    BindingStep (c.created name) (t.get? name) (c.given name t) ((c.next t).get? name) := by
  rcases h : c.apply t with t' | f | s
  · simpa only [next, h] using step_of_value h name
  all_goals
    have hgiven : c.given name t = none := by cases c <;> simp only [given, h]
    simpa only [next, h, hgiven] using BindingStep.keep _

end BindingCall

/-! ## What a binding keeps -/

/-- What a binding keeps while it exists: its marks, that it is initialized, and, unless it
is mutable, what it was initialized with. -/
structure Binding.Matures (b b' : Binding) : Prop where
  isMutable : b'.isMutable = b.isMutable
  isDeletable : b'.isDeletable = b.isDeletable
  isStrict : b'.isStrict = b.isStrict
  isInitialized : b.isInitialized = true → b'.isInitialized = true
  slot : b.isInitialized = true → b.isMutable = false → b'.slot = b.slot

/-- A binding can be told from its marks: one that may be deleted may be assigned, and one
that is imported may not. -/
structure Binding.Proper (b : Binding) : Prop where
  isMutable_of_isDeletable : b.isDeletable = true → b.isMutable = true
  immutable_of_imported : ∀ m target, b.slot = .imported m target → b.isMutable = false

namespace Binding

theorem Matures.refl (b : Binding) : b.Matures b := ⟨rfl, rfl, rfl, id, fun _ _ => rfl⟩

theorem Matures.trans {b₁ b₂ b₃ : Binding} (h : b₁.Matures b₂) (h' : b₂.Matures b₃) :
    b₁.Matures b₃ where
  isMutable := h'.isMutable.trans h.isMutable
  isDeletable := h'.isDeletable.trans h.isDeletable
  isStrict := h'.isStrict.trans h.isStrict
  isInitialized hb := h'.isInitialized (h.isInitialized hb)
  slot hb hm := (h'.slot (h.isInitialized hb) (h.isMutable.trans hm)).trans (h.slot hb hm)

/-- A binding that keeps its marks and its slot is the same. -/
theorem Matures.eq {b b' : Binding} (h : b.Matures b') (hb : b.isInitialized = true)
    (hm : b.isMutable = false) : b' = b := by
  obtain ⟨m, d, s, slot⟩ := b'
  obtain rfl : m = b.isMutable := h.isMutable
  obtain rfl : d = b.isDeletable := h.isDeletable
  obtain rfl : s = b.isStrict := h.isStrict
  obtain rfl : slot = b.slot := h.slot hb hm
  rfl

/-- Values may be given to what is uninitialized or mutable. -/
theorem Matures.give {b : Binding} (hb : b.isInitialized = true → b.isMutable = true) (v : Value) :
    b.Matures { b with slot := .value v } where
  isMutable := rfl
  isDeletable := rfl
  isStrict := rfl
  isInitialized _ := rfl
  slot hinit hm := absurd (hm.symm.trans (hb hinit)) (by decide)

theorem proper_created {name : String} {c : BindingCall} {b : Binding}
    (h : c.created name = some b) : b.Proper := by
  cases c <;> simp only [BindingCall.created, Option.ite_none_right_eq_some, reduceCtorEq] at h
  all_goals
    obtain ⟨-, h⟩ := h
    obtain rfl := Option.some.inj h
    constructor <;> simp [newMutable, newImmutable, newImport]

theorem Proper.give {b : Binding} (hb : b.Proper) (v : Value) :
    Proper { b with slot := .value v } where
  isMutable_of_isDeletable := hb.isMutable_of_isDeletable
  immutable_of_imported := nofun

end Binding

namespace BindingStep

variable {made : Option Binding} {b b' : Binding} {v : Option Value}

theorem matures (h : BindingStep made (some b) v (some b')) : b.Matures b' := by
  cases h with
  | keep => exact .refl b
  | give hb v => exact .give hb v

theorem slot (h : BindingStep made (some b) v (some b')) :
    b'.slot = (v.map .value).getD b.slot := by
  cases h with
  | keep => rfl
  | give hb v => rfl

theorem proper {old : Option Binding} (hmade : ∀ b ∈ made, b.Proper)
    (h : BindingStep made old v (some b')) (hold : ∀ b ∈ old, b.Proper) : b'.Proper := by
  cases h with
  | keep => exact hold b' rfl
  | create hb => exact hmade _ hb
  | createWith hb _ v => exact (hmade _ hb).give v
  | give _ v => exact (hold _ rfl).give v

/-- Only what may be deleted goes away. -/
theorem isSome {new : Option Binding} (h : BindingStep made (some b) v new)
    (hb : b.isDeletable = false) : new.isSome := by
  cases h with
  | keep => rfl
  | give _ v => rfl
  | delete hd => exact absurd (hb.symm.trans hd) (by decide)

/-- What appears was created by the call, which may have given it a value at once. -/
theorem appears (h : BindingStep made none v (some b')) :
    ∃ b, made = some b ∧ b.Matures b' ∧ b'.slot = (v.map .value).getD b.slot := by
  cases h with
  | create hb => exact ⟨_, hb, .refl _, rfl⟩
  | createWith hb hm v => exact ⟨_, hb, .give (fun _ => hm) v, rfl⟩

end BindingStep

/-! ## Runs -/

namespace Bindings

variable {name : String}

theorem Lasts.isSome {t : Bindings} {calls : List BindingCall} (h : Lasts name t calls) :
    (t.get? name).isSome := by
  cases calls with
  | nil => exact h
  | cons c calls => exact h.1

/-- Every table that calls lead to has proper bindings. -/
theorem proper_after (calls : List BindingCall) :
    ∀ {t : Bindings}, (∀ b ∈ t.get? name, b.Proper) →
      ∀ b ∈ (t.after calls).get? name, b.Proper := by
  induction calls with
  | nil => exact id
  | cons c calls ih =>
    intro t ht
    refine ih fun b hb => ?_
    have hstep := c.step t name
    rw [Option.mem_def.mp hb] at hstep
    exact hstep.proper (fun b hb => Binding.proper_created hb) ht

/-- A binding that may not be deleted lasts. -/
theorem lasts_of_not_deletable (calls : List BindingCall) :
    ∀ {t : Bindings} {b : Binding}, t.get? name = some b → b.isDeletable = false →
      Lasts name t calls := by
  induction calls with
  | nil => exact fun hb _ => Option.isSome_of_eq_some hb
  | cons c calls ih =>
    intro t b hb hd
    have hstep := c.step t name
    rw [hb] at hstep
    obtain ⟨b', hb'⟩ := Option.isSome_iff_exists.mp (hstep.isSome hd)
    rw [hb'] at hstep
    exact ⟨Option.isSome_of_eq_some hb, ih hb' (hstep.matures.isDeletable.trans hd)⟩

/-- While a binding lasts it keeps what it promised, and shows what it was given last. -/
theorem Lasts.matures (calls : List BindingCall) :
    ∀ {t : Bindings} {b : Binding}, t.get? name = some b → Lasts name t calls →
      ∃ b', (t.after calls).get? name = some b' ∧ b.Matures b' ∧
        b'.slot = ((lastGiven name t calls).map .value).getD b.slot := by
  induction calls with
  | nil => exact fun hb _ => ⟨_, hb, .refl _, rfl⟩
  | cons c calls ih =>
    intro t b hb hlasts
    obtain ⟨b₁, hb₁⟩ := Option.isSome_iff_exists.mp hlasts.2.isSome
    have hstep := c.step t name
    rw [hb, hb₁] at hstep
    obtain ⟨b', hb', hmatures, hslot⟩ := ih hb₁ hlasts.2
    refine ⟨b', hb', hstep.matures.trans hmatures, ?_⟩
    rw [hslot, hstep.slot, lastGiven]
    cases lastGiven name (c.next t) calls <;> rfl

/-- A binding that is there at the end was there all along, or since a call that created
it. -/
theorem lasts_or_created (calls : List BindingCall) :
    ∀ {t : Bindings}, ((t.after calls).get? name).isSome →
      Lasts name t calls ∨ ∃ before c since, calls = before ++ c :: since ∧
        (t.after before).get? name = none ∧ Lasts name (c.next (t.after before)) since := by
  induction calls with
  | nil => exact fun h => .inl h
  | cons c calls ih =>
    intro t h
    rcases ih h with hlasts | ⟨before, c', since, rfl, hnone, hlasts⟩
    · rcases hold : t.get? name with _ | b
      · exact .inr ⟨[], c, calls, rfl, hold, hlasts⟩
      · exact .inl ⟨Option.isSome_of_eq_some hold, hlasts⟩
    · exact .inr ⟨c :: before, c', since, rfl, hnone, hlasts⟩

/-- **Birth.** A binding was created by one of the calls, has lasted since then, keeps what
it was created with, and shows what it was given last. -/
theorem exists_created {calls : List BindingCall} {b : Binding}
    (hb : ((∅ : Bindings).after calls).get? name = some b) :
    ∃ before c since b₀, calls = before ++ c :: since ∧
      ((∅ : Bindings).after before).get? name = none ∧ c.created name = some b₀ ∧
      Lasts name (c.next ((∅ : Bindings).after before)) since ∧ b₀.Matures b ∧
      b.slot = ((lastGiven name ((∅ : Bindings).after before) (c :: since)).map .value).getD
        b₀.slot := by
  rcases lasts_or_created calls (Option.isSome_of_eq_some hb) with
    hlasts | ⟨before, c, since, rfl, hnone, hlasts⟩
  · exact absurd hlasts.isSome (by simp)
  obtain ⟨b₁, hb₁⟩ := Option.isSome_iff_exists.mp hlasts.isSome
  have hstep := c.step ((∅ : Bindings).after before) name
  rw [hnone, hb₁] at hstep
  obtain ⟨b₀, hcreated, hborn, hslot₁⟩ := hstep.appears
  obtain ⟨b', hb', hmatures, hslot⟩ := hlasts.matures since hb₁
  rw [after_append, after_cons, hb'] at hb
  obtain rfl := Option.some.inj hb
  refine ⟨before, c, since, b₀, rfl, hnone, hcreated, hlasts, hborn.trans hmatures, ?_⟩
  rw [hslot, hslot₁, lastGiven]
  cases lastGiven name (c.next ((∅ : Bindings).after before)) since <;> rfl

/-- A binding that is no import is created uninitialized. -/
theorem slot_created {c : BindingCall} {b₀ b : Binding} (h : c.created name = some b₀)
    (hb : b₀.Matures b) (hlocal : ∀ m target, b.slot ≠ .imported m target) :
    b₀.slot = .uninitialized := by
  cases c <;> simp only [BindingCall.created, Option.ite_none_right_eq_some, reduceCtorEq] at h
  case createImport n module target =>
    obtain rfl := Option.some.inj h.2
    exact absurd (hb.slot rfl rfl) (hlocal module target)
  all_goals
    obtain rfl := Option.some.inj h.2
    rfl

/-- What is read is what the slot holds. -/
theorem read_of_slot {t : Bindings} {b : Binding} (hb : t.get? name = some b) {v : Option Value}
    (hslot : b.slot = (v.map .value).getD .uninitialized) :
    t.read name = shown name v := by
  rw [read, hb]
  cases v <;>
    simp only [hslot, shown, Option.map_none, Option.map_some, Option.getD_none, Option.getD_some]

/-- Reading what is no import fails while it is uninitialized, and only then. -/
theorem read_eq_raise_iff {t : Bindings} {b : Binding} (hb : t.get? name = some b)
    (hlocal : ∀ m target, b.slot ≠ .imported m target) :
    (∃ c : Cause, c.kind = .reference ∧ t.read name = .raise c) ↔ b.isInitialized = false := by
  rw [read, hb]
  rcases hslot : b.slot with _ | v | ⟨m, target⟩
  · simpa [Binding.isInitialized, hslot] using ⟨Cause.uninitialized name, rfl, rfl⟩
  · simp [Binding.isInitialized, hslot, Outcome.raise]
  · exact absurd hslot (hlocal m target)

theorem assign_immutable {t : Bindings} {b : Binding} (hb : t.get? name = some b)
    (hm : b.isMutable = false) (hinit : b.isInitialized = true) (v : Value) (strict : Bool) :
    t.assign name v strict =
      if strict || b.isStrict then .raise .constantAssignment else .value t := by
  rw [assign, hb]
  simp only [hinit, hm, Bool.not_true, Bool.false_eq_true, if_false]

/-- Every run keeps a binding that is immutable and initialized as it is: it may not be
deleted. -/
theorem get?_after_of_immutable {t : Bindings} {b : Binding} (hb : t.get? name = some b)
    (hproper : b.Proper) (hm : b.isMutable = false) (hinit : b.isInitialized = true)
    (calls : List BindingCall) : (t.after calls).get? name = some b := by
  have hdeletable : b.isDeletable = false := by
    refine Bool.eq_false_iff.mpr fun hd => ?_
    exact absurd (hm.symm.trans (hproper.isMutable_of_isDeletable hd)) (by decide)
  obtain ⟨b', hb', hmatures, -⟩ := (lasts_of_not_deletable calls hb hdeletable).matures calls hb
  rw [hb', hmatures.eq hinit hm]

/-- Every run keeps an import as it is. -/
theorem get?_after_of_imported {t : Bindings} {b : Binding} (hb : t.get? name = some b)
    (hproper : b.Proper) (himported : ¬ ∀ m target, b.slot ≠ .imported m target)
    (calls : List BindingCall) : (t.after calls).get? name = some b := by
  rcases hslot : b.slot with _ | v | ⟨m, target⟩
  · exact absurd (fun m target h => by cases hslot.symm.trans h) himported
  · exact absurd (fun m target h => by cases hslot.symm.trans h) himported
  · have hinit : b.isInitialized = true := by simp [Binding.isInitialized, hslot]
    have hm : b.isMutable = false := hproper.immutable_of_imported m target hslot
    exact get?_after_of_immutable hb hproper hm hinit calls

/-- **The life of a binding.** Take a binding of a table that calls lead to.

* One of the calls created it when its name was free; it has lasted since, with the marks
  that it was created with. If it is no import, reading it gives the value that it was given
  last, and fails with a `ReferenceError` while it was given none.
* Whatever calls follow: it lasts unless it was created deletable. While it lasts, its marks
  stay, it never becomes uninitialized again, and if it is immutable and initialized, or
  imported, it stays as it is.
* Assigning it when it is immutable fails in strict code and for a strict binding, and does
  nothing otherwise. Creating it again is a fault. -/
theorem binding_life_cycle {calls : List BindingCall} {b : Binding}
    (hb : ((∅ : Bindings).after calls).get? name = some b) :
    let t := (∅ : Bindings).after calls
    let Local := ∀ m target, b.slot ≠ .imported m target
    (∃ before c since b₀, calls = before ++ c :: since ∧
      ((∅ : Bindings).after before).get? name = none ∧ c.created name = some b₀ ∧
      Lasts name (c.next ((∅ : Bindings).after before)) since ∧ b₀.Matures b ∧
      (Local → t.read name =
        shown name (lastGiven name ((∅ : Bindings).after before) (c :: since)))) ∧
    (Local → ((∃ c : Cause, c.kind = .reference ∧ t.read name = .raise c) ↔
      b.isInitialized = false)) ∧
    (∀ later, (b.isDeletable = false → Lasts name t later) ∧
      (Lasts name t later → ∃ b', (t.after later).get? name = some b' ∧ b.Matures b') ∧
      (b.isMutable = false → b.isInitialized = true → (t.after later).get? name = some b) ∧
      (¬ Local → (t.after later).get? name = some b)) ∧
    (b.isMutable = false → b.isInitialized = true → ∀ v strict, t.assign name v strict =
      if strict || b.isStrict then .raise .constantAssignment else .value t) ∧
    ∀ b', t.create name b' = .fault (.bindingExists name) := by
  intro t Local
  have hproper : b.Proper := proper_after calls (by simp) b hb
  refine ⟨?_, fun hlocal => read_eq_raise_iff hb hlocal, fun later => ⟨?_, ?_, ?_, ?_⟩, ?_, ?_⟩
  · obtain ⟨before, c, since, b₀, rfl, hnone, hcreated, hlasts, hmatures, hslot⟩ :=
      exists_created hb
    refine ⟨before, c, since, b₀, rfl, hnone, hcreated, hlasts, hmatures, fun hlocal => ?_⟩
    rw [slot_created hcreated hmatures hlocal] at hslot
    exact read_of_slot hb hslot
  · exact lasts_of_not_deletable later hb
  · intro hlasts
    obtain ⟨b', hb', hmatures, -⟩ := hlasts.matures later hb
    exact ⟨b', hb', hmatures⟩
  · exact fun hm hinit => get?_after_of_immutable hb hproper hm hinit later
  · exact fun himported => get?_after_of_imported hb hproper himported later
  · exact fun hm hinit => assign_immutable hb hm hinit
  · intro b'
    rw [create, if_pos (by simp [Dictionary.contains, t, hb])]

/-- A constant that is assigned before it is there, too early, and in vain keeps the value
that it was initialized with. -/
theorem binding_life_cycle_constant :
    let calls : List BindingCall :=
      [.assign "c" .undefined true, .createImmutable "c" false, .assign "c" .undefined false,
        .init "c" .null, .assign "c" .undefined false]
    let t := (∅ : Bindings).after calls
    t.read "c" = .value .null ∧ t.assign "c" .undefined false = .value t ∧
      ∀ later, (t.after later).read "c" = .value .null := by
  intro calls t
  have hb : t.get? "c" = some ⟨false, false, false, .value .null⟩ := by decide
  obtain ⟨-, -, hlater, hassign, -⟩ := binding_life_cycle hb
  refine ⟨?_, hassign rfl rfl .undefined false, fun later => ?_⟩
  · rw [read, hb]
  · rw [read, (hlater later).2.2.1 rfl rfl]

end Bindings

end Ecma
