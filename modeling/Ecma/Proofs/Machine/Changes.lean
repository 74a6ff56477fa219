import Ecma.Machine
import Ecma.Proofs.Machine.Chain
import Ecma.Proofs.Object.ArrayLength
import Ecma.Proofs.Scope.Steps

/-!
# What a run can do to the heap

A program, user code and the code of exotic objects change objects only by asking
them. `Heap.Changes` lists what that can come to: new objects are built from
blueprints, an object takes a step by one of its methods (`Object.Step`), and it may
get another prototype if it was extensible when it was asked to. Beside objects there
are environments and module graphs (`Heap.ScopeStep`). **Every run is made of such
changes** (`changes_execute`), however deep user code calls back into the objects. What
the list keeps, every run keeps.

An object gets another prototype after the chain of the new one was walked and it was
not on it. If there are exotic objects on the chain this says little, for they answer
what they like. In a heap without exotic objects the walk changes nothing and tells the
truth (`Lawful.walk`).

Two methods take more than a step, because other code may run in between. An object
that is asked for another prototype walks the chain first, and exotic objects on it
run code of their own; `whole` is about this. An array that is asked for a length
converts it to a number first, and user code may change the array meanwhile: what is
known afterwards is only that it is still an array, and that the number is one that a
length can be.
-/

namespace Ecma

/-! ## Steps of an object -/

/-- A change of an object by one of its methods. -/
inductive Object.Step : Object → Object → Prop
  | define {s : Object} (h : s.kind ≠ .array) (k : PropertyKey) (d : Descriptor) :
      Step s (s.define k d).2
  | defineInArray {s : Object} (h : s.kind = .array) {k : PropertyKey}
      (hk : k ≠ Object.lengthKey) (d : Descriptor) : Step s (s.defineInArray k d).2
  | defineLength {s : Object} (h : s.kind = .array) {d : Descriptor} (hd : d.value = none) :
      Step s (s.define Object.lengthKey d).2
  | setLength {s : Object} (h : s.kind = .array) {n : Nat}
      (hn : n ≤ PropertyKey.maxArrayLength) (d : Descriptor) : Step s (s.setLength n d).2
  | delete (s : Object) (k : PropertyKey) : Step s (s.delete k).2
  | preventExtensions (s : Object) : Step s s.preventExtensions

namespace Object

/-- Objects of one kind that inherit from the same object. -/
structure Alike (s s' : Object) : Prop where
  kind : s'.kind = s.kind
  prototype : s'.prototype = s.prototype

theorem Alike.refl (s : Object) : s.Alike s := ⟨rfl, rfl⟩

theorem Alike.trans {a b c : Object} (hab : a.Alike b) (hbc : b.Alike c) : a.Alike c :=
  ⟨hbc.kind.trans hab.kind, hbc.prototype.trans hab.prototype⟩

theorem alike_define (s : Object) (k : PropertyKey) (d : Descriptor) :
    s.Alike (s.define k d).2 := by
  rw [define]
  cases d.validate s.extensible (s.own? k) <;> exact ⟨rfl, rfl⟩

theorem Alike.of_define {s s' : Object} {k : PropertyKey} {d : Descriptor} {granted : Bool}
    (h : s.define k d = (granted, s')) : s.Alike s' := by
  have hdefine := s.alike_define k d
  rwa [h] at hdefine

theorem alike_delete (s : Object) (k : PropertyKey) : s.Alike (s.delete k).2 := by
  rw [delete]
  split
  · exact .refl s
  · split <;> exact ⟨rfl, rfl⟩

theorem Alike.of_deleteElements {s s' : Object} {l : List Nat} {stop : Option Nat}
    (h : s.deleteElements l = (stop, s')) : s.Alike s' := by
  induction l generalizing s with
  | nil =>
    obtain ⟨-, rfl⟩ := Prod.mk.inj h
    exact .refl s
  | cons i l ih =>
    have hdelete := s.alike_delete (.index i)
    rw [deleteElements] at h
    rcases hnext : s.delete (.index i) with ⟨_ | _, next⟩ <;> rw [hnext] at h hdelete
    · obtain ⟨-, rfl⟩ := Prod.mk.inj h
      exact hdelete
    · exact hdelete.trans (ih h)

theorem alike_shrink (s : Object) (n : Nat) (d : Descriptor) : s.Alike (s.shrink n d).2 := by
  simp only [shrink]
  split
  · next hdefine => exact .of_define hdefine
  · next hdefine =>
    split
    · next hdelete =>
      have hleft := (Alike.of_define hdefine).trans (.of_deleteElements hdelete)
      exact hleft.trans (alike_define _ _ _)
    · next hdelete =>
      have hleft := (Alike.of_define hdefine).trans (.of_deleteElements hdelete)
      dsimp only
      split
      · exact hleft.trans (alike_define _ _ _)
      · exact hleft

theorem alike_setLength (s : Object) (n : Nat) (d : Descriptor) :
    s.Alike (s.setLength n d).2 := by
  simp only [setLength]
  split
  · exact s.alike_define _ _
  · split
    · exact s.alike_shrink n d
    · exact .refl s

theorem alike_defineInArray (s : Object) (k : PropertyKey) (d : Descriptor) :
    s.Alike (s.defineInArray k d).2 := by
  simp only [defineInArray]
  split
  · next i _ =>
    simp only [defineElement]
    split
    · exact .refl s
    · split
      · next hdefine => exact .of_define hdefine
      · next next hdefine =>
        have hnext : s.Alike next := .of_define hdefine
        split
        · exact ⟨hnext.kind, hnext.prototype⟩
        · exact hnext
  · exact s.alike_define k d

/-- A step changes neither what an object is nor what it inherits from. -/
theorem Step.alike {s s' : Object} (h : s.Step s') : s.Alike s' := by
  cases h with
  | define _ k d => exact s.alike_define k d
  | defineInArray _ _ d => exact s.alike_defineInArray _ d
  | defineLength _ _ => exact s.alike_define _ _
  | setLength _ _ d => exact s.alike_setLength _ d
  | delete k => exact s.alike_delete k
  | preventExtensions => exact ⟨rfl, rfl⟩

/-- A step keeps the length of an array above its indices. -/
theorem Step.sound {s s' : Object} (h : s.Step s') (hs : s.Sound) : s'.Sound := by
  intro ha
  rw [h.alike.kind] at ha
  obtain ⟨n, w, hlen⟩ := hs ha
  cases h with
  | define hne k d => exact absurd ha hne
  | defineInArray _ hk d => exact hlen.defineInArray hk d
  | defineLength _ hd => exact hlen.define_length (by rw [hd]; rfl) (Nat.le_refl n) hlen.le
  | setLength _ hn d => exact hlen.setLength hn d
  | delete k => exact ⟨n, w, hlen.delete k⟩
  | preventExtensions => exact ⟨n, w, hlen.own?, hlen.le, hlen.lt⟩

/-- A step of an object keeps its promises, those of an array because it has a
length. -/
theorem Step.evolves {s s' : Object} (h : s.Step s') (hs : s.Sound) : s.Evolves s' := by
  cases h with
  | define _ k d => exact s.evolves_define k d
  | defineInArray ha _ d =>
    obtain ⟨n, w, hlen⟩ := hs ha
    exact evolves_defineInArray (by rw [hlen.own?]; rfl) _ d
  | defineLength _ _ => exact s.evolves_define _ _
  | setLength _ _ d => exact s.evolves_setLength _ d
  | delete k => exact s.evolves_delete k
  | preventExtensions => exact s.evolves_preventExtensions

end Object

/-! ## Changes of a heap -/

/-- What a run can do to a heap; `whole` if every request that took part was made, and not
only ended, among the changes. -/
inductive Heap.Changes (whole : Bool) : Heap → Heap → Prop
  | scopes {h h' : Heap} (hscopes : h.ScopesOnly h') : Changes whole h h'
  | trans {h₁ h₂ h₃ : Heap} (h₁₂ : Changes whole h₁ h₂) (h₂₃ : Changes whole h₂ h₃) :
      Changes whole h₁ h₃
  | allocate {h : Heap} {b : Blueprint} {c : Cell} (hb : b.build = .value c)
      (hp : ∀ p ∈ c.prototype?, p.index < h.objects.size) : Changes whole h (h.allocate c).2
  | step {h : Heap} {o : ObjectId} {s : Object} (ho : h.objects[o.index]? = some (.object s))
      {f : Object → Object} (hf : s.Step (f s)) : Changes whole h (h.modifyObject o f)
  /-- the object was extensible when it was asked, and other changes have been made since;
  it is not on the chain of its new prototype, unless exotic objects deny that it is -/
  | prototype {h h' : Heap} {o : ObjectId} {s : Object}
      (ho : h.objects[o.index]? = some (.object s)) (hext : whole = true → s.extensible = true)
      (hc : Changes whole h h') (p : Option ObjectId)
      (hp : h'.Plain → ∃ l, h'.Chain p l ∧ o ∉ l) :
      Changes whole h (h'.modifyObject o fun s => { s with prototype := p })

namespace Heap

theorem Changes.refl {whole : Bool} (h : Heap) : Changes whole h h := .scopes (.refl h)

/-- The changes of a whole run are changes. -/
theorem Changes.part {h h' : Heap} (hc : Changes true h h') : Changes false h h' := by
  induction hc with
  | scopes hscopes => exact .scopes hscopes
  | trans _ _ ih ih' => exact ih.trans ih'
  | allocate hb hp => exact .allocate hb hp
  | step ho hf => exact .step ho hf
  | prototype ho _ _ p hp ih =>
    refine .prototype ho ?_ ih p hp
    exact fun hw => absurd hw Bool.false_ne_true

/-- Objects stay, and stay of their kind. -/
theorem Changes.kind {whole : Bool} {h h' : Heap} (hc : Changes whole h h') {i : Nat} {s : Object}
    (hi : h.objects[i]? = some (.object s)) :
    ∃ s', h'.objects[i]? = some (.object s') ∧ s'.kind = s.kind := by
  induction hc generalizing s with
  | scopes hscopes => exact ⟨s, hscopes.objects ▸ hi, rfl⟩
  | trans _ _ ih ih' =>
    obtain ⟨s', hs', hkind⟩ := ih hi
    obtain ⟨s'', hs'', hkind'⟩ := ih' hs'
    exact ⟨s'', hs'', hkind'.trans hkind⟩
  | allocate hb hp => exact ⟨s, getElem?_allocate_of_some hi _, rfl⟩
  | step ho hf =>
    refine ⟨_, exists_modifyObject hi _ _, ?_⟩
    split
    · next heq =>
      obtain rfl := object_inj (heq ▸ hi) ho
      exact hf.alike.kind
    · rfl
  | prototype ho hext hc p hp ih =>
    obtain ⟨s', hs', hkind⟩ := ih hi
    refine ⟨_, exists_modifyObject hs' _ _, ?_⟩
    split <;> exact hkind

/-- Exotic objects stay. -/
theorem Changes.exotic {whole : Bool} {h h' : Heap} (hc : Changes whole h h') {i : Nat}
    {x : Exotic} (hi : h.objects[i]? = some (.exotic x)) :
    h'.objects[i]? = some (.exotic x) := by
  induction hc with
  | scopes hscopes => rwa [hscopes.objects]
  | trans _ _ ih ih' => exact ih' (ih hi)
  | allocate _ _ => exact getElem?_allocate_of_some hi _
  | step _ _ => exact exotic_modifyObject _ _ hi
  | prototype _ _ _ _ _ ih => exact exotic_modifyObject _ _ (ih hi)

/-- A heap without exotic objects never had any. -/
theorem Changes.plain {whole : Bool} {h h' : Heap} (hc : Changes whole h h') (hplain : h'.Plain) :
    h.Plain :=
  fun i x hi => hplain i x (hc.exotic hi)

/-- What steps of environments and graphs keep, a run keeps. -/
theorem Changes.scope_induction {whole : Bool} {h h' : Heap} (hc : Changes whole h h')
    {P : Heap → Prop} (hstep : ∀ {h h' : Heap}, P h → h.ScopeStep h' → P h') (hh : P h) :
    P h' := by
  induction hc with
  | scopes hscopes => exact hstep hh hscopes.step
  | trans _ _ ih ih' => exact ih' (ih hh)
  | allocate _ _ => exact hstep hh (.keep rfl rfl)
  | step _ _ => exact hstep hh (.keep rfl rfl)
  | prototype _ _ _ _ _ ih => exact hstep (ih hh) (.keep rfl rfl)

end Heap

/-! ## Values that programs end with -/

namespace Program

variable {σ α β : Type}

/-- Every value that the program can end with satisfies `P`. -/
def Returns (P : α → Prop) : Program σ α → Prop
  | done a => P a
  | fail _ => True
  | stop _ => True
  | step _ k => ∀ answer, (k answer).Returns P

theorem Returns.bind {P : α → Prop} {Q : β → Prop} {p : Program σ α} (hp : p.Returns P)
    {f : α → Program σ β} (hf : ∀ a, P a → (f a).Returns Q) : (p.bind f).Returns Q := by
  induction p with
  | done a => exact hf a hp
  | fail e => trivial
  | stop s => trivial
  | step e k ih => exact fun answer => ih answer (hp answer)

theorem returns_true (p : Program σ α) : p.Returns fun _ => True := by
  induction p with
  | done a => trivial
  | fail e => trivial
  | stop s => trivial
  | step e k ih => exact ih

theorem Returns.run {P : α → Prop} {p : Program σ α} (hp : p.Returns P) {handle : Handler σ}
    {m m' : Machine σ} {a : α} (h : p.run handle m = (.value a, m')) : P a := by
  induction p generalizing m with
  | done b =>
    obtain ⟨hab, -⟩ := Prod.mk.inj h
    exact Outcome.value.inj hab ▸ hp
  | fail e => cases h
  | stop s => cases h
  | step e k ih =>
    rw [Program.run] at h
    rcases hhandle : handle e m with ⟨b | f | s, next⟩
    · rw [hhandle] at h
      exact ih _ (hp _) h
    · rw [hhandle] at h
      exact ih _ (hp _) h
    · rw [hhandle] at h
      cases h

end Program

/-- The length that a value asks for is one that an array can have. -/
theorem Machine.returns_requestedLength {σ : Type} (v : Value) :
    (requestedLength v : Program σ Nat).Returns (· ≤ PropertyKey.maxArrayLength) := by
  have huint : ∀ x : Double, x.toUint 32 ≤ PropertyKey.maxArrayLength :=
    fun x => Nat.le_of_lt_succ (Double.toUint_lt 32 x)
  refine Program.Returns.bind (P := (· ≤ PropertyKey.maxArrayLength)) ?_ ?_
  · exact (Program.returns_true _).bind fun x _ => huint x
  · intro n hn
    refine (Program.returns_true _).bind fun x _ => ?_
    split
    · exact hn
    · trivial

/-! ## Runs -/

namespace Machine

variable {σ α : Type}

/-- A way of carrying out effects that changes the heap only as listed, and that is honest
about prototypes. -/
structure Lawful (handle : Handler σ) : Prop where
  changes : ∀ (e : Effect σ) (m : Machine σ), Heap.Changes true m.heap (handle e m).2.heap
  getPrototypeOf : ∀ (o : ObjectId) (m m' : Machine σ) (p : Option ObjectId), m.heap.Plain →
    handle (.method (.getPrototypeOf o)) m = (.value p, m') →
    m' = m ∧ ∃ s, m.heap.objects[o.index]? = some (.object s) ∧ s.prototype = p

/-- A program does to the heap what its effects do to it, one after the other. -/
theorem Lawful.run {handle : Handler σ} (hh : Lawful handle) (p : Program σ α) (m : Machine σ) :
    Heap.Changes true m.heap (p.run handle m).2.heap := by
  induction p generalizing m with
  | done a => exact .refl _
  | fail f => exact .refl _
  | stop s => exact .refl _
  | step e k ih =>
    have heffect := hh.changes e m
    rw [Program.run]
    rcases hres : handle e m with ⟨a | f | s, next⟩ <;> rw [hres] at heffect
    · exact heffect.trans (ih (.ok a) next)
    · exact heffect.trans (ih (.error f) next)
    · exact heffect

/-- Going on after a program, from the machine that it leaves. -/
theorem Lawful.run_bind {β : Type} {handle : Handler σ} (hh : Lawful handle) (p : Program σ α)
    {f : α → Run σ β} {m : Machine σ}
    (hf : ∀ a m', p.run handle m = (.value a, m') → Heap.Changes true m.heap m'.heap →
      Heap.Changes true m.heap (f a m').2.heap) :
    Heap.Changes true m.heap ((p.run handle >>= f) m).2.heap := by
  have hp := hh.run p m
  change Heap.Changes true m.heap (Run.bind (p.run handle) f m).2.heap
  simp only [Run.bind]
  rcases hres : p.run handle m with ⟨a | e | s, next⟩ <;> rw [hres] at hp
  · exact hf a next hres hp
  · exact hp
  · exact hp

theorem changes_tryHeap {f : Heap → Outcome (α × Heap)} {m : Machine σ}
    (hf : ∀ a h, f m.heap = .value (a, h) → Heap.Changes true m.heap h) :
    Heap.Changes true m.heap (Run.tryHeap f m).2.heap := by
  simp only [Run.tryHeap]
  rcases hres : f m.heap with ⟨a, h⟩ | e | s
  · exact hf a h hres
  · exact .refl _
  · exact .refl _

/-- A method that is one step of the object. -/
theorem changes_onObject {o : ObjectId} {f : Object → α × Object} {m : Machine σ}
    (hf : ∀ s, m.heap.objects[o.index]? = some (.object s) → s.Step (f s).2) :
    Heap.Changes true m.heap (Run.onObject o f m).2.heap := by
  refine changes_tryHeap fun a h hres => ?_
  simp only [Heap.cell] at hres
  rcases hcell : m.heap.objects[o.index]? with _ | ⟨s⟩ | x
  · rw [hcell] at hres
    cases hres
  · rw [hcell] at hres
    obtain ⟨-, rfl⟩ := Prod.mk.inj (Outcome.value.inj hres)
    exact .step hcell (hf s hcell)
  · rw [hcell] at hres
    cases hres

/-! ## Effects other than requests -/

/-- An effect that ends with a heap only. -/
theorem changes_tryHeap_unit {f : Heap → Outcome Heap} {m : Machine σ}
    (hf : ∀ h, f m.heap = .value h → m.heap.ScopesOnly h) :
    Heap.Changes true m.heap (Run.tryHeap (fun h => do return ((), ← f h)) m).2.heap := by
  refine changes_tryHeap fun a h hres => ?_
  obtain ⟨h', hf', hres⟩ := Outcome.bind_eq_value hres
  obtain ⟨-, rfl⟩ := Prod.mk.inj (Outcome.value.inj hres)
  exact .scopes (hf h' hf')

/-- Effects other than requests change the heap as listed. -/
theorem changes_handler {answer : (r : Request) → Run σ r.Answer}
    (ha : ∀ r (m : Machine σ), Heap.Changes true m.heap (answer r m).2.heap) (fuel : Nat)
    (e : Effect σ) (m : Machine σ) :
    Heap.Changes true m.heap (handler fuel answer e m).2.heap := by
  cases e with
  | method r => exact ha r m
  | heap => exact .refl _
  | options => exact .refl _
  | budget => exact .refl _
  | allocate b =>
    refine changes_tryHeap fun o h hres => ?_
    obtain ⟨c, hb, hres⟩ := Outcome.bind_eq_value hres
    split at hres
    · next hp =>
      obtain ⟨-, rfl⟩ := Prod.mk.inj (Outcome.value.inj hres)
      refine .allocate hb fun p hc => ?_
      rw [Option.mem_def.mp hc] at hp
      exact of_decide_eq_true hp
    · cases hres
  | freshSymbol description => exact .scopes ⟨rfl, .keep rfl rfl⟩
  | symbolFor key => exact .scopes ⟨rfl, .keep rfl rfl⟩
  | enclose env => exact .scopes ⟨rfl, .enclose _ env⟩
  | bindings e c => exact changes_tryHeap fun a h hres => .scopes (Heap.scopes_bindings hres)
  | bindThis e v => exact changes_tryHeap_unit fun h hres => Heap.scopes_bindThis hres
  | declareVar e name =>
    exact changes_tryHeap_unit fun h hres => Heap.scopes_modifyGlobal (.declareVar · name) hres
  | forgetVar e name =>
    exact changes_tryHeap_unit fun h hres => Heap.scopes_modifyGlobal (.forgetVar · name) hres
  | newGraph => exact .scopes ⟨rfl, .newGraph _⟩
  | dropGraph g => exact .scopes ⟨rfl, .dropGraph _ g⟩
  | addModule g specifier =>
    exact changes_tryHeap fun a h hres => .scopes (Heap.scopes_addModule hres)
  | setStatus g i status => exact changes_tryHeap_unit fun h hres => Heap.scopes_setStatus hres
  | instantiate g i outer =>
    exact changes_tryHeap fun a h hres => .scopes (Heap.scopes_instantiate hres)
  | load => exact .refl _
  | store state => exact .refl _

/-! ## Walking the chain -/

/-- A walk that ends well in a heap without exotic objects has changed nothing, and the
object is not on the chain. -/
theorem Lawful.walk {handle : Handler σ} (hh : Lawful handle) {o : ObjectId} {fuel : Nat}
    {p : Option ObjectId} {m m' : Machine σ} (hplain : m.heap.Plain)
    (hrun : (Program.chainAvoids o fuel p).run handle m = (.value true, m')) :
    m' = m ∧ ∃ l, m.heap.Chain p l ∧ o ∉ l := by
  induction fuel generalizing p with
  | zero =>
    cases p with
    | none =>
      obtain ⟨-, rfl⟩ := Prod.mk.inj hrun
      exact ⟨rfl, [], .nil, by simp⟩
    | some q => cases hrun
  | succ fuel ih =>
    cases p with
    | none =>
      obtain ⟨-, rfl⟩ := Prod.mk.inj hrun
      exact ⟨rfl, [], .nil, by simp⟩
    | some q =>
      rw [Program.chainAvoids] at hrun
      split at hrun
      · cases hrun
      next hne =>
      have hget : (Program.getPrototypeOf q).run handle m =
          handle (.method (.getPrototypeOf q)) m := Program.run_effect handle _ m
      rw [Program.bind_eq, Program.run_bind] at hrun
      simp only [Run.bind] at hrun
      rcases hres : handle (.method (.getPrototypeOf q)) m with ⟨next | f | s, m₁⟩ <;>
        rw [hget, hres] at hrun
      · obtain ⟨rfl, s, hq, rfl⟩ := hh.getPrototypeOf q m m₁ next hplain hres
        obtain ⟨hsame, l, hl, ho⟩ := ih hrun
        exact ⟨hsame, q :: l, .cons ⟨s, hq, rfl⟩ hl, by simp [ho, Ne.symm hne]⟩
      · cases hrun
      · cases hrun

/-! ## Requests -/

/-- Another prototype is set only on an object that was extensible. -/
theorem changes_changePrototype {handle : Handler σ} (hh : Lawful handle) (fuel : Nat)
    {o : ObjectId} {s : Object} {m : Machine σ}
    (ho : m.heap.objects[o.index]? = some (.object s)) (p : Option ObjectId) :
    Heap.Changes true m.heap (changePrototype handle fuel o s p m).2.heap := by
  simp only [changePrototype]
  split
  · exact .refl _
  split
  · exact .refl _
  next hext =>
  -- walking the chain may run the code of exotic objects
  refine hh.run_bind _ fun free next hrun hwalk => ?_
  split
  · next hfree =>
    obtain rfl : free = true := hfree
    obtain ⟨s', hs', -⟩ := hwalk.kind ho
    simp only [Run.onObject, Run.tryHeap, Heap.cell, hs', Outcome.value_bind, Outcome.pure_eq]
    refine .prototype ho (fun _ => by simpa using hext) hwalk p fun hplain => ?_
    obtain ⟨rfl, hchain⟩ := hh.walk (hwalk.plain hplain) hrun
    exact hchain
  · exact hwalk

/-- Defining a property of an array is one step of it, also when user code changes the
array while the length is converted. -/
theorem changes_defineInArray {handle : Handler σ} (hh : Lawful handle) {o : ObjectId} {s : Object}
    {m : Machine σ} (ho : m.heap.objects[o.index]? = some (.object s)) (ha : s.kind = .array)
    (k : PropertyKey) (d : Descriptor) :
    Heap.Changes true m.heap (defineInArray handle o k d m).2.heap := by
  have harray : ∀ s', m.heap.objects[o.index]? = some (.object s') → s'.kind = .array := by
    intro s' hs'
    obtain rfl := Heap.object_inj ho hs'
    exact ha
  simp only [defineInArray]
  split
  · next hk =>
    rcases hd : d.value with _ | v
    · subst hk
      exact changes_onObject fun s' hs' => .defineLength (harray s' hs') hd
    · -- only the kind of the array is known to outlast the conversion
      refine hh.run_bind _ fun n next hrun hconvert => hconvert.trans (changes_onObject ?_)
      intro s' hs'
      obtain ⟨s'', hs'', hkind⟩ := hconvert.kind ho
      obtain rfl := Heap.object_inj hs'' hs'
      exact .setLength (hkind.trans ha) ((returns_requestedLength v).run hrun) d
  · next hk => exact changes_onObject fun s' hs' => .defineInArray (harray s' hs') hk d

/-- An object of the model changes the heap only as listed, whatever it is asked for. -/
theorem changes_respondObject (E : Embedder σ) {handle : Handler σ} (hh : Lawful handle)
    (fuel : Nat) {s : Object} {r : Request} {m : Machine σ}
    (ho : m.heap.objects[r.target.index]? = some (.object s)) :
    Heap.Changes true m.heap (respondObject E handle fuel s r m).2.heap := by
  cases r with
  | setPrototypeOf o p => exact changes_changePrototype hh fuel ho p
  | preventExtensions o => exact changes_onObject fun s' _ => .preventExtensions s'
  | defineOwnProperty o k d =>
    have hdefine : s.kind ≠ .array →
        Heap.Changes true m.heap (Run.onObject o (fun s => s.define k d) m).2.heap := by
      intro hne
      refine changes_onObject fun s' hs' => .define ?_ k d
      obtain rfl := Heap.object_inj ho hs'
      exact hne
    simp only [respondObject]
    rcases hkind : s.kind with _ | _ | _
    · exact hdefine (by rw [hkind]; exact nofun)
    · exact changes_defineInArray hh ho hkind k d
    · exact hdefine (by rw [hkind]; exact nofun)
  | delete o k => exact changes_onObject fun s' _ => .delete s' k
  | hasProperty o k => exact hh.run _ m
  | get o k receiver => exact hh.run _ m
  | set o k v receiver => exact hh.run _ m
  | call o this args =>
    simp only [respondObject]
    rcases s.kind with _ | _ | _
    · exact .refl _
    · exact .refl _
    · exact hh.run _ m
  | construct o args newTarget =>
    simp only [respondObject]
    rcases s.kind with _ | _ | ⟨name, code, _ | construct⟩
    · exact .refl _
    · exact .refl _
    · exact .refl _
    · exact hh.run _ m
  | _ => exact .refl _

/-- Asking for a prototype changes nothing, unless an exotic object is asked. -/
theorem respond_getPrototypeOf (E : Embedder σ) (fuel : Nat) {o : ObjectId} {m m' : Machine σ}
    {p : Option ObjectId} (hplain : m.heap.Plain)
    (hres : respond E fuel (.getPrototypeOf o) m = (.value p, m')) :
    m' = m ∧ ∃ s, m.heap.objects[o.index]? = some (.object s) ∧ s.prototype = p := by
  cases fuel with
  | zero => cases hres
  | succ fuel =>
    rw [respond] at hres
    simp only [Request.target, Heap.cell] at hres
    rcases hcell : m.heap.objects[o.index]? with _ | ⟨s⟩ | x <;> rw [hcell] at hres
    · cases hres
    · obtain ⟨hp, rfl⟩ := Prod.mk.inj hres
      exact ⟨rfl, s, rfl, Outcome.value.inj hp⟩
    · exact absurd hcell (hplain _ x)

/-- If requests change the heap as listed, effects are carried out lawfully. -/
theorem lawful_handler {E : Embedder σ} {fuel : Nat}
    (ha : ∀ r (m : Machine σ), Heap.Changes true m.heap (respond E fuel r m).2.heap) :
    Lawful (handler fuel (respond E fuel)) where
  changes := changes_handler ha fuel
  getPrototypeOf _ _ _ _ hplain hres := respond_getPrototypeOf E fuel hplain hres

/-- Requests are answered lawfully to every depth. -/
theorem changes_respond (E : Embedder σ) (fuel : Nat) (r : Request) (m : Machine σ) :
    Heap.Changes true m.heap (respond E fuel r m).2.heap := by
  induction fuel generalizing r m with
  | zero => exact .refl _
  | succ fuel ih =>
    -- requests made while answering are one level deeper
    have hh : Lawful (handler fuel (respond E fuel)) := lawful_handler ih
    rw [respond]
    dsimp only
    simp only [Heap.cell]
    rcases hcell : m.heap.objects[r.target.index]? with _ | ⟨s⟩ | x
    · exact .refl _
    · exact changes_respondObject E hh fuel hcell
    · exact hh.run _ m

theorem lawful (E : Embedder σ) (fuel : Nat) : Lawful (handler fuel (respond E fuel)) :=
  lawful_handler (changes_respond E fuel)

/-- **Runs.** Whatever program is run with whatever code outside the model, and however
the run ends, it changes the heap only as listed. -/
theorem changes_execute (E : Embedder σ) (fuel : Nat) (p : Program σ α) (m : Machine σ) :
    Heap.Changes true m.heap (execute E fuel p m).2.heap :=
  (lawful E fuel).run p m

end Machine

end Ecma
