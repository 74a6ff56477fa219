import Ecma.Heap
import Ecma.Proofs.Trail

/-!
# Prototype chains of a heap

`h.Chain start l` says that the prototype chain from `start` on ends, and that `l` are the
objects on it.

A heap is **grounded** if all of its objects are objects of the model and have such a
chain. A chain stays what it is as long as the objects on it keep their prototypes
(`Chain.frame_objects`). An object may be given another prototype if it is not on the chain
of the new one: the chains that led through it then lead on to that chain
(`Grounded.setPrototype`). Nothing else is needed to keep a heap grounded.
-/

namespace Ecma

/-- Different objects stand at different places. -/
theorem ObjectId.index_ne {o q : ObjectId} (h : o ≠ q) : o.index ≠ q.index :=
  fun heq => h (congrArg ObjectId.mk heq)

/-- An object of the model stands at a place. -/
def Cell.isObject : Cell → Bool
  | object _ => true
  | exotic _ => false

namespace Heap

/-! ## Places -/

/-- One object stands at a place. -/
theorem object_inj {h : Heap} {i : Nat} {s s' : Object} (hs : h.objects[i]? = some (.object s))
    (hs' : h.objects[i]? = some (.object s')) : s = s' :=
  Cell.object.inj (Option.some.inj (hs.symm.trans hs'))

theorem getElem?_allocate (h : Heap) (c : Cell) (i : Nat) :
    (h.allocate c).2.objects[i]? = if i = h.objects.size then some c else h.objects[i]? :=
  Array.getElem?_push

theorem getElem?_modifyObject (h : Heap) (o : ObjectId) (f : Object → Object) (i : Nat) :
    (h.modifyObject o f).objects[i]? =
      if i = o.index then h.objects[i]?.map (modifyCell f) else h.objects[i]? := by
  rw [modifyObject, Array.getElem?_modify]
  simp only [eq_comm]

/-- An object that is there stays where it is under a change of some object. -/
theorem exists_modifyObject {h : Heap} {i : Nat} {s : Object}
    (hi : h.objects[i]? = some (.object s)) (o : ObjectId) (f : Object → Object) :
    (h.modifyObject o f).objects[i]? = some (.object (if i = o.index then f s else s)) := by
  rw [getElem?_modifyObject, hi]
  split <;> rfl

/-- An object that is there stays where it is when another is allocated. -/
theorem getElem?_allocate_of_some {h : Heap} {i : Nat} {x : Cell} (hi : h.objects[i]? = some x)
    (c : Cell) : (h.allocate c).2.objects[i]? = some x := by
  have hlt : i < h.objects.size := (Array.getElem?_eq_some_iff.mp hi).1
  rw [getElem?_allocate, if_neg (Nat.ne_of_lt hlt), hi]

/-- A change that leaves an object as it is leaves the heap as it is. -/
theorem modifyObject_eq_self {h : Heap} {o : ObjectId} {s : Object} {f : Object → Object}
    (ho : h.objects[o.index]? = some (.object s)) (hf : f s = s) : h.modifyObject o f = h := by
  have hobjects : (h.modifyObject o f).objects = h.objects := by
    refine Array.ext_getElem? fun i => ?_
    rw [getElem?_modifyObject]
    split
    · next heq => rw [heq, ho, Option.map_some, modifyCell, hf]
    · rfl
  exact congrArg (fun objects => { h with objects := objects }) hobjects

/-- An exotic object stays where it is under a change of an object of the model. -/
theorem exotic_modifyObject {h : Heap} {i : Nat} {x : Exotic} (o : ObjectId)
    (f : Object → Object) (hi : h.objects[i]? = some (.exotic x)) :
    (h.modifyObject o f).objects[i]? = some (.exotic x) := by
  rw [getElem?_modifyObject, hi]
  split <;> rfl

/-! ## Chains -/

/-- An object of the model has this prototype. -/
def Inherits (h : Heap) (o : ObjectId) (p : Option ObjectId) : Prop :=
  ∃ s, h.objects[o.index]? = some (.object s) ∧ s.prototype = p

/-- The prototype chain from an object on ends; these are the objects on it. -/
abbrev Chain (h : Heap) : Option ObjectId → List ObjectId → Prop := Trail h.Inherits

/-- All objects of the heap are objects of the model. -/
def Plain (h : Heap) : Prop := ∀ (i : Nat) (x : Exotic), h.objects[i]? ≠ some (.exotic x)

theorem plain_iff {h : Heap} : h.Plain ↔ h.objects.all Cell.isObject = true := by
  simp only [Array.all_eq_true_iff_forall_mem]
  constructor
  · intro hplain c hc
    obtain ⟨i, hi⟩ := Array.getElem?_of_mem hc
    cases c with
    | object s => rfl
    | exotic x => exact absurd hi (hplain i x)
  · intro hall i x hi
    cases hall _ (Array.mem_of_getElem? hi)

instance (h : Heap) : Decidable h.Plain := decidable_of_iff _ plain_iff.symm

/-- The chain of every object of the heap ends. -/
def Grounded (h : Heap) : Prop :=
  ∀ o : ObjectId, o.index < h.objects.size → ∃ l, h.Chain (some o) l

variable {h h' : Heap} {start : Option ObjectId} {l : List ObjectId}

theorem singleLinked_inherits (h : Heap) : SingleLinked h.Inherits := by
  rintro o _ _ ⟨s, hs, rfl⟩ ⟨s', hs', rfl⟩
  rw [object_inj hs hs']

theorem Inherits.index_lt {o : ObjectId} {p : Option ObjectId} (hp : h.Inherits o p) :
    o.index < h.objects.size := by
  obtain ⟨s, hs, -⟩ := hp
  exact (Array.getElem?_eq_some_iff.mp hs).1

/-- A chain is no longer than the heap has objects. -/
theorem Chain.length_le_size (hl : h.Chain start l) : l.length ≤ h.objects.size :=
  hl.length_le_of_numbered h.singleLinked_inherits ObjectId.mk fun o _ hp =>
    ⟨o.index, hp.index_lt, rfl⟩

/-- A chain stays what it is while the objects on it keep their prototypes. -/
theorem Chain.frame_objects (hl : h.Chain start l)
    (hkeep : ∀ o ∈ l, ∀ s, h.objects[o.index]? = some (.object s) →
      ∃ s', h'.objects[o.index]? = some (.object s') ∧ s'.prototype = s.prototype) :
    h'.Chain start l := by
  refine hl.frame ?_
  rintro o ho _ ⟨s, hs, rfl⟩
  exact hkeep o ho s hs

theorem Chain.allocate (hl : h.Chain start l) (c : Cell) : (h.allocate c).2.Chain start l :=
  hl.frame_objects fun _ _ s ho => ⟨s, getElem?_allocate_of_some ho c, rfl⟩

/-! ## Grounded heaps -/

/-- Every object of a grounded heap is an object of the model. -/
theorem Grounded.exists_object (hg : h.Grounded) {o : ObjectId} (ho : o.index < h.objects.size) :
    ∃ s, h.objects[o.index]? = some (.object s) := by
  obtain ⟨l, hl⟩ := hg o ho
  cases hl with
  | cons hx _ =>
    obtain ⟨s, hs, -⟩ := hx
    exact ⟨s, hs⟩

/-- The chain of what may be a prototype ends. -/
theorem Grounded.exists_chain (hg : h.Grounded)
    (hstart : ∀ o ∈ start, o.index < h.objects.size) : ∃ l, h.Chain start l := by
  cases start with
  | none => exact ⟨[], .nil⟩
  | some o => exact hg o (hstart o rfl)

/-- A heap is grounded if every object inherits from one that was made earlier. -/
theorem grounded_of_earlier
    (hearlier : ∀ i < h.objects.size, ∃ s, h.objects[i]? = some (.object s) ∧
      ∀ p ∈ s.prototype, p.index < i) : h.Grounded := by
  rintro ⟨i⟩ hi
  induction i using Nat.strongRecOn with
  | ind i ih =>
    obtain ⟨s, hs, hproto⟩ := hearlier i hi
    have hrest : ∃ l, h.Chain s.prototype l := by
      rcases hp : s.prototype with _ | p
      · exact ⟨[], .nil⟩
      · have hlt : p.index < i := hproto p hp
        exact ih p.index hlt (Nat.lt_trans hlt hi)
    obtain ⟨l, hl⟩ := hrest
    exact ⟨_, .cons ⟨s, hs, rfl⟩ hl⟩

/-- A new object inherits from one that is there. -/
theorem Grounded.allocate (hg : h.Grounded) {s : Object}
    (hp : ∀ p ∈ s.prototype, p.index < h.objects.size) :
    (h.allocate (.object s)).2.Grounded := by
  intro o ho
  have hsize : o.index < h.objects.size + 1 := by simpa [Heap.allocate] using ho
  rcases Nat.lt_succ_iff_lt_or_eq.mp hsize with hlt | heq
  · obtain ⟨l, hl⟩ := hg o hlt
    exact ⟨l, hl.allocate _⟩
  · obtain ⟨l, hl⟩ := hg.exists_chain hp
    exact ⟨_, .cons ⟨s, by rw [getElem?_allocate, if_pos heq], rfl⟩ (hl.allocate _)⟩

/-- Changing an object otherwise than by giving it another prototype. -/
theorem Grounded.modifyObject (hg : h.Grounded) {o : ObjectId} {f : Object → Object}
    (hf : ∀ s, h.objects[o.index]? = some (.object s) → (f s).prototype = s.prototype) :
    (h.modifyObject o f).Grounded := by
  intro q hq
  obtain ⟨l, hl⟩ := hg q (by simpa [Heap.modifyObject] using hq)
  refine ⟨l, hl.frame_objects fun r _ s hr => ⟨_, exists_modifyObject hr o f, ?_⟩⟩
  split
  · next heq => exact hf s (heq ▸ hr)
  · rfl

/-- A chain that passes an object leads on from there to the chain of its new prototype. -/
theorem Chain.redirect {o : ObjectId} {p : Option ObjectId} {lp : List ObjectId}
    (hp : h.Chain p lp) (ho : o ∉ lp) (hl : h.Chain start l) :
    ∃ l', (h.modifyObject o fun s => { s with prototype := p }).Chain start l' := by
  induction hl with
  | nil => exact ⟨[], .nil⟩
  | @cons q _ l hq _ ih =>
    obtain ⟨s, hq, rfl⟩ := hq
    have hcell := exists_modifyObject hq o fun s => { s with prototype := p }
    by_cases heq : q = o
    · subst heq
      rw [if_pos rfl] at hcell
      -- the new chain does not pass the object, so it is as it was
      refine ⟨_, .cons ⟨_, hcell, rfl⟩ (hp.frame_objects fun r hr s hs => ⟨s, ?_, rfl⟩)⟩
      have hne : r ≠ q := fun heq => ho (heq ▸ hr)
      rw [exists_modifyObject hs, if_neg (ObjectId.index_ne hne)]
    · rw [if_neg (ObjectId.index_ne heq)] at hcell
      obtain ⟨l', hl'⟩ := ih
      exact ⟨_, .cons ⟨s, hcell, rfl⟩ hl'⟩

/-- **Another prototype.** If an object is not on the chain of its new prototype, all
chains still end. -/
theorem Grounded.setPrototype (hg : h.Grounded) {o : ObjectId} {p : Option ObjectId}
    (hl : h.Chain p l) (ho : o ∉ l) :
    (h.modifyObject o fun s => { s with prototype := p }).Grounded := by
  intro q hq
  obtain ⟨lq, hlq⟩ := hg q (by simpa [Heap.modifyObject] using hq)
  exact hl.redirect ho hlq

end Heap

end Ecma
