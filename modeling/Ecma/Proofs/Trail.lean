/-!
# Trails

The machine follows links from place to place: from an object to its prototype, from an
environment to the one around it, or from an imported name to the one that it stands for. A
`Trail` is such a walk that comes to an end.
Where a place links to one place at most, there is one trail from each place, it passes no
place twice (`Trail.nodup`), and it is no longer than there are places (`Trail.length_le`).
So a walk that is given as many steps as there are places has enough.
-/

namespace Ecma

universe u

variable {α : Type u}

/-- The walk from a place along links ends, and these are the places on it. `link x none`
says that the walk ends with `x`. -/
inductive Trail (link : α → Option α → Prop) : Option α → List α → Prop
  | nil : Trail link none []
  | cons {x : α} {next : Option α} {l : List α} (hx : link x next) (hl : Trail link next l) :
      Trail link (some x) (x :: l)

/-- A place links to one place at most. -/
def SingleLinked (link : α → Option α → Prop) : Prop := ∀ x y z, link x y → link x z → y = z

namespace Trail

variable {link link' : α → Option α → Prop} {start : Option α} {l : List α}

theorem unique (hlink : SingleLinked link) (hl : Trail link start l) :
    ∀ {l'}, Trail link start l' → l' = l := by
  induction hl with
  | nil =>
    intro l' hl'
    cases hl'
    rfl
  | cons hx _ ih =>
    intro l' hl'
    cases hl' with
    | cons hx' hl' =>
      obtain rfl := hlink _ _ _ hx hx'
      rw [ih hl']

/-- The rest of a trail from a place on it is the trail of that place. -/
theorem of_mem (hl : Trail link start l) {x : α} (hx : x ∈ l) :
    ∃ before after, l = before ++ x :: after ∧ Trail link (some x) (x :: after) := by
  induction hl with
  | nil => cases hx
  | @cons y _ l hy hl ih =>
    rcases List.mem_cons.mp hx with rfl | hx
    · exact ⟨[], l, rfl, .cons hy hl⟩
    · obtain ⟨before, after, rfl, htrail⟩ := ih hx
      exact ⟨y :: before, after, rfl, htrail⟩

theorem exists_link (hl : Trail link start l) {x : α} (hx : x ∈ l) : ∃ next, link x next := by
  obtain ⟨_, _, _, htrail⟩ := hl.of_mem hx
  cases htrail with
  | cons hx _ => exact ⟨_, hx⟩

/-- No place comes after itself: its trail would be longer than itself. -/
theorem nodup (hlink : SingleLinked link) (hl : Trail link start l) : l.Nodup := by
  induction hl with
  | nil => exact List.nodup_nil
  | @cons x _ l hx hl ih =>
    refine List.nodup_cons.mpr ⟨fun hmem => ?_, ih⟩
    obtain ⟨before, after, rfl, htrail⟩ := hl.of_mem hmem
    have hsame := congrArg List.length ((Trail.cons hx hl).unique hlink htrail)
    simp only [List.length_cons, List.length_append] at hsame
    omega

/-- A trail is no longer than there are places that link. -/
theorem length_le (hlink : SingleLinked link) (hl : Trail link start l) {places : List α}
    (hplaces : ∀ x next, link x next → x ∈ places) : l.length ≤ places.length := by
  refine (hl.nodup hlink).length_le_of_subset fun x hx => ?_
  obtain ⟨next, hnext⟩ := hl.exists_link hx
  exact hplaces x next hnext

/-- The same where the places that link are numbered. -/
theorem length_le_of_numbered (hlink : SingleLinked link) (hl : Trail link start l)
    (place : Nat → α) {n : Nat} (hplaces : ∀ x next, link x next → ∃ i, i < n ∧ place i = x) :
    l.length ≤ n := by
  have hbound : l.length ≤ ((List.range n).map place).length := by
    refine hl.length_le hlink fun x next hx => ?_
    obtain ⟨i, hi, hx⟩ := hplaces x next hx
    exact List.mem_map.mpr ⟨i, List.mem_range.mpr hi, hx⟩
  simpa using hbound

/-- A trail stays what it is while the places on it keep their links. -/
theorem frame (hl : Trail link start l)
    (hkeep : ∀ x ∈ l, ∀ next, link x next → link' x next) : Trail link' start l := by
  induction hl with
  | nil => exact .nil
  | @cons x next l hx _ ih =>
    have hrest := ih fun y hy => hkeep y (List.mem_cons_of_mem _ hy)
    exact .cons (hkeep x List.mem_cons_self next hx) hrest

end Trail

end Ecma
