import Ecma.IndexedMap.Bounds
import Ecma.Proofs.IndexedMap.Iteration

/-!
# Reading a range from both ends

`next` and `nextBack` may follow each other in any order. Whatever the order, the entries
got at the front, those that are left, and those got at the back, the last one first, make up
what the cursor stood on in the beginning (`Cursor.toList_eq_got`). A call takes its entry off
one end of what is left and leaves the rest, or finds that nothing is left; a run of calls
follows by induction.

That list is the range of the map, with strictly ascending keys. So no entry comes twice, and
a call that gets nothing comes after all entries were got, at whatever hole between them the
two ends met.
-/

namespace Ecma

universe u

variable {α : Type u}

namespace Cursor

/-! ## Calls -/

/-- An end of what is left under a cursor. -/
inductive End where
  | front
  | back
  deriving DecidableEq, Repr

/-- Take the entry at an end. -/
def takeAt (c : Cursor α) : End → Option (Nat × α) × Cursor α
  | .front => c.next
  | .back => c.nextBack

/-- Take entries one after the other; yields each end with what was got there. -/
def takeAll (c : Cursor α) : List End → List (End × Option (Nat × α)) × Cursor α
  | [] => ([], c)
  | e :: ends =>
    let (found, rest) := c.takeAt e
    let (log, rest) := rest.takeAll ends
    ((e, found) :: log, rest)

/-- The entries that were got, first come first. -/
def got (log : List (End × Option (Nat × α))) : List (Nat × α) := log.filterMap (·.2)

/-- The entries that were got at one end, first come first. -/
def gotAt (e : End) (log : List (End × Option (Nat × α))) : List (Nat × α) :=
  got (log.filter (·.1 = e))

/-- Each entry was got at one of the ends. -/
theorem perm_gotAt (log : List (End × Option (Nat × α))) :
    (gotAt .front log ++ gotAt .back log).Perm (got log) := by
  induction log with
  | nil => exact .nil
  | cons a log ih =>
    obtain ⟨e, _ | found⟩ := a
    · cases e <;> simpa [gotAt, got] using ih
    · cases e with
      | front => simpa [gotAt, got] using ih
      | back => simpa [gotAt, got] using List.perm_middle.trans (ih.cons found)

/-! ## One call -/

theorem seek_of_none (s : Slots α) : ∀ n front : Nat,
    (seek s n front).1 = none → (seek s n front).2 = front + n
  | 0, front, _ => rfl
  | n + 1, front, h => by
      simp only [seek] at h ⊢
      split at h
      · cases h
      · rw [seek_of_none s n (front + 1) h]
        omega

theorem seekBack_of_none (s : Slots α) (front : Nat) : ∀ n : Nat,
    (seekBack s front n).1 = none → (seekBack s front n).2 = front
  | 0, _ => rfl
  | n + 1, h => by
      simp only [seekBack] at h ⊢
      split at h
      · cases h
      · exact seekBack_of_none s front n h

/-- What `next` gives comes before what it leaves. -/
theorem toList_next (c : Cursor α) : c.toList = c.next.1.toList ++ c.next.2.toList := by
  rcases h : c.next with ⟨_ | e, rest⟩
  · -- the front has passed every hole, so that nothing is left behind it either
    have hrest : rest.toList = [] := by
      cases c with
      | slots s front back =>
        obtain ⟨hnone, rfl⟩ := Prod.mk.inj h
        have hend : back - (front + (back - front)) = 0 := by omega
        rw [toList, seek_of_none s _ _ hnone, hend]
        rfl
      | listed l =>
        obtain rfl := toList_of_next_none h
        obtain ⟨-, rfl⟩ := Prod.mk.inj h
        rfl
    rw [toList_of_next_none h, hrest]
    rfl
  · exact toList_of_next_some h

/-- What `nextBack` gives comes after what it leaves. -/
theorem toList_nextBack (c : Cursor α) :
    c.toList = c.nextBack.2.toList ++ c.nextBack.1.toList := by
  rcases h : c.nextBack with ⟨_ | e, rest⟩
  · have hrest : rest.toList = [] := by
      cases c with
      | slots s front back =>
        obtain ⟨hnone, rfl⟩ := Prod.mk.inj h
        rw [toList, seekBack_of_none s front _ hnone, Nat.sub_self]
        rfl
      | listed l =>
        obtain rfl := toList_of_nextBack_none h
        obtain ⟨-, rfl⟩ := Prod.mk.inj h
        rfl
    rw [toList_of_nextBack_none h, hrest]
    rfl
  · exact toList_of_nextBack_some h

/-- A call gets nothing exactly when nothing is left. -/
theorem takeAt_eq_none_iff (c : Cursor α) (e : End) : (c.takeAt e).1 = none ↔ c.toList = [] := by
  constructor
  · intro h
    cases e with
    | front => exact toList_of_next_none (Prod.ext h rfl)
    | back => exact toList_of_nextBack_none (Prod.ext h rfl)
  · intro h
    cases e with
    | front =>
      rw [toList_next, List.append_eq_nil_iff] at h
      exact Option.toList_eq_nil_iff.mp h.1
    | back =>
      rw [toList_nextBack, List.append_eq_nil_iff] at h
      exact Option.toList_eq_nil_iff.mp h.2

/-- Where nothing is left, a call leaves nothing. -/
theorem toList_takeAt_of_nil {c : Cursor α} (h : c.toList = []) (e : End) :
    (c.takeAt e).2.toList = [] := by
  cases e with
  | front =>
    rw [toList_next, List.append_eq_nil_iff] at h
    exact h.2
  | back =>
    rw [toList_nextBack, List.append_eq_nil_iff] at h
    exact h.1

/-! ## Runs of calls -/

/-- **Nothing is lost and nothing comes twice.** The entries got at the front, those that are
left, and those got at the back from the last one on, are what there was. -/
theorem toList_eq_got (c : Cursor α) (ends : List End) :
    c.toList = gotAt .front (c.takeAll ends).1 ++ (c.takeAll ends).2.toList ++
      (gotAt .back (c.takeAll ends).1).reverse := by
  induction ends generalizing c with
  | nil => simp [takeAll, gotAt, got]
  | cons e ends ih =>
    have hrest := ih (c.takeAt e).2
    cases e with
    | front =>
      rw [toList_next, show c.next.2 = (c.takeAt .front).2 from rfl, hrest]
      rcases hfound : c.next.1 with _ | found <;>
        simp [takeAll, takeAt, gotAt, got, hfound]
    | back =>
      rw [toList_nextBack, show c.nextBack.2 = (c.takeAt .back).2 from rfl, hrest]
      rcases hfound : c.nextBack.1 with _ | found <;>
        simp [takeAll, takeAt, gotAt, got, hfound]

/-- Where nothing is left, all calls get nothing. -/
theorem takeAll_of_nil {c : Cursor α} (h : c.toList = []) (ends : List End) :
    ∀ a ∈ (c.takeAll ends).1, a.2 = none := by
  induction ends generalizing c with
  | nil => nofun
  | cons e ends ih =>
    intro a ha
    rcases List.mem_cons.mp ha with rfl | ha
    · exact (takeAt_eq_none_iff c e).mpr h
    · exact ih (toList_takeAt_of_nil h e) a ha

/-- A log in two parts is that of two runs, one after the other. -/
theorem takeAll_eq_append {c : Cursor α} {ends : List End}
    {before after : List (End × Option (Nat × α))} (h : (c.takeAll ends).1 = before ++ after) :
    ∃ done rest, (c.takeAll done).1 = before ∧ ((c.takeAll done).2.takeAll rest).1 = after := by
  induction before generalizing c ends with
  | nil => exact ⟨[], ends, rfl, h⟩
  | cons a before ih =>
    cases ends with
    | nil => cases h
    | cons e ends =>
      obtain ⟨ha, hrest⟩ := List.cons.inj h
      obtain ⟨done, rest, hbefore, hafter⟩ := ih hrest
      refine ⟨e :: done, rest, ?_, hafter⟩
      rw [← ha, ← hbefore]
      rfl

/-- The calls before one that gets nothing got everything, and those after it get nothing. -/
theorem takeAll_of_none {c : Cursor α} {ends : List End} {e : End}
    {before after : List (End × Option (Nat × α))}
    (h : (c.takeAll ends).1 = before ++ (e, none) :: after) :
    c.toList = gotAt .front before ++ (gotAt .back before).reverse ∧
      ∀ a ∈ after, a.2 = none := by
  obtain ⟨done, rest, hbefore, hafter⟩ := takeAll_eq_append h
  have hall := c.toList_eq_got done
  cases rest with
  | nil => cases hafter
  | cons e' rest =>
    obtain ⟨hcall, hafter⟩ := List.cons.inj hafter
    have hnil := (takeAt_eq_none_iff _ e').mp (congrArg Prod.snd hcall)
    rw [hbefore, hnil, List.append_nil] at hall
    refine ⟨hall, ?_⟩
    rw [← hafter]
    exact takeAll_of_nil (toList_takeAt_of_nil hnil e') rest

/-- What was got is, up to order, part of what there was. -/
theorem subperm_got (c : Cursor α) (ends : List End) :
    (got (c.takeAll ends).1).Subperm c.toList := by
  have hgot := perm_gotAt (c.takeAll ends).1
  have hends : (gotAt .front (c.takeAll ends).1 ++
      (gotAt .back (c.takeAll ends).1).reverse).Sublist c.toList := by
    rw [c.toList_eq_got ends, List.append_assoc]
    exact (List.Sublist.refl _).append (List.sublist_append_right _ _)
  exact ⟨_, ((List.reverse_perm _).append_left _).trans hgot, hends⟩

end Cursor

/-! ## The ranges of a map -/

namespace IndexedMap

open Cursor

theorem mem_toList_cursor {m : IndexedMap α} {lo hi k : Nat} {v : α} :
    (k, v) ∈ (m.cursor lo hi).toList ↔ m.get? k = some v ∧ lo ≤ k ∧ k < hi := by
  rw [toList_cursor, mem_entriesIn]
  refine and_congr_right fun hget => ?_
  have hlength := lt_length_of_get? hget
  omega

theorem pairwise_toList_cursor (m : IndexedMap α) (lo hi : Nat) :
    (m.cursor lo hi).toList.Pairwise fun a b => a.1 < b.1 := by
  rw [toList_cursor]
  exact m.pairwise_entriesIn lo hi

/-- **Reading a range from both ends.** A range that does not end before it starts can be read
in any order of calls at its two ends.

* The keys got at the front ascend, those got at the back descend, and no key is got twice.
* What is got is an entry of the map in the range.
* Once a call gets nothing, every entry of the range was got, and no later call gets any. -/
theorem ranges_read_from_both_ends (m : IndexedMap α) {lo hi : Nat} (hle : lo ≤ hi)
    (ends : List End) :
    ∃ c, m.tryCursor lo hi = .ok c ∧
      let log := (c.takeAll ends).1
      (gotAt .front log).Pairwise (fun a b => a.1 < b.1) ∧
      (gotAt .back log).Pairwise (fun a b => b.1 < a.1) ∧
      ((got log).map (·.1)).Nodup ∧
      (∀ k v, (k, v) ∈ got log → m.get? k = some v ∧ lo ≤ k ∧ k < hi) ∧
      ∀ before e after, log = before ++ (e, none) :: after →
        (∀ k v, (k, v) ∈ got before ↔ m.get? k = some v ∧ lo ≤ k ∧ k < hi) ∧
        ∀ a ∈ after, a.2 = none := by
  refine ⟨m.cursor lo hi, by rw [tryCursor, if_pos hle], ?_⟩
  intro log
  have hsorted := m.pairwise_toList_cursor lo hi
  obtain ⟨l, hperm, hsub⟩ := (m.cursor lo hi).subperm_got ends
  have hparts := hsorted
  rw [(m.cursor lo hi).toList_eq_got ends, List.pairwise_append, List.pairwise_append] at hparts
  obtain ⟨⟨hfront, -, -⟩, hback, -⟩ := hparts
  refine ⟨hfront, List.pairwise_reverse.mp hback, ?_, ?_, ?_⟩
  · have hnodup : ((m.cursor lo hi).toList.map (·.1)).Nodup :=
      hsorted.map _ fun _ _ hlt => Nat.ne_of_lt hlt
    exact (hperm.map _).nodup_iff.mp ((hsub.map _).nodup hnodup)
  · intro k v hkv
    exact mem_toList_cursor.mp (hsub.subset (hperm.mem_iff.mpr hkv))
  · intro before e after hlog
    obtain ⟨hall, hafter⟩ := takeAll_of_none hlog
    refine ⟨fun k v => ?_, hafter⟩
    rw [← (perm_gotAt before).mem_iff, ← mem_toList_cursor, hall, List.mem_append,
      List.mem_append, List.mem_reverse]

/-- The ends meet in the holes between 2 and 12: the fourth call finds nothing between them,
and the three entries below 20 were got. -/
theorem ranges_read_from_both_ends_meeting :
    let m := ([1, 2, 12, 25].foldl (fun m k => m.insert k (10 * k)) ∅ : IndexedMap Nat)
    0 ≤ 20 ∧ ∃ c, m.tryCursor 0 20 = .ok c ∧
      (c.takeAll [.front, .back, .front, .back, .front]).1 =
        [(.front, some (1, 10)), (.back, some (12, 120)), (.front, some (2, 20)),
          (.back, none), (.front, none)] ∧
      ∀ k v, (k, v) ∈ [(1, 10), (12, 120), (2, 20)] ↔ m.get? k = some v ∧ 0 ≤ k ∧ k < 20 := by
  intro m
  have hle : 0 ≤ 20 := by decide
  obtain ⟨c, hc, -, -, -, -, hlast⟩ :=
    ranges_read_from_both_ends m hle [.front, .back, .front, .back, .front]
  have hlog : (c.takeAll [.front, .back, .front, .back, .front]).1 =
      [(.front, some (1, 10)), (.back, some (12, 120)), (.front, some (2, 20)),
        (.back, none), (.front, none)] := by
    rw [tryCursor, if_pos hle] at hc
    rw [← Except.ok.inj hc]
    decide +kernel
  have hall := hlast [(.front, some (1, 10)), (.back, some (12, 120)), (.front, some (2, 20))]
    .back [(.front, none)] hlog
  exact ⟨hle, c, hc, hlog, hall.1⟩

end IndexedMap

end Ecma
