import Mathlib.Order.Bounds.Defs
import Ecma.Proofs.Machine.Changes
import Ecma.Proofs.Number.IntegerConversion

/-!
# What lowering the length of an array leaves

`ArrayLength` says that an array stays one when its length is lowered. Here is what becomes of
it exactly. Deleting goes through the elements from the last one down, so it stops at the
greatest one that cannot be deleted (`stop_cases`), or at none; everything above is gone
and everything else is there (`cut_deleteElements`).

**Where an array is cut off** (`HasLength.shrink_eq`): at the length that was asked for, or
just above the element that stopped the deleting. Either way the length is left writable
unless it was asked not to be.

A number asks for a length if it is an integer that fits 32 bits (`equals_toUint_iff`).
-/

namespace Ecma

namespace Double

variable {x : Double}

/-! ## Numbers that are lengths -/

/-- What is numerically a natural number is integral and is truncated to it. -/
theorem equals_ofNat_iff {n : Nat} (hn : n < 2 ^ 53) :
    (ofNat n).equals x = true ↔ x.isIntegral = true ∧ x.truncate = n := by
  have hone : (unitsPerOne : Int) ≠ 0 := by exact_mod_cast unitsPerOne_pos.ne'
  have hfinite := isFinite_ofNat hn
  simp only [equals, isNaN_of_isFinite hfinite, units_ofNat hn, Bool.not_false, Bool.true_and,
    Bool.and_eq_true, Bool.not_eq_true', decide_eq_true_eq]
  constructor
  · rintro ⟨hnan, hunits⟩
    -- an infinity is farther from zero than every natural number
    have hinfinite : x.isInfinite = false := by
      refine Bool.eq_false_iff.mpr fun hinf => ?_
      have hbounds := units_bounds hinf hfinite
      rw [units_ofNat hn, hunits, units] at hbounds
      split at hbounds <;> omega
    have hmagnitude : x.magnitude = n * unitsPerOne := by
      rw [units] at hunits
      split at hunits <;> omega
    refine ⟨?_, ?_⟩
    · rw [isIntegral, isFinite_of_not hnan hinfinite, hmagnitude, Nat.mul_mod_left]
      rfl
    · rw [truncate, ← hunits, Int.mul_tdiv_cancel _ hone]
  · rintro ⟨hintegral, htruncate⟩
    refine ⟨isNaN_of_isFinite (isFinite_of_isIntegral hintegral), ?_⟩
    rw [units_eq_truncate hintegral, htruncate]

/-- A number is the same after being cut to 32 bits exactly if it is an integer that fits
them. -/
theorem equals_toUint_iff :
    (ofNat (x.toUint 32)).equals x = true ↔
      x.isIntegral = true ∧ ∃ n : Nat, n < 2 ^ 32 ∧ x.truncate = n := by
  have hlt := toUint_lt 32 x
  rw [equals_ofNat_iff (hlt.trans (by decide))]
  refine and_congr_right fun hintegral => ⟨fun heq => ⟨_, hlt, heq⟩, ?_⟩
  rintro ⟨n, hn, heq⟩
  rw [toUint_of_truncate (isFinite_of_isIntegral hintegral) le_rfl hn heq, heq]

end Double

namespace Object

variable {s : Object} {n old : Nat}

/-! ## Elements that stay -/

/-- The element is there and cannot be deleted. -/
def isFixed (s : Object) (i : Nat) : Bool := (s.own? (.index i)).any (!·.configurable)

/-- The elements from `n` on and below `old` that cannot be deleted. -/
def fixedIn (s : Object) (n old : Nat) : Set Nat := {i | n ≤ i ∧ i < old ∧ s.isFixed i = true}

theorem mem_fixedIn {i : Nat} :
    i ∈ s.fixedIn n old ↔ i ∈ s.properties.indexed.keysIn n old ∧ s.isFixed i = true := by
  rw [mem_keysIn]
  refine ⟨fun h => ⟨⟨?_, h.1, h.2.1⟩, h.2.2⟩, fun h => ⟨h.1.2.1, h.1.2.2, h.2⟩⟩
  obtain ⟨p, hp, -⟩ := (Option.any_eq_true ..).mp h.2.2
  exact Option.isSome_of_eq_some hp

theorem delete_granted (s : Object) (i : Nat) : (s.delete (.index i)).1 = !s.isFixed i := by
  rw [delete, isFixed]
  rcases s.own? (.index i) with _ | p
  · rfl
  · rcases hconf : p.configurable with _ | _ <;> simp [hconf]

/-- Deleting an element leaves the fixed ones fixed, and the others not. -/
theorem isFixed_delete {i : Nat} (h : s.isFixed i = false) (j : Nat) :
    (s.delete (.index i)).2.isFixed j = s.isFixed j := by
  rw [isFixed, own?_delete]
  split
  · next hj =>
    rw [PropertyKey.index.inj hj.1, h]
    rfl
  · rfl

/-- Deleting stops at the first element that is fixed. -/
theorem deleteElements_stop (s : Object) (l : List Nat) :
    (s.deleteElements l).1 = l.find? s.isFixed := by
  induction l generalizing s with
  | nil => rfl
  | cons i l ih =>
    obtain ⟨next, hdelete⟩ : ∃ next, s.delete (.index i) = (!s.isFixed i, next) :=
      ⟨_, Prod.ext (s.delete_granted i) rfl⟩
    rw [deleteElements, hdelete, List.find?_cons]
    rcases hfixed : s.isFixed i with _ | _
    · have hnext := funext (isFixed_delete hfixed)
      rw [hdelete] at hnext
      exact (ih next).trans (by rw [hnext])
    · rfl

/-- The elements come in descending order, so deleting stops at the greatest one that is
fixed. -/
theorem stop_cases (s : Object) (n old : Nat) :
    (s.properties.indexed.keysIn n old).reverse.find? s.isFixed = none ∧ s.fixedIn n old = ∅ ∨
      ∃ k, (s.properties.indexed.keysIn n old).reverse.find? s.isFixed = some k ∧
        IsGreatest (s.fixedIn n old) k := by
  rcases hstop : (s.properties.indexed.keysIn n old).reverse.find? s.isFixed with _ | k
  · refine .inl ⟨rfl, Set.eq_empty_of_forall_notMem fun i hi => ?_⟩
    obtain ⟨hmem, hfixed⟩ := mem_fixedIn.mp hi
    exact List.find?_eq_none.mp hstop i (List.mem_reverse.mpr hmem) hfixed
  · obtain ⟨hfixed, above, below, hsplit, habove⟩ := List.find?_eq_some_iff_append.mp hstop
    have hdescending : (above ++ k :: below).Pairwise (fun a b => b < a) := by
      rw [← hsplit, List.pairwise_reverse]
      exact s.properties.indexed.pairwise_keysIn n old
    have hmem : ∀ i, i ∈ s.properties.indexed.keysIn n old ↔ i ∈ above ∨ i = k ∨ i ∈ below := by
      intro i
      rw [← List.mem_reverse, hsplit, List.mem_append, List.mem_cons]
    refine .inr ⟨k, rfl, mem_fixedIn.mpr ⟨(hmem k).mpr (.inr (.inl rfl)), hfixed⟩, fun i hi => ?_⟩
    obtain ⟨hi, hifixed⟩ := mem_fixedIn.mp hi
    obtain hi | rfl | hi := (hmem i).mp hi
    · have hfree := habove i hi
      rw [hifixed] at hfree
      cases hfree
    · exact Nat.le_refl i
    · exact ((List.pairwise_cons.mp (List.pairwise_append.mp hdescending).2.1).1 i hi).le

/-! ## What is left -/

/-- The object `s'` is `s` without the elements from `n` on and below `old`, its length apart. -/
structure Cut (s : Object) (old n : Nat) (s' : Object) : Prop extends s.Alike s' where
  extensible : s'.extensible = s.extensible
  gone : ∀ i, n ≤ i → i < old → s'.own? (.index i) = none
  kept : ∀ k, k ≠ lengthKey → (∀ i, n ≤ i → i < old → k ≠ .index i) → s'.own? k = s.own? k

/-- The array `s'` is `s` cut off at `n`, which is its length, writable if `w`. -/
structure CutTo (s : Object) (old n : Nat) (w : Bool) (s' : Object) : Prop
    extends s.Cut old n s' where
  length : s'.own? lengthKey = some (.data (.number (.ofNat n)) w false false)

/-- Writing the length of what is left. -/
theorem Cut.put {s' : Object} (h : s.Cut old n s') (w : Bool) :
    s.CutTo old n w (s'.put lengthKey (.data (.number (.ofNat n)) w false false)) where
  kind := h.kind
  prototype := h.prototype
  extensible := h.extensible
  gone i hn hold := by rw [own?_put, if_neg (lengthKey_ne_index i).symm, h.gone i hn hold]
  kept k hk hout := by rw [own?_put, if_neg hk, h.kept k hk hout]
  length := by rw [own?_put, if_pos rfl]

/-- What is left does not depend on the length that was written before. -/
theorem Cut.of_put {s' : Object} {q : Property} (h : (s.put lengthKey q).Cut old n s') :
    s.Cut old n s' where
  kind := h.kind
  prototype := h.prototype
  extensible := h.extensible
  gone := h.gone
  kept k hk hout := by rw [h.kept k hk hout, own?_put, if_neg hk]

theorem extensible_deleteElements (s : Object) (l : List Nat) :
    (s.deleteElements l).2.extensible = s.extensible := by
  have hone : ∀ (s : Object) (i : Nat), (s.delete (.index i)).2.extensible = s.extensible := by
    intro s i
    rw [delete]
    rcases s.own? (.index i) with _ | p
    · rfl
    · dsimp only
      split <;> rfl
  induction l generalizing s with
  | nil => rfl
  | cons i l ih =>
    have hnext := hone s i
    rw [deleteElements]
    rcases hdelete : s.delete (.index i) with ⟨_ | _, next⟩ <;> rw [hdelete] at hnext
    · exact hnext
    · exact (ih next).trans hnext

/-- Deleting the elements from `n` on cuts the object off at `n`, or just above where it
stopped. -/
theorem cut_deleteElements {stop : Option Nat} {left : Object}
    (h : s.deleteElements (s.properties.indexed.keysIn n old).reverse = (stop, left)) :
    s.Cut old (stop.elim n (· + 1)) left := by
  have hextensible := s.extensible_deleteElements (s.properties.indexed.keysIn n old).reverse
  rw [h] at hextensible
  obtain ⟨-, hgone, hkept⟩ := own?_deleteElements h
  exact ⟨.of_deleteElements h, hextensible, hgone, fun k _ => hkept k⟩

/-! ## Lowering the length -/

/-- The length has neither flag, so a request conflicts with its flags if it asks for one. -/
theorem conflictsWithFlags_length {d : Descriptor} :
    d.conflictsWithFlags (lengthProperty 0) = true ↔
      d.enumerable = some true ∨ d.configurable = some true := by
  rcases henum : d.enumerable with _ | _ | _ <;>
    simp [Descriptor.conflictsWithFlags, lengthProperty, Property.data, henum]

/-- **Lowering.** The array is cut off at the length that was asked for if nothing is in the
way, and otherwise just above the greatest element that cannot be deleted. -/
theorem HasLength.shrink_eq (h : s.HasLength old true) (n : Nat) {d : Descriptor}
    (hflags : d.conflictsWithFlags (lengthProperty 0) = false) :
    (s.fixedIn n old = ∅ ∧ ∃ s', s.shrink n d = (true, s') ∧
        s.CutTo old n (d.writable ≠ some false) s') ∨
      ∃ k, IsGreatest (s.fixedIn n old) k ∧ ∃ s', s.shrink n d = (false, s') ∧
        s.CutTo old (k + 1) (d.writable ≠ some false) s' := by
  obtain ⟨lowered, stop, left, rfl, hdelete, hkept, hshrink⟩ := h.shrink_steps n hflags
  have hstop := deleteElements_stop _ _ ▸ congrArg Prod.fst hdelete
  have hleft := (cut_deleteElements hdelete).of_put
  rw [hshrink]
  obtain ⟨hnone, hempty⟩ | ⟨k, hsome, hgreatest⟩ := stop_cases _ n old
  · obtain rfl : stop = none := hstop.symm.trans hnone
    refine .inl ⟨hempty, _, rfl, ?_⟩
    by_cases hfreeze : d.writable = some false
    · rw [if_pos hfreeze, decide_eq_false (not_not.mpr hfreeze)]
      exact hleft.put false
    · rw [if_neg hfreeze, decide_eq_true hfreeze]
      exact ⟨hleft, hkept⟩
  · obtain rfl : stop = some k := hstop.symm.trans hsome
    exact .inr ⟨k, hgreatest, _, rfl, hleft.put _⟩

/-- Asking for a length below the present one. -/
theorem HasLength.setLength_lower {w : Bool} (h : s.HasLength old w) (hn : n < old)
    (d : Descriptor) : s.setLength n d = if w then s.shrink n d else (false, s) := by
  rw [Object.setLength, h.length_eq, if_neg (Nat.not_le.mpr hn), h.ownLength_eq]
  rfl

/-- A length that is not writable is not lowered, nor is one that is to get other flags. -/
theorem HasLength.setLength_refused {w : Bool} (h : s.HasLength old w) (hn : n < old)
    {d : Descriptor} (hd : w = false ∨ d.enumerable = some true ∨ d.configurable = some true) :
    s.setLength n d = (false, s) := by
  rw [h.setLength_lower hn]
  cases w with
  | false => rfl
  | true =>
    exact (if_pos rfl).trans
      (h.shrink_refused n (conflictsWithFlags_length.mpr (hd.resolve_left nofun)))

theorem HasLength.setLength_cut (h : s.HasLength old true) (hn : n < old) {d : Descriptor}
    (henum : d.enumerable ≠ some true) (hconf : d.configurable ≠ some true) :
    (s.fixedIn n old = ∅ ∧ ∃ s', s.setLength n d = (true, s') ∧
        s.CutTo old n (d.writable ≠ some false) s') ∨
      ∃ k, IsGreatest (s.fixedIn n old) k ∧ ∃ s', s.setLength n d = (false, s') ∧
        s.CutTo old (k + 1) (d.writable ≠ some false) s' := by
  rw [h.setLength_lower hn, if_pos rfl]
  refine h.shrink_eq n (Bool.eq_false_iff.mpr fun hflags => ?_)
  exact (conflictsWithFlags_length.mp hflags).elim henum hconf

end Object

end Ecma
