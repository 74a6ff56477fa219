import Ecma.Text.Units

/-!
# The order of texts, character by character

Texts compare by their 16-bit units, and a character may be one unit or two. Two different
characters are nevertheless told apart by their own units, whatever follows them
(`compareUnits_charUnits`). So **the order is that of the characters**, the first difference
deciding (`compareText_eq_compareLex`), if characters are ranked as their units are: those above
`U+FFFF`, whose units are surrogates, stand between the ones below the surrogates and the ones
above them.
-/

namespace Ecma.Text

/-! ## The rank of a character -/

/-- The ranges of characters in their order: below the surrogates, above `U+FFFF`, and from
`U+E000` to `U+FFFF`. -/
def range (c : Char) : Nat :=
  if c.toNat < 0xD800 then 0 else if 0x10000 ≤ c.toNat then 1 else 2

/-- How two characters rank: by their ranges, and within a range by their numbers. -/
def compareRank : Char → Char → Ordering :=
  compareLex (compareOn range) (compareOn Char.toNat)

theorem compareRank_eq (x y : Char) :
    compareRank x y = (compare (range x) (range y)).then (compare x.toNat y.toNat) := rfl

theorem compareRank_eq_lt_iff {x y : Char} :
    compareRank x y = .lt ↔ range x < range y ∨ range x = range y ∧ x.toNat < y.toNat := by
  rw [compareRank_eq, Ordering.then_eq_lt, Nat.compare_eq_lt, Nat.compare_eq_eq, Nat.compare_eq_lt]

instance : Std.TransCmp compareRank :=
  inferInstanceAs (Std.TransCmp (compareLex (compareOn range) (compareOn Char.toNat)))

instance : Std.LawfulEqCmp compareRank where
  eq_of_compare {x y} h := by
    rw [compareRank_eq, Ordering.then_eq_eq, Nat.compare_eq_eq, Nat.compare_eq_eq] at h
    exact Char.toNat_inj.mp h.2

/-! ## Units -/

theorem compareUnits_swap (as bs : List Nat) :
    compareUnits bs as = (compareUnits as bs).swap := by
  induction as generalizing bs with
  | nil => cases bs <;> rfl
  | cons a as ih =>
    cases bs with
    | nil => rfl
    | cons b bs => rw [compareUnits, compareUnits, Ordering.swap_then, Nat.compare_swap, ih]

theorem compareUnits_append (us as bs : List Nat) :
    compareUnits (us ++ as) (us ++ bs) = compareUnits as bs := by
  induction us with
  | nil => rfl
  | cons u us ih => simp [compareUnits, ih]

theorem compareUnits_cons_eq_lt_iff {a b : Nat} {as bs : List Nat} :
    compareUnits (a :: as) (b :: bs) = .lt ↔ a < b ∨ a = b ∧ compareUnits as bs = .lt := by
  rw [compareUnits, Ordering.then_eq_lt, Nat.compare_eq_lt, Nat.compare_eq_eq]

/-- A character that ranks below another has lesser units. -/
theorem compareUnits_eq_lt {x y : Char} (h : compareRank x y = .lt) (as bs : List Nat) :
    compareUnits (charUnits x ++ as) (charUnits y ++ bs) = .lt := by
  rw [compareRank_eq_lt_iff] at h
  -- no character is a surrogate
  have hx : x.toNat < 0xD800 ∨ 0xDFFF < x.toNat ∧ x.toNat < 0x110000 := x.valid
  have hy : y.toNat < 0xD800 ∨ 0xDFFF < y.toNat ∧ y.toNat < 0x110000 := y.valid
  simp only [range] at h
  simp only [charUnits]
  generalize x.toNat = n at *
  generalize y.toNat = k at *
  split
  · split
    · exact compareUnits_cons_eq_lt_iff.mpr (.inl (by grind))
    · exact compareUnits_cons_eq_lt_iff.mpr (.inl (by grind))
  · split
    · exact compareUnits_cons_eq_lt_iff.mpr (.inl (by grind))
    · -- two pairs of surrogates, which may have the first one in common
      have hlt : n < k := by grind
      rcases Nat.lt_or_ge ((n - 0x10000) / 0x400) ((k - 0x10000) / 0x400) with hhigh | hhigh
      · exact compareUnits_cons_eq_lt_iff.mpr (.inl (by omega))
      · exact compareUnits_cons_eq_lt_iff.mpr
          (.inr ⟨by omega, compareUnits_cons_eq_lt_iff.mpr (.inl (by omega))⟩)

/-- **Two different characters** decide, whatever follows them. -/
theorem compareUnits_charUnits {x y : Char} (h : x ≠ y) (as bs : List Nat) :
    compareUnits (charUnits x ++ as) (charUnits y ++ bs) = compareRank x y := by
  rcases hrank : compareRank x y with _ | _ | _
  · exact compareUnits_eq_lt hrank as bs
  · exact absurd (Std.LawfulEqCmp.eq_of_compare hrank) h
  · have hlt : compareRank y x = .lt := Std.OrientedCmp.gt_iff_lt.mp hrank
    rw [compareUnits_swap, compareUnits_eq_lt hlt]
    rfl

/-! ## Texts -/

/-- A character has a first unit. -/
theorem exists_charUnits_append (c : Char) (us : List Nat) :
    ∃ v vs, charUnits c ++ us = v :: vs := by
  rw [charUnits]
  split
  · exact ⟨_, _, rfl⟩
  · exact ⟨_, _, rfl⟩

theorem compareUnits_flatMap (cs ds : List Char) :
    compareUnits (cs.flatMap charUnits) (ds.flatMap charUnits) =
      List.compareLex compareRank cs ds := by
  induction cs generalizing ds with
  | nil =>
    cases ds with
    | nil => rfl
    | cons d ds =>
      obtain ⟨v, vs, hd⟩ := exists_charUnits_append d (ds.flatMap charUnits)
      rw [List.flatMap_cons, hd]
      rfl
  | cons c cs ih =>
    cases ds with
    | nil =>
      obtain ⟨v, vs, hc⟩ := exists_charUnits_append c (cs.flatMap charUnits)
      rw [List.flatMap_cons, hc]
      rfl
    | cons d ds =>
      rw [List.flatMap_cons, List.flatMap_cons, List.compareLex_cons_cons]
      by_cases hcd : c = d
      · have hself : compareRank c d = .eq := Std.LawfulEqCmp.compare_eq_iff_eq.mpr hcd
        rw [hself, hcd, compareUnits_append]
        exact ih ds
      · rw [compareUnits_charUnits hcd]
        cases hrank : compareRank c d with
        | lt => rfl
        | eq => exact absurd (Std.LawfulEqCmp.eq_of_compare hrank) hcd
        | gt => rfl

/-- **The order of texts is that of their characters**, the first difference deciding. -/
theorem compareText_eq_compareLex (s t : String) :
    compareText s t = List.compareLex compareRank s.toList t.toList :=
  compareUnits_flatMap s.toList t.toList

/-- What two texts have in common at their start does not matter. -/
theorem compareText_append {s t : String} {p cs ds : List Char} (hs : s.toList = p ++ cs)
    (ht : t.toList = p ++ ds) :
    compareText s t = compareUnits (cs.flatMap charUnits) (ds.flatMap charUnits) := by
  rw [compareText, units, units, hs, ht, List.flatMap_append, List.flatMap_append,
    compareUnits_append]

/-- **Texts are ordered** by their first different characters, as these rank, and a text stands
before those that it begins. Only equal texts compare as equal, comparing the other way round
gives the reverse, and what is less than something less is less. -/
theorem texts_ordered_by_rank (s t u : String) :
    (compareText s t = .eq ↔ s = t) ∧
    compareText t s = (compareText s t).swap ∧
    (compareText s t = .lt → compareText t u = .lt → compareText s u = .lt) ∧
    (s.toList <+: t.toList → s ≠ t → compareText s t = .lt) ∧
    ∀ p x y cs ds, s.toList = p ++ x :: cs → t.toList = p ++ y :: ds → x ≠ y →
      compareText s t = compareRank x y := by
  refine ⟨?_, compareUnits_swap _ _, ?_, ?_, ?_⟩
  · rw [compareText_eq_compareLex, Std.LawfulEqCmp.compare_eq_iff_eq, String.toList_inj]
  · simp only [compareText_eq_compareLex]
    exact Std.TransCmp.lt_trans
  · rintro ⟨rest, hrest⟩ hne
    cases rest with
    | nil =>
      rw [List.append_nil, String.toList_inj] at hrest
      exact absurd hrest hne
    | cons c cs =>
      obtain ⟨v, vs, hc⟩ := exists_charUnits_append c (cs.flatMap charUnits)
      rw [compareText_append (List.append_nil _).symm hrest.symm, List.flatMap_cons, hc]
      rfl
  · intro p x y cs ds hs ht hne
    rw [compareText_append hs ht, List.flatMap_cons, List.flatMap_cons, compareUnits_charUnits hne]

/-- Two characters of two units have the first one in common, and the last character of one unit
ranks above both. -/
theorem texts_ordered_by_rank_surrogates :
    compareText "a𐀀" "a𐀁b" = .lt ∧ compareText "a𐀁b" "a\uFFFF" = .lt ∧
      compareText "a𐀀" "a\uFFFF" = .lt ∧ compareText "a" "a𐀀" = .lt := by
  obtain ⟨-, -, htrans, -, hpair⟩ := texts_ordered_by_rank "a𐀀" "a𐀁b" "a\uFFFF"
  obtain ⟨-, -, -, -, hlast⟩ := texts_ordered_by_rank "a𐀁b" "a\uFFFF" ""
  obtain ⟨-, -, -, hbegins, -⟩ := texts_ordered_by_rank "a" "a𐀀" ""
  have hlow : compareText "a𐀀" "a𐀁b" = .lt :=
    (hpair ['a'] '𐀀' '𐀁' [] ['b'] rfl rfl (by decide)).trans (by decide)
  have hhigh : compareText "a𐀁b" "a\uFFFF" = .lt :=
    (hlast ['a'] '𐀁' '\uFFFF' ['b'] [] rfl rfl (by decide)).trans (by decide)
  exact ⟨hlow, hhigh, htrans hlow hhigh, hbegins ⟨['𐀀'], rfl⟩ (by decide)⟩

end Ecma.Text
