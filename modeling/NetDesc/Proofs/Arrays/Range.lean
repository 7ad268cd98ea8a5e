import NetDesc.Evaluator

namespace NetDesc

namespace Index

variable {x y d : Int64}

/-- What lies beyond the integers is taken for the nearest one. -/
theorem toInt_ofIntClamp_eq (i : Int) :
    (Int64.ofIntClamp i).toInt = max Int64.minValue.toInt (min i Int64.maxValue.toInt) := by
  have hbounds : Int64.minValue.toInt ≤ Int64.maxValue.toInt := by decide
  unfold Int64.ofIntClamp
  split
  · split
    · rw [Int64.toInt_ofIntLE]
      omega
    · omega
  · omega

/-- A difference is given iff there is an integer for it. -/
theorem checkedSub?_eq_some_iff : checkedSub? x y = some d ↔ d.toInt = x.toInt - y.toInt := by
  have hleast : Int64.minValue.toInt = -2 ^ 63 := rfl
  have hgreatest : Int64.maxValue.toInt = 2 ^ 63 - 1 := rfl
  have hd := d.le_toInt
  have hd' := d.toInt_le
  unfold checkedSub?
  dsimp only
  split
  · next hfits =>
    have hsub : (x - y).toInt = x.toInt - y.toInt := by
      rw [Int64.toInt_sub]
      exact Int.bmod_eq_of_le_mul_two (by omega) (by omega)
    rw [Option.some.injEq, ← Int64.toInt_inj, hsub, eq_comm]
  · next hnot =>
    refine ⟨nofun, fun h => ?_⟩
    omega

end Index

namespace LazyArray

/-- The index of the last element, were there no bounds to indices. -/
def lastIndex (a : LazyArray) : Int :=
  a.first.toInt + a.size - 1

/-- An array whose elements can all be reached: there is an index for the last of them, or for
    the place before the first one if there is none, and there are no more than can be counted. -/
structure Indexed (a : LazyArray) : Prop where
  size_le : (a.size : Int) ≤ Int64.maxValue.toInt
  least_le : Int64.minValue.toInt ≤ a.lastIndex
  le_greatest : a.lastIndex ≤ Int64.maxValue.toInt

variable {a : LazyArray} {index : Int64}

/-- An element is found by its distance from the first one, if there is an integer for it. The
    difference is given up where it would leave the integers. -/
theorem cellAt?_of_le (hfirst : a.first ≤ index)
    (hfits : index.toInt - a.first.toInt ≤ Int64.maxValue.toInt) :
    a.cellAt? index = a.cells[(index.toInt - a.first.toInt).toNat]? := by
  have hle := Int64.le_iff_toInt_le.1 hfirst
  have hleast : Int64.minValue.toInt ≤ 0 := by decide
  have hzero : (0 : Int64).toInt = 0 := rfl
  have hoffset := Int64.toInt_ofIntClamp (x := index.toInt - a.first.toInt) (by omega) hfits
  have hpos : 0 ≤ Int64.ofIntClamp (index.toInt - a.first.toInt) := by
    rw [Int64.le_iff_toInt_le, hoffset, hzero]
    omega
  rw [cellAt?, Index.checkedSub?_eq_some_iff.2 hoffset]
  simp only [hpos, if_true, hoffset]

theorem cellAt?_of_lt (hfirst : index < a.first) : a.cellAt? index = none := by
  have hlt := Int64.lt_iff_toInt_lt.1 hfirst
  unfold cellAt?
  split
  · next offset h =>
    have hoffset := Index.checkedSub?_eq_some_iff.1 h
    refine if_neg fun hpos => ?_
    have hzero : (0 : Int64).toInt = 0 := rfl
    rw [Int64.le_iff_toInt_le] at hpos
    omega
  · rfl

theorem cellAt?_of_lastIndex_lt (hlast : a.lastIndex < index.toInt) : a.cellAt? index = none := by
  unfold cellAt?
  split
  · next offset h =>
    have hoffset := Index.checkedSub?_eq_some_iff.1 h
    split
    · refine Array.getElem?_eq_none ?_
      unfold lastIndex size at hlast
      omega
    · rfl
  · rfl

namespace Indexed

variable (ha : a.Indexed)

include ha

/-- The last index is computed in machine integers that keep to their bounds. The sum of the
    first index and the size is computed before one is taken from it, so there has to be an
    integer for it, too. -/
theorem toInt_last : a.last.toInt = min a.lastIndex (Int64.maxValue.toInt - 1) := by
  have hbounds : Int64.minValue.toInt < Int64.maxValue.toInt := by decide
  have hone : (1 : Int64).toInt = 1 := rfl
  have hleast := ha.least_le
  have hfirst := a.first.minValue_le_toInt
  have hsize : (Int64.ofIntClamp a.size).toInt = a.size :=
    Int64.toInt_ofIntClamp (Int.le_trans (by decide) (Int.natCast_nonneg _)) ha.size_le
  rw [last, Index.saturatingSub, Index.toInt_ofIntClamp_eq, Index.saturatingAdd,
    Index.toInt_ofIntClamp_eq, hsize, hone]
  unfold lastIndex at *
  omega

theorem exists_cell (hfirst : a.first ≤ index) (hlast : index.toInt ≤ a.lastIndex) :
    ∃ c, a.cells[(index.toInt - a.first.toInt).toNat]? = some c ∧ a.cellAt? index = some c := by
  have hle := Int64.le_iff_toInt_le.1 hfirst
  have hsize := ha.size_le
  unfold lastIndex LazyArray.size at *
  obtain ⟨c, hc⟩ : ∃ c, a.cells[(index.toInt - a.first.toInt).toNat]? = some c :=
    ⟨_, Array.getElem?_eq_getElem (by omega)⟩
  exact ⟨c, hc, (cellAt?_of_le hfirst (by omega)).trans hc⟩

end Indexed

/-- An array gives the element at an index iff the index lies between the first one and the last,
    namely the one at this distance from the first; at any other index it fails and names its
    range. The last index that it names is the true one unless that is the greatest integer, for
    which it takes the integer before. -/
theorem elementAt_ranges (ha : a.Indexed) :
    (a.last.toInt =
      if a.lastIndex = Int64.maxValue.toInt then a.lastIndex - 1 else a.lastIndex) ∧
    ∀ (index : Int64) (location : Location),
      (a.first.toInt ≤ index.toInt ∧ index.toInt ≤ a.lastIndex ∧
        ∃ c, a.cells[(index.toInt - a.first.toInt).toNat]? = some c ∧
          Evaluator.elementAt a index location = Program.force c) ∨
      (¬ (a.first.toInt ≤ index.toInt ∧ index.toInt ≤ a.lastIndex) ∧
        Evaluator.elementAt a index location =
          .raise { cause := .indexOutOfBounds index a.first a.last, location }) := by
  have hgreatest := ha.le_greatest
  refine ⟨?_, fun index location => ?_⟩
  · rw [ha.toInt_last]
    split <;> omega
  by_cases hrange : a.first.toInt ≤ index.toInt ∧ index.toInt ≤ a.lastIndex
  · obtain ⟨hfirst, hlast⟩ := hrange
    obtain ⟨c, hc, hcell⟩ := ha.exists_cell (Int64.le_iff_toInt_le.2 hfirst) hlast
    refine .inl ⟨hfirst, hlast, c, hc, ?_⟩
    simp only [Evaluator.elementAt, hcell]
  · have hnone : a.cellAt? index = none := by
      by_cases hfirst : a.first.toInt ≤ index.toInt
      · exact cellAt?_of_lastIndex_lt (by omega)
      · exact cellAt?_of_lt (Int64.lt_iff_toInt_lt.2 (by omega))
    refine .inr ⟨hrange, ?_⟩
    simp only [Evaluator.elementAt, hnone]

/-- At the lower end of the integers the range is right. -/
theorem elementAt_ranges_least :
    ({ first := Int64.minValue, cells := #[4, 7] } : LazyArray).last = Int64.minValue + 1 ∧
    Evaluator.elementAt { first := Int64.minValue, cells := #[4, 7] } (Int64.minValue + 1)
      .unknown = Program.force 7 := by
  have ha : ({ first := Int64.minValue, cells := #[4, 7] } : LazyArray).Indexed :=
    ⟨by decide, by decide, by decide⟩
  obtain ⟨hlast, hat⟩ := elementAt_ranges ha
  refine ⟨Int64.toInt_inj.1 (hlast.trans (by decide)), ?_⟩
  obtain ⟨-, -, c, hc, hforce⟩ | ⟨hrange, -⟩ := hat (Int64.minValue + 1) .unknown
  · cases hc
    exact hforce
  · exact absurd (by decide) hrange

/-- An array of one element at the greatest integer gives this element and says that it ends
    before. -/
theorem last_before_greatest :
    ({ first := Int64.maxValue, cells := #[0] } : LazyArray).Indexed ∧
    ({ first := Int64.maxValue, cells := #[0] } : LazyArray).lastIndex = Int64.maxValue.toInt ∧
    ({ first := Int64.maxValue, cells := #[0] } : LazyArray).last ≠ Int64.maxValue ∧
    Evaluator.elementAt { first := Int64.maxValue, cells := #[0] } Int64.maxValue .unknown =
      Program.force 0 :=
  ⟨⟨by decide, by decide, by decide⟩, by decide, by decide, rfl⟩

end LazyArray

end NetDesc
