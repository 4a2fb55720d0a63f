import SeaSearch.Base62

/-!
# A page of the list of indexes

`GetStartEndIndex` multiplies two numbers of the request, and `List` takes the slice between the
results if the second one is positive.
-/

namespace SeaSearch

open Base62

structure Page where
  pageNum : Int
  pageSize : Int
  total : Int

namespace Page

def getStartEndIndex (e : Page) : Int × Int :=
  if e.pageSize = 0 then (0, e.total)
  else
    let startIndex := wrap (wrap (e.pageNum - 1) * e.pageSize)
    let endIndex := wrap (e.pageNum * e.pageSize)
    if e.total < endIndex then (wrap (e.total - e.total.tmod e.pageSize), e.total)
    else (startIndex, endIndex)

/-- The slice expression of `List` does not panic. -/
def Safe (e : Page) : Prop :=
  e.getStartEndIndex.2 ≤ 0 ∨ 0 ≤ e.getStartEndIndex.1 ∧
    e.getStartEndIndex.1 ≤ e.getStartEndIndex.2 ∧ e.getStartEndIndex.2 ≤ e.total

/-- The products wrap around so that the end is in the list, and the start is before the list or
behind the end. -/
def Wrapped (e : Page) : Prop :=
  e.pageSize ≠ 0 ∧ 0 < wrap (e.pageNum * e.pageSize) ∧ wrap (e.pageNum * e.pageSize) ≤ e.total ∧
    (wrap ((e.pageNum - 1) * e.pageSize) < 0 ∨
      wrap (e.pageNum * e.pageSize) < wrap ((e.pageNum - 1) * e.pageSize))

/-- The slice has those entries of the list whose page it is. -/
def Shows (e : Page) : Prop :=
  ∀ i, 0 ≤ i → i < e.total →
    (e.getStartEndIndex.1 ≤ i ∧ i < e.getStartEndIndex.2 ↔ e.pageNum = i / e.pageSize + 1)

/-- The numbers are `int64` numbers, and `NewPage` has made the page number positive. -/
structure Requested (e : Page) : Prop where
  pageNum : 1 ≤ e.pageNum ∧ e.pageNum < 2 ^ 63
  pageSize : -2 ^ 63 ≤ e.pageSize ∧ e.pageSize < 2 ^ 63
  total : 0 ≤ e.total ∧ e.total < 2 ^ 63

theorem tmod_le {a : Int} (ha : 0 ≤ a) (b : Int) : 0 ≤ a.tmod b ∧ a.tmod b ≤ a := by
  obtain ⟨n, rfl⟩ := Int.eq_ofNat_of_zero_le ha
  cases b with
  | ofNat m => exact ⟨Int.natCast_nonneg _, Int.ofNat_le.2 (Nat.mod_le n m)⟩
  | negSucc m => exact ⟨Int.natCast_nonneg _, Int.ofNat_le.2 (Nat.mod_le n (m + 1))⟩

variable {e : Page} (h : e.Requested)

include h

theorem Requested.getStartEndIndex_eq (hsize : e.pageSize ≠ 0) :
    e.getStartEndIndex =
      if e.total < wrap (e.pageNum * e.pageSize) then (e.total - e.total.tmod e.pageSize, e.total)
      else (wrap ((e.pageNum - 1) * e.pageSize), wrap (e.pageNum * e.pageSize)) := by
  obtain ⟨hnum, -, htotal⟩ := h
  have hmod := tmod_le htotal.1 e.pageSize
  rw [getStartEndIndex, if_neg hsize, wrap_eq (x := e.pageNum - 1) (by omega) (by omega),
    wrap_eq (x := e.total - e.total.tmod e.pageSize) (by omega) (by omega)]

theorem Requested.safe_iff : e.Safe ↔ ¬ e.Wrapped := by
  have htotal := h.total.1
  rw [Safe, Wrapped]
  by_cases hsize : e.pageSize = 0
  · simp [getStartEndIndex, hsize, htotal]
  · have hmod := tmod_le htotal e.pageSize
    rw [h.getStartEndIndex_eq hsize]
    split
    all_goals omega

section Inside

variable (hsize : 0 < e.pageSize) (hlast : (e.pageNum - 1) * e.pageSize ≤ e.total)

include hsize hlast

theorem Requested.start_bounds : 0 ≤ (e.pageNum - 1) * e.pageSize ∧
    e.pageNum * e.pageSize = (e.pageNum - 1) * e.pageSize + e.pageSize ∧
    wrap ((e.pageNum - 1) * e.pageSize) = (e.pageNum - 1) * e.pageSize := by
  have hstart := Int.mul_nonneg (Int.sub_nonneg.2 h.pageNum.1) hsize.le
  have htotal := h.total.2
  exact ⟨hstart, by rw [sub_one_mul, sub_add_cancel], wrap_eq (by omega) (by omega)⟩

omit h hlast in
theorem page_iff (i : Int) : e.pageNum = i / e.pageSize + 1 ↔
    (e.pageNum - 1) * e.pageSize ≤ i ∧ i < (e.pageNum - 1) * e.pageSize + e.pageSize := by
  rw [eq_comm, ← eq_sub_iff_add_eq, Int.ediv_eq_iff_of_pos hsize]

theorem Requested.shows (hfits : e.pageNum * e.pageSize < 2 ^ 63) : e.Shows := by
  obtain ⟨hstart, hnext, hwrap⟩ := h.start_bounds hsize hlast
  intro i hi hlt
  rw [h.getStartEndIndex_eq hsize.ne', page_iff hsize, hwrap, wrap_eq (by omega) hfits]
  split
  case isTrue hend =>
    -- the last page starts where the whole pages end
    have hmod := Int.ediv_mul_add_emod e.total e.pageSize
    rw [eq_sub_of_add_eq ((page_iff hsize e.total).2 (by omega)).symm] at hmod
    rw [Int.tmod_eq_emod_of_nonneg h.total.1]
    omega
  case isFalse hend => omega

/-- The slice of a page whose end does not fit is empty. -/
theorem Requested.shows_beyond (hbeyond : 2 ^ 63 ≤ e.pageNum * e.pageSize) :
    e.Shows ↔ (e.pageNum - 1) * e.pageSize = e.total := by
  obtain ⟨hstart, hnext, hwrap⟩ := h.start_bounds hsize hlast
  have htotal := h.total
  have hbound := h.pageSize.2
  have hend : wrap (e.pageNum * e.pageSize) = e.pageNum * e.pageSize - 2 ^ 64 := by
    rw [← wrap_eq (x := e.pageNum * e.pageSize - 2 ^ 64) (by omega) (by omega)]
    exact (Int.sub_bmod_right ..).symm
  rw [Shows, h.getStartEndIndex_eq hsize.ne', hend, hwrap, if_neg (by omega)]
  constructor
  · intro hshows
    by_contra hne
    have hfirst := (hshows _ hstart (by omega)).2 ((page_iff hsize _).2 (by omega))
    omega
  · intro hempty i hi hlt
    rw [page_iff hsize]
    omega

end Inside

end SeaSearch.Page
