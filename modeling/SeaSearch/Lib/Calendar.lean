import Mathlib

/-!
# Days of the Gregorian calendar

Days are counted from 1970-01-01, and the calendar is taken back before its introduction. The start
of a year or of a month is a day of that year or month, so it is its own start.
-/

namespace Calendar

open List

/-- The first day of a year: every fourth year has one day more, except for the centuries that are
not multiples of 400. -/
def firstDay (year : Int) : Int :=
  365 * (year - 1970) + ((year - 1) / 4 - (year - 1) / 100 + (year - 1) / 400 - 477)

/-- The year of a day, estimated by the mean length of a year. -/
def yearOf (day : Int) : Int :=
  let year := 1970 + 400 * day / 146097
  if day < firstDay year then year - 1
  else if day < firstDay (year + 1) then year
  else year + 1

/-- The first day of the year of a day. -/
def yearStart (day : Int) : Int := firstDay (yearOf day)

/-- The first days of the months as days of the year, the last month first. `leap` is 1 in a leap
year, and 0 in the others. -/
def months (leap : Int) : List Int :=
  [334, 304, 273, 243, 212, 181, 151, 120, 90, 59].map (· + leap) ++ [31, 0]

/-- The first day of the month of a day. -/
def monthStart (day : Int) : Int :=
  let leap := firstDay (yearOf day + 1) - yearStart day - 365
  yearStart day + ((months leap).find? (· ≤ day - yearStart day)).getD 0

theorem firstDay_lt (year : Int) : firstDay year < firstDay (year + 1) := by
  simp only [firstDay]
  omega

theorem firstDay_strictMono : StrictMono firstDay := strictMono_int_of_lt_succ firstDay_lt

/-- The estimate of `yearOf` is wrong by one year at most. -/
theorem estimate_bounds (day : Int) :
    firstDay (1970 + 400 * day / 146097 - 1) ≤ day ∧
      day < firstDay (1970 + 400 * day / 146097 + 1 + 1) := by
  simp only [firstDay]
  omega

theorem yearOf_bounds (day : Int) : yearStart day ≤ day ∧ day < firstDay (yearOf day + 1) := by
  have hestimate := estimate_bounds day
  unfold yearStart yearOf
  dsimp only
  split_ifs with hbefore hin
  · rw [sub_add_cancel]
    exact ⟨hestimate.1, hbefore⟩
  · exact ⟨not_lt.1 hbefore, hin⟩
  · exact ⟨not_lt.1 hin, hestimate.2⟩

theorem yearOf_eq {day year : Int} (hle : firstDay year ≤ day) (hlt : day < firstDay (year + 1)) :
    yearOf day = year := by
  obtain ⟨hle', hlt'⟩ := yearOf_bounds day
  have hbelow := firstDay_strictMono.lt_iff_lt.1 (hle.trans_lt hlt')
  have habove := firstDay_strictMono.lt_iff_lt.1 (hle'.trans_lt hlt)
  omega

theorem yearStart_yearStart (day : Int) : yearStart (yearStart day) = yearStart day :=
  congrArg firstDay (yearOf_eq le_rfl (firstDay_lt _))

theorem find_le_find {l : List Int} {d r : Int} (h : l.find? (· ≤ d) = some r) :
    l.find? (· ≤ r) = some r := by
  obtain ⟨hle, before, after, rfl, hbefore⟩ := find?_eq_some_iff_append.1 h
  refine find?_eq_some_iff_append.2 ⟨by simp, before, after, rfl, fun a ha => ?_⟩
  have hlt := hbefore a ha
  simp only [decide_eq_true_eq, Bool.not_eq_true', decide_eq_false_iff_not] at hle hlt ⊢
  omega

theorem months_nonneg {leap o : Int} (hleap : 0 ≤ leap) (ho : o ∈ months leap) : 0 ≤ o := by
  simp only [months, map_cons, map_nil, cons_append, nil_append, mem_cons, not_mem_nil,
    or_false] at ho
  omega

theorem monthStart_monthStart (day : Int) : monthStart (monthStart day) = monthStart day := by
  obtain ⟨hle, hlt⟩ := yearOf_bounds day
  obtain ⟨offset, hoffset⟩ : ∃ offset,
      (months (firstDay (yearOf day + 1) - yearStart day - 365)).find?
        (· ≤ day - yearStart day) = some offset := by
    refine Option.isSome_iff_exists.1 (find?_isSome.2 ⟨0, by simp [months], ?_⟩)
    exact decide_eq_true (Int.sub_nonneg.2 hle)
  have hstart : monthStart day = yearStart day + offset := by
    rw [monthStart, hoffset, Option.getD_some]
  have hupper : offset ≤ day - yearStart day := by simpa using find?_some hoffset
  have hleap : 0 ≤ firstDay (yearOf day + 1) - yearStart day - 365 := by
    simp only [yearStart, firstDay]
    omega
  have hlower := months_nonneg hleap (mem_of_find?_eq_some hoffset)
  have hyear : yearOf (monthStart day) = yearOf day := by
    refine yearOf_eq ?_ ?_
    · rw [hstart, ← yearStart]
      omega
    · omega
  have hsame : yearStart (monthStart day) = yearStart day := congrArg firstDay hyear
  conv_lhs => rw [monthStart, hyear, hsame, hstart, add_sub_cancel_left, find_le_find hoffset]
  rw [hstart, Option.getD_some]

end Calendar
