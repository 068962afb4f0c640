import Magm.Planner.Placement

/-! # The plan does not depend on the order of the rows

Rows of different intensity are sorted into one order only, so a window's schedule is a function of
the set of its rows (`scheduleWindow_eq_of_perm`): the edges are enumerated by intensity rank, and a
tie between two pair scores is broken by these ranks. The same holds of the whole prediction table
(`scheduleAll_eq_of_perm`). -/

namespace Magm.Planner.RowOrder

open Magm.Lib.Sorting Magm.Lib.GroupBy Magm.Planner.Score Magm.Planner.Schedule
open Magm.Planner.Placement

/-- `sort_values` leaves no choice where the intensities differ. -/
theorem run_eq_of_perm (sortValues sortValues' : IntensitySort) {subdf subdf' : List Row}
    (hp : subdf.Perm subdf') (hi : (subdf.map predictedIntensity).Nodup) :
    sortValues.run subdf = sortValues'.run subdf' :=
  sortValues.run_eq_of_perm sortValues' hp fun _ ha _ hb h h' =>
    List.inj_on_of_nodup_map hi ha hb (le_antisymm h' h)

/-- The schedule is a function of the sorted rows. -/
theorem scheduleWindow_congr {sortValues sortValues' : IntensitySort} {subdf subdf' : List Row}
    (h : sortValues.run subdf = sortValues'.run subdf') (physicalCores : ℕ) (theta : ℚ)
    (topK : ℕ) : scheduleWindow sortValues subdf physicalCores theta topK =
      scheduleWindow sortValues' subdf' physicalCores theta topK := by
  unfold scheduleWindow
  rw [h]

/-- **The schedule of a window does not depend on the order of its rows.** -/
theorem scheduleWindow_eq_of_perm (sortValues sortValues' : IntensitySort)
    (subdf subdf' : List Row) (hp : subdf.Perm subdf')
    (hi : (subdf.map predictedIntensity).Nodup) (physicalCores : ℕ) (theta : ℚ) (topK : ℕ) :
    scheduleWindow sortValues subdf physicalCores theta topK =
      scheduleWindow sortValues' subdf' physicalCores theta topK :=
  scheduleWindow_congr (run_eq_of_perm sortValues sortValues' hp hi) physicalCores theta topK

theorem scheduleWindow_eq_of_perm_threeRows :
    scheduleWindow intensitySort threeRows 1 (3 / 5) 32 =
      scheduleWindow intensitySort threeRows.reverse 1 (3 / 5) 32 :=
  scheduleWindow_eq_of_perm intensitySort intensitySort threeRows threeRows.reverse
    threeRows.reverse_perm.symm (by decide +kernel) 1 (3 / 5) 32

/-- The same for the decisions and summaries of all windows. -/
theorem scheduleAll_eq_of_perm (sortValues sortValues' : IntensitySort) (df df' : List Row)
    (hp : df.Perm df')
    (hi : ∀ k, ((rowsOf windowKey df k).map predictedIntensity).Nodup) (physicalCores : ℕ)
    (theta : ℚ) (topK : ℕ) : scheduleAll sortValues df physicalCores theta topK =
      scheduleAll sortValues' df' physicalCores theta topK := by
  have hw : ∀ k, scheduleWindow sortValues (rowsOf windowKey df k) physicalCores theta topK =
      scheduleWindow sortValues' (rowsOf windowKey df' k) physicalCores theta topK := fun k =>
    scheduleWindow_congr (run_eq_of_perm sortValues sortValues' (hp.filter _) (hi k)) _ _ _
  unfold scheduleAll groupBy
  simp only [List.map_map, Function.comp_def, hw, groupKeys_eq_of_perm hp]

end Magm.Planner.RowOrder
