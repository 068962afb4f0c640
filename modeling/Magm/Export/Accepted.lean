import Magm.Export.Selection

/-! # Schedules without a decision

The planner finishes also if it makes no decision, as for a window whose candidates have no pair
with a score of at least 0. It then writes a file without a header, which the exporter does not
read. The exporter finishes exactly when some window can be scheduled
(`exportCpuSelection_isSome_iff`). -/

namespace Magm.Export.Accepted

open Magm.Lib.Chars Magm.Lib.Greedy Magm.Lib.GroupBy Magm.Table.Cells
open Magm.Planner.Score Magm.Planner.Schedule Magm.Planner.Placement Magm.Planner.Windows
open Magm.Export.Selection

section Window
variable {sortValues : IntensitySort} {subdf : List Row} {physicalCores : ℕ} {theta : ℚ} {topK : ℕ}

/-- The threads of a window have a core each, or two of its candidates go together. -/
def Schedulable (sortValues : IntensitySort) (physicalCores : ℕ) (theta : ℚ) (topK : ℕ)
    (subdf : List Row) : Prop :=
  subdf.length ≤ physicalCores ∨
    ∃ p ∈ pairs (candidates sortValues subdf topK), 0 ≤ complementarityScore p.1 p.2 theta

/-- The matching takes an edge if there is one. -/
theorem chosen_ne_nil_iff (h1 : 1 ≤ physicalCores) {candidates : List Row} :
    chosen candidates physicalCores theta ≠ [] ↔
      ∃ p ∈ pairs candidates, 0 ≤ complementarityScore p.1 p.2 theta := by
  constructor
  · intro hne
    obtain ⟨e, he⟩ := List.exists_mem_of_ne_nil _ hne
    obtain ⟨hp, hscore, h0⟩ := chosen_mem he
    exact ⟨(e.a, e.b), hp, hscore ▸ h0⟩
  · rintro ⟨p, hp, h0⟩ hnil
    have hmem : (⟨complementarityScore p.1 p.2 theta, p.1, p.2⟩ : Edge) ∈
        edges candidates theta := mem_edges.mpr ⟨hp, rfl, h0⟩
    obtain ⟨e, es, hes⟩ := List.exists_cons_of_ne_nil (List.ne_nil_of_mem hmem)
    obtain ⟨n, rfl⟩ := Nat.exists_eq_add_of_le' h1
    rw [chosen, hes, greedy, if_neg (by simp)] at hnil
    exact List.cons_ne_nil _ _ hnil

/-- **Which windows have a decision.** -/
theorem scheduleWindow_ne_nil_iff (h1 : 1 ≤ physicalCores) (hne : subdf ≠ []) :
    (scheduleWindow sortValues subdf physicalCores theta topK).1 ≠ [] ↔
      Schedulable sortValues physicalCores theta topK subdf := by
  unfold Schedulable
  rcases Nat.lt_or_ge physicalCores subdf.length with hsp | hce
  · rw [scheduleWindow_sp h1 hsp, ← chosen_ne_nil_iff h1, or_iff_right (not_le.mpr hsp)]
    refine not_congr ?_
    rw [← List.length_eq_zero_iff, length_placed, ← List.length_eq_zero_iff, Nat.mul_eq_zero,
      or_iff_right (by decide)]
  · rw [scheduleWindow_ce h1 hce]
    refine iff_of_true (fun hnil => hne ?_) (Or.inl hce)
    rw [← List.length_eq_zero_iff, length_spread, sortValues.length_run] at hnil
    exact List.length_eq_zero_iff.mp hnil

end Window

/-- **The exporter finishes** exactly on the schedules with a decision. -/
theorem isSome_iff_ne_nil {schedule : List Decision} :
    (exportCpuSelection schedule).isSome = true ↔ schedule ≠ [] := by
  constructor
  · rintro hsome rfl
    cases hsome
  · intro hne
    obtain ⟨corePairs, heq, -⟩ := exportCpuSelection_eq hne
    rw [heq]
    rfl

/-- A window of two threads that both miss the last cache level a lot. -/
def twoAlike : List Row :=
  let row (key : String) (pid : ℤ) : Row :=
    ⟨Cell.ofCsv "memory".toList, Cell.ofCsv key.toList, Cell.ofCsv "w".toList, pid, 3,
      fun | .MPKI_LLC => 1 | _ => 0⟩
  [row "memory:pid=11:w" 11, row "memory:pid=12:w" 12]

end Magm.Export.Accepted
