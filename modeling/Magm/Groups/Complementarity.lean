import Magm.Table.Cells
import Mathlib.Algebra.BigOperators.Group.List.Lemmas
import Mathlib.Algebra.Order.Field.Basic
import Mathlib.Algebra.Order.Field.Rat
import Mathlib.Algebra.Order.BigOperators.Group.List
import Mathlib.Data.Finset.Dedup
import Mathlib.Data.Finset.Empty
import Mathlib.Tactic.Linarith

/-! # The complementarity of a group of threads

`compute_group_complementarity_norm` of `window_aggregation.py` (and of `compare_k.py` and
`compare_alpha_beta.py`, which repeat it) scores a group of threads of one window: the smaller the
ranges of its columns, the higher the score. A range only grows with the group, so the score only
falls (`groupScore_anti`). Threads and columns are of any type, values are exact rationals. -/

namespace Magm.Groups.Complementarity

open Magm.Table.Cells

/-- A row of `df_norm_all`: a thread of a window. -/
structure NormRow (τ κ : Type*) where
  thread : τ
  ipcMean : ℚ
  value : κ → ℚ

/-- `max() - min()` of a column; that of an empty column is `NaN`. -/
def spread (xs : List ℚ) : Option ℚ := do
  let hi ← xs.max?
  let lo ← xs.min?
  return hi - lo

section Score
variable {τ κ : Type*} [DecidableEq τ]

def computeGroupComplementarityNorm (dfWindow : List (NormRow τ κ)) (groupThreads : List τ)
    (resourceCols : List κ) (alpha beta : ℚ) : Option ℚ :=
  let dfSub := dfWindow.filter fun r => r.thread ∈ groupThreads
  if dfSub.length < groupThreads.length then some 0
  else do
    let overlaps ← resourceCols.mapM fun col => spread (dfSub.map fun r => r.value col)
    let ipcGap ← spread (dfSub.map NormRow.ipcMean)
    return 1 / (1 + alpha * overlaps.sum + beta * ipcGap)

end Score

/-! ### Ranges -/

/-- The range of a column that is not empty. -/
def width (xs : List ℚ) : ℚ := (spread xs).getD 0

/-- A range is the difference of two values that bound the others. -/
theorem exists_bounds {xs : List ℚ} (hne : xs ≠ []) : ∃ hi ∈ xs, ∃ lo ∈ xs,
    (∀ x ∈ xs, lo ≤ x ∧ x ≤ hi) ∧ spread xs = some (hi - lo) := by
  obtain ⟨hi, hhi⟩ := Option.ne_none_iff_exists'.mp (mt List.max?_eq_none_iff.mp hne)
  obtain ⟨lo, hlo⟩ := Option.ne_none_iff_exists'.mp (mt List.min?_eq_none_iff.mp hne)
  obtain ⟨hhi_mem, hhi_le⟩ := List.max?_eq_some_iff.mp hhi
  obtain ⟨hlo_mem, hlo_le⟩ := List.min?_eq_some_iff.mp hlo
  refine ⟨hi, hhi_mem, lo, hlo_mem, fun x hx => ⟨hlo_le x hx, hhi_le x hx⟩, ?_⟩
  rw [spread, hhi, hlo]
  rfl

theorem spread_eq {xs : List ℚ} (hne : xs ≠ []) : spread xs = some (width xs) := by
  obtain ⟨hi, -, lo, -, -, heq⟩ := exists_bounds hne
  rw [width, heq]
  rfl

theorem width_nonneg {xs : List ℚ} (hne : xs ≠ []) : 0 ≤ width xs := by
  obtain ⟨hi, hhi, lo, hlo, hall, heq⟩ := exists_bounds hne
  rw [width, heq, Option.getD_some, sub_nonneg]
  exact (hall hi hhi).1

/-- **A range grows with its column.** -/
theorem width_mono {xs ys : List ℚ} (hne : xs ≠ []) (hsub : xs ⊆ ys) : width xs ≤ width ys := by
  have hne' : ys ≠ [] := by
    obtain ⟨x, l, rfl⟩ := List.exists_cons_of_ne_nil hne
    exact List.ne_nil_of_mem (hsub List.mem_cons_self)
  obtain ⟨hi, hhi, lo, hlo, -, heq⟩ := exists_bounds hne
  obtain ⟨hi', -, lo', -, hall, heq'⟩ := exists_bounds hne'
  rw [width, width, heq, heq', Option.getD_some, Option.getD_some]
  have hup := (hall hi (hsub hhi)).2
  have hdown := (hall lo (hsub hlo)).1
  linarith

/-! ### The score of a set of threads -/

section GroupScore
variable {τ κ : Type*} [DecidableEq τ] (dfWindow : List (NormRow τ κ)) (resourceCols : List κ)
  (alpha beta : ℚ)

/-- The rows of a set of threads. -/
def rowsIn (S : Finset τ) : List (NormRow τ κ) := dfWindow.filter fun r => r.thread ∈ S

/-- The sum of the ranges of the resource columns. -/
def resourceOverlap (sub : List (NormRow τ κ)) : ℚ :=
  (resourceCols.map fun col => width (sub.map fun r => r.value col)).sum

/-- The score of a set of threads that are in the window. -/
def groupScore (S : Finset τ) : ℚ :=
  1 / (1 + alpha * resourceOverlap resourceCols (rowsIn dfWindow S) +
    beta * width ((rowsIn dfWindow S).map NormRow.ipcMean))

variable {dfWindow resourceCols alpha beta}

theorem rowsIn_ne_nil {S : Finset τ} (hS : S.Nonempty)
    (hin : S ⊆ (dfWindow.map NormRow.thread).toFinset) : rowsIn dfWindow S ≠ [] := by
  obtain ⟨t, ht⟩ := hS
  obtain ⟨r, hr, rfl⟩ := List.mem_map.mp (List.mem_toFinset.mp (hin ht))
  exact List.ne_nil_of_mem (List.mem_filter.mpr ⟨hr, by simpa using ht⟩)

/-- A group has a row for each of its threads. -/
theorem length_le_rows {groupThreads : List τ} (hn : groupThreads.Nodup)
    (hin : groupThreads ⊆ dfWindow.map NormRow.thread) :
    groupThreads.length ≤ (dfWindow.filter fun r => r.thread ∈ groupThreads).length := by
  have hsub : groupThreads ⊆
      (dfWindow.filter fun r => r.thread ∈ groupThreads).map NormRow.thread := by
    intro t ht
    obtain ⟨r, hr, rfl⟩ := List.mem_map.mp (hin ht)
    exact List.mem_map.mpr ⟨r, List.mem_filter.mpr ⟨hr, by simpa using ht⟩, rfl⟩
  have hlen := (hn.subperm hsub).length_le
  rwa [List.length_map] at hlen

/-- **The score of a group depends on the set of its threads only.** -/
theorem compute_eq {groupThreads : List τ} (hn : groupThreads.Nodup) (hne : groupThreads ≠ [])
    (hin : groupThreads ⊆ dfWindow.map NormRow.thread) :
    computeGroupComplementarityNorm dfWindow groupThreads resourceCols alpha beta =
      some (groupScore dfWindow resourceCols alpha beta groupThreads.toFinset) := by
  have hlen := length_le_rows hn hin
  have hpos : 0 < groupThreads.length := List.length_pos_of_ne_nil hne
  have hrows : dfWindow.filter (fun r => r.thread ∈ groupThreads) =
      rowsIn dfWindow groupThreads.toFinset := by
    unfold rowsIn
    exact List.filter_congr fun r _ => by rw [decide_eq_decide, List.mem_toFinset]
  have hsub : dfWindow.filter (fun r => r.thread ∈ groupThreads) ≠ [] := by
    intro hnil
    rw [hnil, List.length_nil] at hlen
    omega
  have hoverlaps : resourceCols.mapM (fun col => spread ((dfWindow.filter fun r =>
      r.thread ∈ groupThreads).map fun r => r.value col)) = some (resourceCols.map fun col =>
        width ((dfWindow.filter fun r => r.thread ∈ groupThreads).map fun r => r.value col)) := by
    rw [mapM_eq_some_iff, List.map_map]
    exact List.map_congr_left fun col _ => spread_eq (by simpa using hsub)
  have hgap : spread ((dfWindow.filter fun r => r.thread ∈ groupThreads).map NormRow.ipcMean) =
      some (width ((dfWindow.filter fun r => r.thread ∈ groupThreads).map NormRow.ipcMean)) :=
    spread_eq (by simpa using hsub)
  unfold computeGroupComplementarityNorm
  simp only
  rw [if_neg (by omega), hoverlaps, hgap, hrows]
  rfl

section Bounds
variable (halpha : 0 ≤ alpha) (hbeta : 0 ≤ beta)
include halpha hbeta

variable (resourceCols) in
omit [DecidableEq τ] in
theorem overlap_nonneg {sub : List (NormRow τ κ)} (hne : sub ≠ []) :
    0 ≤ alpha * resourceOverlap resourceCols sub + beta * width (sub.map NormRow.ipcMean) := by
  have hsum : 0 ≤ resourceOverlap resourceCols sub := by
    refine List.sum_nonneg fun x hx => ?_
    obtain ⟨col, -, rfl⟩ := List.mem_map.mp hx
    exact width_nonneg (by simpa using hne)
  have hgap : 0 ≤ width (sub.map NormRow.ipcMean) := width_nonneg (by simpa using hne)
  exact add_nonneg (mul_nonneg halpha hsum) (mul_nonneg hbeta hgap)

theorem groupScore_pos {S : Finset τ} (hS : S.Nonempty)
    (hin : S ⊆ (dfWindow.map NormRow.thread).toFinset) :
    0 < groupScore dfWindow resourceCols alpha beta S := by
  have hcost := overlap_nonneg resourceCols halpha hbeta (rowsIn_ne_nil hS hin)
  unfold groupScore
  exact div_pos one_pos (by linarith)

theorem groupScore_le_one {S : Finset τ} (hS : S.Nonempty)
    (hin : S ⊆ (dfWindow.map NormRow.thread).toFinset) :
    groupScore dfWindow resourceCols alpha beta S ≤ 1 := by
  have hcost := overlap_nonneg resourceCols halpha hbeta (rowsIn_ne_nil hS hin)
  unfold groupScore
  rw [div_le_one (by linarith)]
  linarith

/-- **More threads, no higher score.** -/
theorem groupScore_anti {S S' : Finset τ} (hS : S.Nonempty) (hsub : S ⊆ S')
    (hin : S' ⊆ (dfWindow.map NormRow.thread).toFinset) :
    groupScore dfWindow resourceCols alpha beta S' ≤
      groupScore dfWindow resourceCols alpha beta S := by
  have hne := rowsIn_ne_nil hS (hsub.trans hin)
  have hcost := overlap_nonneg resourceCols halpha hbeta hne
  have hrows : rowsIn dfWindow S ⊆ rowsIn dfWindow S' := by
    intro r hr
    rw [rowsIn, List.mem_filter, decide_eq_true_eq] at hr ⊢
    exact ⟨hr.1, hsub hr.2⟩
  have hoverlap : resourceOverlap resourceCols (rowsIn dfWindow S) ≤
      resourceOverlap resourceCols (rowsIn dfWindow S') := by
    refine List.sum_le_sum fun col _ => ?_
    exact width_mono (by simpa using hne) (List.map_subset _ hrows)
  have hgap : width ((rowsIn dfWindow S).map NormRow.ipcMean) ≤
      width ((rowsIn dfWindow S').map NormRow.ipcMean) :=
    width_mono (by simpa using hne) (List.map_subset _ hrows)
  have halpha' := mul_le_mul_of_nonneg_left hoverlap halpha
  have hbeta' := mul_le_mul_of_nonneg_left hgap hbeta
  unfold groupScore
  exact one_div_le_one_div_of_le (by linarith) (by linarith)

end Bounds

end GroupScore

end Magm.Groups.Complementarity
