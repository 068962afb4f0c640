import Magm.Table.Cells
import Mathlib.Data.Rat.Defs
import Mathlib.Algebra.Order.Field.Rat
import Mathlib.Algebra.Order.Group.Unbundled.Abs

/-! # The scores of the offline planner

The rows of `thread_predictions.csv`, and the two functions of `offline_magm_scheduler.py` that
look at their predicted features: `complementarity_score` of two rows and `predicted_intensity` of
one. Feature values and weights are exact rationals. -/

namespace Magm.Planner.Score

open Magm.Table.Cells

/-- The normalised features. -/
inductive Feature
  | IPC | MPKI_LLC | MPKI_L1I | MPKI_L1D | MPKI_L2 | BrMPKI | MPKI_TLB
  deriving DecidableEq

open Feature

/-- `FEATURE_COLS`. -/
def featureCols : List Feature := [IPC, MPKI_LLC, MPKI_L1I, MPKI_L1D, MPKI_L2, BrMPKI, MPKI_TLB]

/-- `DIFF_WEIGHTS`. -/
def diffWeights : Feature → ℚ
  | IPC => 2
  | MPKI_L1I => 1
  | MPKI_L1D => 1
  | MPKI_L2 => 0
  | MPKI_LLC => 0
  | BrMPKI => 1
  | MPKI_TLB => 0

/-- `SUM_WEIGHTS`. -/
def sumWeights : Feature → ℚ
  | IPC => 1
  | MPKI_L1I => 2
  | MPKI_L1D => 1
  | MPKI_L2 => 2
  | MPKI_LLC => 3
  | BrMPKI => 2
  | MPKI_TLB => 3

/-- A row of the prediction table; `pred f` is the column `pred_<f>_norm`. -/
structure Row where
  loadType : Cell
  threadKey : Cell
  thread : Cell
  pid : ℤ
  windowId : ℤ
  pred : Feature → ℚ

def complementarityScore (a b : Row) (theta : ℚ) : ℚ :=
  featureCols.foldl (fun score feature =>
    let av := a.pred feature
    let bv := b.pred feature
    let diff := |av - bv|
    let total := (av + bv) / 2
    score + diffWeights feature * diff - sumWeights feature * max 0 (total - theta)) 0

def predictedIntensity (row : Row) : ℚ :=
  let sFe := 3 / 4 * row.pred BrMPKI + 1 / 4 * row.pred MPKI_L1I
  let sCore := 4 / 5 * row.pred IPC + 1 / 5 * (1 - row.pred MPKI_LLC)
  let sMem := 4 / 5 * row.pred MPKI_LLC + 1 / 5 * row.pred MPKI_TLB
  max (max sFe sCore) sMem

/-- The score does not depend on which of the two rows comes first. -/
theorem complementarityScore_comm (a b : Row) (theta : ℚ) :
    complementarityScore a b theta = complementarityScore b a theta := by
  unfold complementarityScore
  congr 1
  funext score feature
  simp only [abs_sub_comm (a.pred feature), add_comm (a.pred feature)]

end Magm.Planner.Score
