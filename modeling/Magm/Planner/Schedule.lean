import Magm.Lib.Greedy
import Magm.Lib.GroupBy
import Magm.Lib.Sorting
import Magm.Planner.Score
import Mathlib.Data.Prod.Lex
import Mathlib.Data.List.Lex
import Mathlib.Data.Char
import Mathlib.Algebra.Order.Ring.Int

/-! # The planner: `schedule_window`

`schedule_window` of `offline_magm_scheduler.py` gives the threads of one window their CPUs. With at
most as many threads as physical cores (mode `CE`) every thread gets the first sibling of a core of
its own. Otherwise (mode `SP`) the pairs of candidates with a score `≥ 0` are scanned from the best
score down, and each pair of threads that are both still free gets the two siblings of the next
core.

`sort_values` sorts by one column with an unstable sort, so it is a parameter: any sort that
is correct for descending intensity. `list.sort(reverse=True)` is stable, like the insertion sort
that stands for it. -/

namespace Magm.Planner.Schedule

open Magm.Lib.Chars Magm.Lib.Sorting Magm.Lib.Greedy Magm.Lib.GroupBy Magm.Table.Cells
open Magm.Planner.Score

def cpuForCore (coreIdx sibling : ℕ) : ℕ := coreIdx * 2 + sibling

inductive Mode
  | CE | SP
  deriving DecidableEq

/-- A decision of the planner; `pairedWith` is `none` for the empty text, `score` for `NaN`. -/
structure Decision where
  loadType : Cell
  windowId : ℤ
  mode : Mode
  threadKey : Cell
  thread : Cell
  pid : ℤ
  targetCpu : ℕ
  pairedWith : Option Cell
  score : Option ℚ
  rho : ℚ
  nRun : ℕ

structure Summary where
  mode : Mode
  rho : ℚ
  nRun : ℕ
  pairs : ℕ
  boundThreads : ℕ

/-- What `sort_values("intensity", ascending=False)` is known to be. -/
abbrev IntensitySort := Sorter fun a b : Row => predictedIntensity b ≤ predictedIntensity a

instance : Std.Total fun a b : Row => predictedIntensity b ≤ predictedIntensity a :=
  ⟨fun a b => le_total (predictedIntensity b) (predictedIntensity a)⟩
instance : IsTrans Row fun a b => predictedIntensity b ≤ predictedIntensity a :=
  ⟨fun _ _ _ h1 h2 => le_trans h2 h1⟩

/-- A sort it may be. -/
def intensitySort : IntensitySort := Sorter.insertion _

/-- The decision for `row` in mode `CE`. -/
def ceDecision (rho : ℚ) (nRun : ℕ) (row : Row) (coreIdx : ℕ) : Decision where
  loadType := row.loadType
  windowId := row.windowId
  mode := .CE
  threadKey := row.threadKey
  thread := row.thread
  pid := row.pid
  targetCpu := cpuForCore coreIdx 0
  pairedWith := none
  score := none
  rho := rho
  nRun := nRun

/-- The decision for `row` in mode `SP`, on sibling `sibling` next to `other`. -/
def spDecision (rho : ℚ) (nRun : ℕ) (score : ℚ) (row other : Row) (coreIdx sibling : ℕ) :
    Decision where
  loadType := row.loadType
  windowId := row.windowId
  mode := .SP
  threadKey := row.threadKey
  thread := row.thread
  pid := row.pid
  targetCpu := cpuForCore coreIdx sibling
  pairedWith := some other.threadKey
  score := some score
  rho := rho
  nRun := nRun

/-- An edge of the candidate graph. The source stores the positions of `a` and `b` and looks the
rows up again when it scans the edge. -/
structure Edge where
  score : ℚ
  a : Row
  b : Row

/-- The pairs `(i, j)` with `i < j`, in the order of the two nested loops. -/
def pairs {α : Type*} : List α → List (α × α)
  | [] => []
  | a :: l => l.map (fun b => (a, b)) ++ pairs l

/-- The edges with score `≥ 0`, in the order they are appended. -/
def rawEdges (candidates : List Row) (theta : ℚ) : List Edge :=
  (pairs candidates).filterMap fun p =>
    let score := complementarityScore p.1 p.2 theta
    if 0 ≤ score then some ⟨score, p.1, p.2⟩ else none

/-- The order of `edges.sort(reverse=True, key=...)`. -/
def EdgeGe (e f : Edge) : Prop := f.score ≤ e.score

instance : DecidableRel EdgeGe := fun e f => by unfold EdgeGe; infer_instance
instance : Std.Total EdgeGe := ⟨fun e f => le_total f.score e.score⟩
instance : IsTrans Edge EdgeGe := ⟨fun _ _ _ h1 h2 => le_trans h2 h1⟩

def edges (candidates : List Row) (theta : ℚ) : List Edge :=
  (rawEdges candidates theta).insertionSort EdgeGe

/-- The variables of the matching loop. -/
structure Scan where
  coreIdx : ℕ
  pairCount : ℕ
  usedThreads : List Cell
  decisions : List Decision

/-- The two decisions appended for an edge. -/
def pairDecisions (rho : ℚ) (nRun : ℕ) (e : Edge) (coreIdx : ℕ) : List Decision :=
  [spDecision rho nRun e.score e.a e.b coreIdx 0, spDecision rho nRun e.score e.b e.a coreIdx 1]

/-- The matching loop over the edges. -/
def scanEdges (physicalCores : ℕ) (rho : ℚ) (nRun : ℕ) : List Edge → Scan → Scan
  | [], s => s
  | e :: es, s =>
    if physicalCores ≤ s.coreIdx then s
    else if e.a.threadKey ∈ s.usedThreads ∨ e.b.threadKey ∈ s.usedThreads then
      scanEdges physicalCores rho nRun es s
    else scanEdges physicalCores rho nRun es
      { coreIdx := s.coreIdx + 1
        pairCount := s.pairCount + 1
        usedThreads := e.a.threadKey :: e.b.threadKey :: s.usedThreads
        decisions := s.decisions ++ pairDecisions rho nRun e s.coreIdx }

def scheduleWindow (sortValues : IntensitySort) (subdf : List Row) (physicalCores : ℕ) (theta : ℚ)
    (topK : ℕ) : List Decision × Summary :=
  let rows := sortValues.run subdf
  let nRun := rows.length
  let rho : ℚ := nRun / max physicalCores 1
  if rho ≤ 1 then
    let decisions := (rows.take physicalCores).zipIdx.map fun p => ceDecision rho nRun p.1 p.2
    (decisions, ⟨.CE, rho, nRun, 0, decisions.length⟩)
  else
    let candidates := rows.take (min topK rows.length)
    let s := scanEdges physicalCores rho nRun (edges candidates theta) ⟨0, 0, [], []⟩
    (s.decisions, ⟨.SP, rho, nRun, s.pairCount, s.decisions.length⟩)

/-! ### All windows -/

/-- The key of `groupby(["LoadType", "window_id"])`: a row without a load type has none. -/
def windowKey (r : Row) : Option (Text ×ₗ ℤ) := r.loadType.val.map fun t => toLex (t, r.windowId)

/-- The loop of `main`: the decisions of all windows, and the summary of each with its key. -/
def scheduleAll (sortValues : IntensitySort) (df : List Row) (physicalCores : ℕ) (theta : ℚ)
    (topK : ℕ) : List Decision × List (Summary × Text ×ₗ ℤ) :=
  let windows := (groupBy windowKey df).map fun g =>
    (scheduleWindow sortValues g.2 physicalCores theta topK, g.1)
  (windows.flatMap fun w => w.1.1, windows.map fun w => (w.1.2, w.2))

end Magm.Planner.Schedule
