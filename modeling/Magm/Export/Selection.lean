import Magm.Planner.Windows

/-! # The exporter: `export_cpu_selection.py`

The exporter reads `magm_schedule.csv` back, takes every CPU number apart into core and sibling, and
writes three tables: the selection (one row per decision, sorted by address), the core pairs (one
row per used core of a window) and the final view (the newest window of each load type).

The schedule passes through a CSV file on the way (`readSchedule`): a text cell survives that as
`Cell.ofCsv_toCsv` says, and the empty `paired_with` of a `CE` decision comes back as missing. -/

namespace Magm.Export.Selection

open Magm.Lib.Chars Magm.Lib.Sorting Magm.Lib.GroupBy Magm.Table.Cells
open Magm.Planner.Schedule

/-- A row of `magm_schedule.csv` as `read_csv` yields it. -/
structure ScheduleRow where
  loadType : Cell
  windowId : ℤ
  mode : Mode
  threadKey : Cell
  thread : Cell
  pid : ℤ
  targetCpu : ℕ
  pairedWith : Cell
  score : Option ℚ
  rho : ℚ
  nRun : ℕ

/-- Writing a decision with `to_csv` and reading it with `read_csv`. -/
def readSchedule (d : Decision) : ScheduleRow where
  loadType := Cell.ofCsv d.loadType.toCsv
  windowId := d.windowId
  mode := d.mode
  threadKey := Cell.ofCsv d.threadKey.toCsv
  thread := Cell.ofCsv d.thread.toCsv
  pid := d.pid
  targetCpu := d.targetCpu
  pairedWith := Cell.ofCsv ((d.pairedWith.map Cell.toCsv).getD [])
  score := d.score
  rho := d.rho
  nRun := d.nRun

def threadLabel (thread : Cell) (pid : ℤ) : Text := thread.str ++ '(' :: (dec pid ++ [')'])

/-- A row of `final_cpu_selection.csv`. -/
structure SelectionRow where
  loadType : Cell
  windowId : ℤ
  mode : Mode
  physicalCore : ℕ
  smtSlot : ℕ
  targetCpu : ℕ
  selectedThread : Text
  threadKey : Cell
  pairedWith : Cell
  score : Option ℚ
  rho : ℚ
  nRun : ℕ

/-- The columns the exporter adds, and those it keeps. -/
def selectionRow (r : ScheduleRow) : SelectionRow where
  loadType := r.loadType
  windowId := r.windowId
  mode := r.mode
  physicalCore := r.targetCpu / 2
  smtSlot := r.targetCpu % 2
  targetCpu := r.targetCpu
  selectedThread := threadLabel r.thread r.pid
  threadKey := r.threadKey
  pairedWith := r.pairedWith
  score := r.score
  rho := r.rho
  nRun := r.nRun

/-- The columns `selection` is sorted by. -/
def selectionKey (r : SelectionRow) : WithTop Text ×ₗ ℤ ×ₗ ℕ ×ₗ ℕ :=
  toLex (r.loadType.sortKey, toLex (r.windowId, toLex (r.physicalCore, r.smtSlot)))

/-- The columns `core_pairs` is grouped by. -/
def coreKey (r : SelectionRow) : Option (Text ×ₗ ℤ ×ₗ ℕ) :=
  r.loadType.val.map fun t => toLex (t, toLex (r.windowId, r.physicalCore))

/-- A row of `final_core_pairs.csv`; an empty slot holds the empty text. -/
structure CorePair where
  loadType : Text
  windowId : ℤ
  mode : Mode
  physicalCore : ℕ
  cpuSlot0 : ℕ
  cpuSlot1 : ℕ
  slot0Thread : Text
  slot1Thread : Text
  score : Option ℚ
  rho : ℚ
  nRun : ℕ

/-- The thread shown for sibling `s`: that of the first row of the slot. -/
def slotThread (grp : List SelectionRow) (s : ℕ) : Text :=
  (((grp.filter fun r => r.smtSlot = s).head?).map SelectionRow.selectedThread).getD []

/-- The row for one group; `iloc[0]` fails on an empty group. -/
def corePair (k : Text ×ₗ ℤ ×ₗ ℕ) (grp : List SelectionRow) : Option CorePair :=
  grp.head?.map fun first =>
    { loadType := (ofLex k).1
      windowId := (ofLex (ofLex k).2).1
      mode := first.mode
      physicalCore := (ofLex (ofLex k).2).2
      cpuSlot0 := (ofLex (ofLex k).2).2 * 2
      cpuSlot1 := (ofLex (ofLex k).2).2 * 2 + 1
      slot0Thread := slotThread grp 0
      slot1Thread := slotThread grp 1
      score := (grp.filterMap SelectionRow.score).head?
      rho := first.rho
      nRun := first.nRun }

/-- `latest_keys`: the largest window of each load type. -/
def latestKeys (selection : List SelectionRow) : List (Text × ℤ) :=
  (groupBy (fun r => r.loadType.val) selection).filterMap fun g =>
    (g.2.map SelectionRow.windowId).max?.map fun w => (g.1, w)

/-- The inner merge of the selection with `latest_keys`. -/
def finalView (selection : List SelectionRow) : List SelectionRow :=
  selection.flatMap fun r =>
    ((latestKeys selection).filter fun k => r.loadType.val = some k.1 ∧ r.windowId = k.2).map
      fun _ => r

/-- The tables the exporter writes. -/
structure Tables where
  selection : List SelectionRow
  corePairs : List CorePair
  finalView : List SelectionRow

/-- `main` of the exporter. The CSV file of an empty schedule has no columns, which raises. -/
def exportCpuSelection (schedule : List Decision) : Option Tables :=
  if schedule.isEmpty then none
  else
    let df := schedule.map readSchedule
    let selection := sortBy selectionKey (df.map selectionRow)
    ((groupBy coreKey selection).mapM fun g => corePair g.1 g.2).map fun corePairs =>
      ⟨selection, corePairs, finalView selection⟩

/-! ### The rows of the selection -/

/-- The row of a decision: its columns, and the CPU taken apart. -/
def shown (d : Decision) : SelectionRow where
  loadType := d.loadType
  windowId := d.windowId
  mode := d.mode
  physicalCore := d.targetCpu / 2
  smtSlot := d.targetCpu % 2
  targetCpu := d.targetCpu
  selectedThread := threadLabel d.thread d.pid
  threadKey := d.threadKey
  pairedWith := d.pairedWith.getD Cell.missing
  score := d.score
  rho := d.rho
  nRun := d.nRun

/-- **Nothing is lost on the way through the file.** -/
theorem selectionRow_readSchedule (d : Decision) : selectionRow (readSchedule d) = shown d := by
  have hp : Cell.ofCsv ((d.pairedWith.map Cell.toCsv).getD []) =
      d.pairedWith.getD Cell.missing := by
    cases d.pairedWith with
    | none => exact Cell.ofCsv_of_mem Cell.nil_mem_missingTokens
    | some c => exact Cell.ofCsv_toCsv c
  simp [selectionRow, readSchedule, shown, hp]

/-- The selection of a schedule. -/
def selectionOf (schedule : List Decision) : List SelectionRow :=
  sortBy selectionKey (schedule.map shown)

theorem mem_selectionOf {schedule : List Decision} {r : SelectionRow} :
    r ∈ selectionOf schedule ↔ ∃ d ∈ schedule, shown d = r := by
  simp [selectionOf]

/-- The row of a group, which is never empty. -/
theorem corePair_groupBy {selection : List SelectionRow} {g} (hg : g ∈ groupBy coreKey selection) :
    ∃ p, corePair g.1 g.2 = some p := by
  obtain ⟨r, l, hl⟩ := List.exists_cons_of_ne_nil (ne_nil_of_mem_groupBy hg)
  exact ⟨_, by rw [hl]; rfl⟩

theorem exists_map_eq {α β : Type*} {f : α → Option β} : ∀ {l : List α},
    (∀ a ∈ l, ∃ b, f a = some b) → ∃ l' : List β, l.map f = l'.map some
  | [], _ => ⟨[], rfl⟩
  | a :: l, h => by
    obtain ⟨b, hb⟩ := h a (by simp)
    obtain ⟨l', hf⟩ := exists_map_eq fun a ha => h a (List.mem_cons_of_mem _ ha)
    exact ⟨b :: l', by simp [hb, hf]⟩

/-- **The exporter finishes** on every schedule with a decision. -/
theorem exportCpuSelection_eq {schedule : List Decision} (h : schedule ≠ []) :
    ∃ corePairs, exportCpuSelection schedule =
        some ⟨selectionOf schedule, corePairs, finalView (selectionOf schedule)⟩ ∧
      (groupBy coreKey (selectionOf schedule)).map (fun g => corePair g.1 g.2) =
        corePairs.map some := by
  obtain ⟨ps, hf⟩ := exists_map_eq (l := groupBy coreKey (selectionOf schedule))
    (f := fun g => corePair g.1 g.2) fun g hg => corePair_groupBy hg
  have hps := mapM_eq_some_iff.mpr hf
  refine ⟨ps, ?_, hf⟩
  have hs : sortBy selectionKey ((schedule.map readSchedule).map selectionRow) =
      selectionOf schedule := by
    rw [selectionOf, List.map_map]
    congr 1
    exact List.map_congr_left fun d _ => selectionRow_readSchedule d
  simp only [exportCpuSelection, hs, hps, Option.map_some]
  rw [if_neg (by simpa using h)]

end Magm.Export.Selection
