import Magm.Export.PlanFile
import Magm.Lib.PyStr

/-! # The user-space executor: `apply_cpu_affinity.py`

The script reads `final_cpu_selection.csv` with `read_csv`, keeps the rows of a load type and of its
newest window (`chooseRows`), and binds the TID of every thread key to the CPU of its row. -/

namespace Magm.Apply.Affinity

open Magm.Lib.Chars Magm.Lib.Csv Magm.Lib.PyStr Magm.Lib.Sorting Magm.Table.Cells Magm.Table.Names
open Magm.Planner.Schedule Magm.Export.Selection Magm.Export.PlanFile

/-! ### Thread keys -/

/-- `parse_thread_key`. -/
def parseThreadKey (threadKey : Cell) : Option ℤ × Text :=
  match splitMax ':' 2 threadKey.str with
  | [_, part, name] =>
    if "pid=".toList <+: part then (pyInt (part.drop 4), name) else (none, [])
  | _ => (none, [])

/-- **A thread key is taken apart** into its pid and its name, whatever the name is. -/
theorem parseThreadKey_text {loadType : Text} (hcolon : ':' ∉ loadType) (pid : ℕ) (name : Text)
    {c : Cell} (h : c.val = some (threadKeyText loadType pid name)) :
    parseThreadKey c = (some (pid : ℤ), name) := by
  have hpid : ':' ∉ "pid=".toList ++ decNat pid := by
    intro hc
    rcases List.mem_append.mp hc with hc | hc
    · exact absurd hc (by decide)
    · exact absurd (isDigit_of_mem_decNat hc) (by decide)
  have hkey : threadKeyText loadType pid name =
      loadType ++ ':' :: (("pid=".toList ++ decNat pid) ++ ':' :: name) := by
    have hword : ":pid=".toList = ':' :: "pid=".toList := by decide
    rw [threadKeyText, dec_natCast, hword]
    simp only [List.append_assoc, List.cons_append]
  have hsplit : splitMax ':' 2 c.str = [loadType, "pid=".toList ++ decNat pid, name] := by
    rw [Cell.str, h, Option.getD_some, hkey, splitMax_append hcolon, splitMax_append hpid]
    rfl
  have hdrop : ("pid=".toList ++ decNat pid).drop 4 = decNat pid := rfl
  unfold parseThreadKey
  rw [hsplit]
  simp only
  rw [if_pos (List.prefix_append _ _), hdrop, pyInt_decNat]

theorem parseThreadKey_key (t : Thread) {c : Cell} (h : c.val = some t.key) :
    parseThreadKey c = (some (t.pid : ℤ), t.name.text) :=
  parseThreadKey_text (fun hc => t.scene.plain ':' hc (by decide)) t.pid t.name.text h

/-! ### The table -/

/-- The required columns of a row. -/
structure PlanEntry where
  loadType : Cell
  windowId : ℤ
  threadKey : Cell
  targetCpu : ℤ
  deriving DecidableEq

/-- A row of the file; `none` stands for a number that is none. -/
def planEntry (header row : List Text) : Option PlanEntry := do
  let loadType ← field header row "LoadType"
  let windowId ← (field header row "window_id").bind readDec
  let threadKey ← field header row "thread_key"
  let targetCpu ← (field header row "target_cpu").bind readDec
  return ⟨Cell.ofCsv loadType, windowId, Cell.ofCsv threadKey, targetCpu⟩

def required : List Text := ["LoadType", "window_id", "thread_key", "target_cpu"].map String.toList

/-- `read_csv(args.input)`, and the check of the columns. -/
def readSelection (s : Text) : Option (List PlanEntry) :=
  (readCsv s).bind fun t => if required ⊆ t.1 then t.2.mapM (planEntry t.1) else none

/-- What the script sees of a row of the selection. -/
def entryOf (r : SelectionRow) : PlanEntry := ⟨r.loadType, r.windowId, r.threadKey, r.targetCpu⟩

theorem planEntry_fields (num : FloatText) (r : SelectionRow) :
    planEntry selectionCols (selectionFields num r) = some (entryOf r) := by
  have hload : field selectionCols (selectionFields num r) "LoadType" = some r.loadType.toCsv := rfl
  have hwin : field selectionCols (selectionFields num r) "window_id" = some (dec r.windowId) := rfl
  have hkey : field selectionCols (selectionFields num r) "thread_key" =
    some r.threadKey.toCsv := rfl
  have hcpu : field selectionCols (selectionFields num r) "target_cpu" =
    some (decNat r.targetCpu) := rfl
  unfold planEntry
  rw [hload, hwin, hkey, hcpu, Option.bind_some, Option.bind_some, readDec_dec, ← dec_natCast,
    readDec_dec]
  simp only [Option.bind_eq_bind, Option.bind_some, Cell.ofCsv_toCsv]
  rfl

/-- **The executor reads back what the exporter wrote**, whatever the names are. -/
theorem readSelection_selectionCsv (num : FloatText) (selection : List SelectionRow) :
    readSelection (selectionCsv num selection) = some (selection.map entryOf) := by
  have hrows : ∀ row ∈ selection.map (selectionFields num), row.length = selectionCols.length := by
    intro row hrow
    obtain ⟨r, -, rfl⟩ := List.mem_map.mp hrow
    rfl
  unfold readSelection selectionCsv
  rw [readCsv_writeCsv (by decide) hrows, Option.bind_some]
  simp only
  rw [if_pos (by decide), mapM_eq_some_iff, List.map_map, List.map_map]
  exact List.map_congr_left fun r _ => planEntry_fields num r

/-! ### The rows that are applied -/

/-- `transform("max")` of the windows of the load type of a row; a missing load type has none. -/
def latest (out : List PlanEntry) (r : PlanEntry) : Option ℤ :=
  r.loadType.val.bind fun _ =>
    ((out.filter fun r' => r'.loadType = r.loadType).map PlanEntry.windowId).max?

/-- The columns the chosen rows are sorted by. -/
def entryKey (r : PlanEntry) : WithTop Text ×ₗ ℤ ×ₗ ℤ :=
  toLex (r.loadType.sortKey, toLex (r.windowId, r.targetCpu))

/-- The rows of `--load-type`; no load type and the empty one select all rows. -/
def ofLoadType (df : List PlanEntry) : Option Text → List PlanEntry
  | none => df
  | some t => if t = [] then df else df.filter fun r => r.loadType.str = t

/-- `choose_rows`; `none` is the `ValueError` of a window that is no number. -/
def chooseRows (df : List PlanEntry) (loadType : Option Text) (windowId : Text) :
    Option (List PlanEntry) :=
  let out := ofLoadType df loadType
  if out.isEmpty then some out
  else if windowId = "latest".toList then
    some (sortBy entryKey (out.filter fun r => latest out r = some r.windowId))
  else
    (pyInt windowId).map fun w => sortBy entryKey (out.filter fun r => r.windowId = w)

/-- The TIDs of rows with their CPUs, in the order in which they are bound. -/
def assignment (rows : List PlanEntry) : List (ℤ × ℤ) :=
  rows.filterMap fun r => (parseThreadKey r.threadKey).1.map fun tid => (tid, r.targetCpu)

end Magm.Apply.Affinity
