import Magm.Planner.Windows
import Magm.Predict.Trained
import Magm.Scx.Installed
import Magm.Scx.Scheduler

/-! # Whom the scheduler moves

From the recorded switches to the CPU a waking task gets. A thread that was never switched to has no
sample, no window, no prediction and no decision, so the loaded scheduler leaves it alone. A thread
it does move gets the CPU of its last decision in the order of the exported table, a CPU of the
machine the plan was made for (`selectCpu_of_recording`). -/

namespace Magm.Pipeline.Provenance

open Magm.Lib.Chars Magm.Lib.Sorting Magm.Lib.GroupBy Magm.Lib.BoundedMap
open Magm.Table.Cells Magm.Table.Names Magm.Collect.SwitchLog Magm.Collect.Attribution
open Magm.Features.Dataset Magm.Features.ThreadWindows Magm.Features.Normalize
open Magm.Planner.Score Magm.Planner.Schedule Magm.Planner.Placement Magm.Planner.Windows
open Magm.Predict.Sequences Magm.Predict.Input Magm.Predict.Inference Magm.Predict.Trained
open Magm.Export.Selection Magm.Export.PlanFile
open Magm.Scx.Loader Magm.Scx.Decode Magm.Scx.Installed Magm.Scx.Scheduler

/-! ### Recordings -/

/-- The record of a switch to a thread, whose name `sched.csv` and the plan can hold. -/
structure Switched (scene : SceneData) (r : SchedRow) (t : Thread) : Prop where
  scene : t.scene.text = scene.name
  noComma : ',' ∉ t.name.text
  read : t.name.text ∉ missingTokens
  comm : r.nextComm = some t.name.text
  pid : r.nextPid = some (t.pid : ℤ)

/-- What was recorded, with times in the range of the column. -/
structure Recording where
  scenes : List SceneData
  switched : ∀ scene ∈ scenes, ∀ r ∈ scene.sched, ∃ t, Switched scene r t
  time : ∀ scene ∈ scenes, ∀ s ∈ scene.samples, -2 ^ 63 ≤ s.ts ∧ s.ts < 2 ^ 63

namespace Recording

/-- The thread was switched to. -/
def Ran (rec : Recording) (t : Thread) : Prop :=
  ∃ scene ∈ rec.scenes, ∃ r ∈ scene.sched, Switched scene r t

/-- `full_dataset.csv` as `build_thread_windows.py` reads it. -/
def dataset (rec : Recording) : List DataRow := loadFullDataset (mergeResults rec.scenes)

end Recording

section Rows
variable {rec : Recording} {windowNs : ℤ}

theorem complete_of_switched {scene : SceneData} {r : SchedRow} {t : Thread}
    (h : Switched scene r t) : Complete r :=
  ⟨⟨_, h.comm, h.read⟩, ⟨_, h.pid⟩⟩

/-- A row of the dataset is about a thread that was switched to. -/
theorem exists_ran_of_dataset {row : DataRow} (h : row ∈ rec.dataset) :
    ∃ t, rec.Ran t ∧ row.loadType = t.scene.text ∧ row.thread = t.name.text ∧
      row.pid = t.pid ∧ -2 ^ 63 ≤ row.ts ∧ row.ts < 2 ^ 63 := by
  have hcomplete : ∀ scene ∈ rec.scenes, ∀ r ∈ scene.sched, Complete r := by
    intro scene hscene r hr
    obtain ⟨t, ht⟩ := rec.switched scene hscene r hr
    exact complete_of_switched ht
  rw [Recording.dataset, loadFullDataset_mergeResults hcomplete] at h
  obtain ⟨scene, hscene, hrow⟩ := List.mem_flatMap.mp h
  obtain ⟨s, hs, hrow⟩ := List.mem_filterMap.mp hrow
  rw [mem_sortBy] at hs
  obtain ⟨x, hruns, rfl⟩ := Option.map_eq_some_iff.mp hrow
  unfold runs at hruns
  rcases attributed_eq scene.sched s with ⟨r, hr, -, hat⟩ | ⟨-, hat⟩
  · obtain ⟨t, ht⟩ := rec.switched scene hscene r hr
    rw [hat, ht.comm, ht.pid] at hruns
    obtain rfl := Option.some.inj hruns
    obtain ⟨hlow, hhigh⟩ := rec.time scene hscene s hs
    exact ⟨t, ⟨scene, hscene, r, hr, ht⟩, ht.scene.symm, rfl, rfl, hlow, hhigh⟩
  · rw [hat] at hruns
    exact absurd hruns (by simp)

/-- What a row says about its thread. -/
structure About (rec : Recording) (t : Thread) (loadType threadKey thread : Cell)
    (pid windowId : ℤ) : Prop where
  ran : rec.Ran t
  loadType : loadType.val = some t.scene.text
  threadKey : threadKey.val = some t.key
  thread : thread = Cell.ofCsv t.name.text
  pid : pid = t.pid
  window_range : -2 ^ 63 ≤ windowId ∧ windowId < 2 ^ 63

theorem fdiv_range {x n : ℤ} (hn : 1 ≤ n) (h : -2 ^ 63 ≤ x ∧ x < 2 ^ 63) :
    -2 ^ 63 ≤ x.fdiv n ∧ x.fdiv n < 2 ^ 63 := by
  rw [Int.fdiv_eq_ediv_of_nonneg x (by omega)]
  constructor
  · rw [Int.le_ediv_iff_mul_le (by omega)]
    nlinarith [h.1]
  · rw [Int.ediv_lt_iff_lt_mul (by omega)]
    nlinarith [h.2]

theorem exists_about_of_window (hn : 1 ≤ windowNs) {w : WindowRow}
    (h : w ∈ readWindows rec.dataset windowNs) :
    ∃ t, About rec t w.loadType w.threadKey w.thread w.pid w.windowId := by
  obtain ⟨n, hmem, rfl⟩ := List.mem_map.mp h
  have hsum := mem_aggregate (mem_rawWindows (mem_norm hmem).1).1
  obtain ⟨row, hrow, hgroup⟩ := hsum.row
  obtain ⟨t, hran, hload, hthread, hpid, hrange⟩ := exists_ran_of_dataset hrow
  rw [rowGroup, WindowSum.group, Group.mk.injEq, hload, hthread, hpid] at hgroup
  obtain ⟨hl, hp, ht, hw⟩ := hgroup
  have hkey : n.window.sum.threadKey = t.key := by
    rw [hsum.threadKey, ← hl, ← hp, ← ht]
    rfl
  refine ⟨t, hran, ?_, ?_, ?_, hp.symm, ?_⟩
  · rw [readWindow, ← hl]
    exact Cell.ofCsv_of_notMem t.scene.read
  · rw [readWindow, hkey]
    exact Cell.ofCsv_of_notMem (threadKeyText_read _ _ _)
  · rw [readWindow, ← ht]
  · rw [readWindow, ← hw]
    exact fdiv_range hn hrange

end Rows

/-! ### The rows of the planner -/

section Planner
variable {rec : Recording} {rows : List Row}

/-- Rows of the planner that are about threads of a recording. -/
def AboutRows (rec : Recording) (rows : List Row) : Prop :=
  ∀ r ∈ rows, ∃ t, About rec t r.loadType r.threadKey r.thread r.pid r.windowId

theorem aboutRows_predict {windowNs : ℤ} (hn : 1 ≤ windowNs)
    {inner : Sorter (KeyLe WindowRow.windowId)} {bundle : Bundle} {live : List PredRow}
    (h : predict inner bundle (readWindows rec.dataset windowNs) = .ok live) :
    AboutRows rec (live.map readPrediction) := by
  intro r hr
  obtain ⟨p, hp, rfl⟩ := List.mem_map.mp hr
  obtain ⟨w, hw, hk, hl, ht, hpid, hid⟩ := exists_window_of_predict h p hp
  obtain ⟨t, hran, hload, hkey, hthread, hpidt, hrange⟩ := exists_about_of_window hn hw
  have hcell : (Cell.ofCsv p.threadKey).val = w.threadKey.val := by
    rw [Cell.ofCsv_of_notMem (w.threadKey.read _ hk)]
    exact hk.symm
  refine ⟨t, hran, ?_, ?_, ht.trans hthread, hpid.trans hpidt, ?_⟩
  · rw [readPrediction, hl, hload]
  · exact hcell.trans hkey
  · rw [readPrediction, hid]
    exact hrange

theorem scene_eq_of_text {s s' : Scene} (h : s.text = s'.text) : s = s' := by
  obtain ⟨text, _, _, _, _⟩ := s
  obtain ⟨text', _, _, _, _⟩ := s'
  obtain rfl : text = text' := h
  rfl

/-- A group of the rows is a table of one window of a scene. -/
theorem exists_windowTable (h : AboutRows rec rows) (hlen : rows.length ≤ 2 ^ 30)
    {k : Text ×ₗ ℤ} (hk : k ∈ groupKeys windowKey rows) :
    ∃ scene w, WindowTable scene w (rowsOf windowKey rows k) := by
  have hrow : ∀ r ∈ rowsOf windowKey rows k, ∃ t, t.scene.text = (ofLex k).1 ∧
      About rec t r.loadType r.threadKey r.thread r.pid r.windowId ∧ r.windowId = (ofLex k).2 := by
    intro r hr
    obtain ⟨hmem, hkey⟩ := mem_rowsOf.mp hr
    obtain ⟨t, ht⟩ := h r hmem
    rw [windowKey, ht.loadType, Option.map_some, Option.some.injEq] at hkey
    refine ⟨t, ?_, ht, ?_⟩
    · rw [← hkey]
      rfl
    · rw [← hkey]
      rfl
  obtain ⟨r, hr, hkey⟩ := mem_groupKeys.mp hk
  obtain ⟨t, htext, ht, hid⟩ := hrow r (mem_rowsOf.mpr ⟨hr, hkey⟩)
  refine ⟨t.scene, (ofLex k).2, ⟨fun r' hr' => ?_, ?_, ?_⟩⟩
  · obtain ⟨t', htext', ht', hid'⟩ := hrow r' hr'
    obtain ⟨scene, -, q, -, hq⟩ := ht'.ran
    exact ⟨t', scene_eq_of_text (htext'.trans htext.symm), hq.noComma,
      ht'.loadType, hid', ht'.threadKey, ht'.thread, ht'.pid⟩
  · rw [← hid]
    exact ht.window_range
  · exact (List.length_filter_le _ _).trans hlen

/-- A decision is about a thread that was switched to, on a CPU of the machine. -/
structure Moves (rec : Recording) (physicalCores : ℕ) (d : Decision) : Prop where
  ran : ∃ t, rec.Ran t ∧ d.loadType.val = some t.scene.text ∧ d.threadKey.val = some t.key ∧
    d.pid = t.pid
  cpu_lt : d.targetCpu < 2 * physicalCores
  plan : ∃ r : PlanRow, r.row = shown d ∧ (r.pid : ℤ) = d.pid ∧ ',' ∉ r.thread.name.text

theorem moves_scheduleAll (h : AboutRows rec rows) (hlen : rows.length ≤ 2 ^ 30)
    (sortValues : IntensitySort) {physicalCores : ℕ} (h1 : 1 ≤ physicalCores) (theta : ℚ)
    (topK : ℕ) : ∀ d ∈ (scheduleAll sortValues rows physicalCores theta topK).1,
      Moves rec physicalCores d := by
  intro d hd
  obtain ⟨k, hk, hd⟩ := mem_scheduleAll.mp hd
  have hpl := scheduleWindow_placement sortValues (rowsOf windowKey rows k) physicalCores theta
    topK h1
  obtain ⟨scene, w, htable⟩ := exists_windowTable h hlen hk
  obtain ⟨r, hr, hkey, -, hpid, hload, -⟩ := hpl.carries d hd
  obtain ⟨t, ht⟩ := h r (mem_rowsOf.mp hr).1
  refine ⟨⟨t, ht.ran, ?_, ?_, hpid.trans ht.pid⟩, hpl.cpu_lt d hd, exists_planRow h1 htable hd⟩
  · rw [hload, ht.loadType]
  · rw [hkey, ht.threadKey]

end Planner

/-- The task of a thread. -/
def taskOf (t : Thread) : Task := ⟨t.pid, Int.natCast_nonneg _, by exact_mod_cast t.pid_lt⟩

/-! ### The exported order -/

/-- The order of the decisions in the exported table. -/
def exportKey (d : Decision) : WithTop Text ×ₗ ℤ ×ₗ ℕ ×ₗ ℕ := selectionKey (shown d)

theorem selectionOf_sorted (ds : List Decision) :
    selectionOf ds = (sortBy exportKey ds).map shown :=
  (List.map_insertionSort (KeyLe exportKey) (KeyLe selectionKey) shown ds
    fun _ _ _ _ => Iff.rfl).symm

/-- The decision that is the last of its pid. -/
structure LastOf (ds : List Decision) (tid : ℤ) (d : Decision) : Prop where
  mem : d ∈ ds
  pid : d.pid = tid
  last : ∀ d' ∈ ds, d'.pid = tid → exportKey d' ≤ exportKey d

/-- The rows the loader accepts, in their order. -/
def acceptedRows (ds : List Decision) : List (ℕ × ℕ) := accepted (sortBy exportKey ds)

theorem lastOf_of_lastVal {ds : List Decision} {pid : ℤ} (hpid : 0 ≤ pid) {c : ℕ}
    (h : lastVal pid.toNat (acceptedRows ds) = some c) :
    0 < pid ∧ ∃ d, LastOf ds pid d ∧ d.targetCpu = c := by
  have hsorted := (sortBy_sorted exportKey ds).filter (fun d => 0 < d.pid)
  obtain ⟨d, hd, hkey, hcpu, hlast⟩ := exists_last_of_lastVal hsorted h
  rw [List.mem_filter, mem_sortBy, decide_eq_true_eq] at hd
  have hsame : d.pid = pid := by omega
  refine ⟨hsame ▸ hd.2, d, ⟨hd.1, hsame, fun d' hd' hpid' => ?_⟩, hcpu⟩
  have hmem : d' ∈ (sortBy exportKey ds).filter fun d => 0 < d.pid := by
    rw [List.mem_filter, mem_sortBy, decide_eq_true_eq]
    exact ⟨hd', by omega⟩
  exact hlast d' hmem (by rw [hpid'])

/-- **The rows of the loaded plan.** -/
theorem planRows_export (num : FloatText) {ds : List Decision}
    (hplan : ∀ d ∈ ds, ∃ r : PlanRow, r.row = shown d ∧ (r.pid : ℤ) = d.pid ∧
      ',' ∉ r.thread.name.text) {tables : Tables} (h : exportCpuSelection ds = some tables) :
    planRows (selectionCsv num tables.selection) = some (acceptedRows ds) := by
  have hne : ds ≠ [] := by
    rintro rfl
    exact absurd h (by simp [exportCpuSelection])
  obtain ⟨pairs, hexport, -⟩ := exportCpuSelection_eq hne
  rw [hexport] at h
  obtain rfl := Option.some.inj h
  have hsorted : ∀ d ∈ sortBy exportKey ds, ∃ r : PlanRow, r.row = shown d ∧
      (r.pid : ℤ) = d.pid ∧ ',' ∉ r.thread.name.text := fun d hd => hplan d ((mem_sortBy _ _).mp hd)
  obtain ⟨plan, hrows, hspelled⟩ := exists_plan hsorted
  have hfile : selectionOf ds = plan.map PlanRow.row := by rw [hrows, selectionOf_sorted]
  rw [acceptedRows, ← hspelled]
  simp only [hfile]
  exact planRows_planCsv num plan

/-! ### The scheduler -/

/-- The CPU a waking task gets from a scheduler that was started with an exported plan. -/
def selectedCpu (num : FloatText) (tables : Tables) (dfl : SelectCpuDfl) (stats : MagmStat)
    (p : Task) (prevCpu : ℤ) (wakeFlags : ℕ) : ℤ :=
  let maps := (loadPlanCsv mapCalls (.ok (selectionCsv num tables.selection)) Maps.initial).1
  (magmSelectCpu dfl { maps with stats := stats } p prevCpu wakeFlags).2

/-- The CPU for a task: the map holds it, so it was switched to and gets the CPU of the last
decision about its pid, or it is left to the kernel. -/
def Selects (rec : Recording) (physicalCores : ℕ) (ds : List Decision) (p : Task) (kernel cpu : ℤ) :
    Prop :=
  (Admits 65536 ((acceptedRows ds).map Prod.fst) p.pid.toNat ∧ 0 < p.pid ∧
    ∃ d t, LastOf ds p.pid d ∧ rec.Ran t ∧ (t.pid : ℤ) = p.pid ∧ d.threadKey.val = some t.key ∧
      d.targetCpu < 2 * physicalCores ∧ cpu = d.targetCpu) ∨
  (¬ Admits 65536 ((acceptedRows ds).map Prod.fst) p.pid.toNat ∧ cpu = kernel)

/-- **Whom the scheduler moves, and where**: a task that the map holds was switched to in the
recording, and it gets the CPU of the last decision about its pid, one of the planned machine; every
other task is left to the kernel. -/
theorem selectCpu_of_recording (rec : Recording) {windowNs : ℤ} (hn : 1 ≤ windowNs)
    (inner : Sorter (KeyLe WindowRow.windowId)) (bundle : Bundle) {live : List PredRow}
    (hlive : predict inner bundle (readWindows rec.dataset windowNs) = .ok live)
    (hlen : live.length ≤ 2 ^ 30) (sortValues : IntensitySort) {physicalCores : ℕ}
    (h1 : 1 ≤ physicalCores) (theta : ℚ) (topK : ℕ) (num : FloatText) {tables : Tables}
    (hexport : exportCpuSelection
      (scheduleAll sortValues (live.map readPrediction) physicalCores theta topK).1 = some tables)
    (dfl : SelectCpuDfl) (stats : MagmStat) (p : Task) (prevCpu : ℤ) (wakeFlags : ℕ) :
    Selects rec physicalCores
      (scheduleAll sortValues (live.map readPrediction) physicalCores theta topK).1 p
      (dfl p prevCpu wakeFlags) (selectedCpu num tables dfl stats p prevCpu wakeFlags) := by
  set ds := (scheduleAll sortValues (live.map readPrediction) physicalCores theta topK).1 with hds
  have hmoves : ∀ d ∈ ds, Moves rec physicalCores d := by
    rw [hds]
    exact moves_scheduleAll (aboutRows_predict hn hlive) (by rw [List.length_map]; exact hlen)
      sortValues h1 theta topK
  have hrows := planRows_export num (fun d hd => (hmoves d hd).plan) hexport
  have hselect := magmSelectCpu_loaded hrows dfl stats p prevCpu wakeFlags
  unfold selectedCpu
  dsimp only
  rw [hselect, planCpu]
  by_cases hadm : Admits 65536 ((acceptedRows ds).map Prod.fst) p.pid.toNat
  · rw [if_pos hadm]
    rcases hlast : lastVal p.pid.toNat (acceptedRows ds) with _ | c
    · exact absurd hadm.1 (lastVal_eq_none.mp hlast)
    · obtain ⟨hpos, d, hd, rfl⟩ := lastOf_of_lastVal p.pid_nonneg hlast
      obtain ⟨t, hran, -, hkey, hpid⟩ := (hmoves d hd.mem).ran
      exact Or.inl ⟨hadm, hpos, d, t, hd, hran, hpid.symm.trans hd.pid, hkey,
        (hmoves d hd.mem).cpu_lt, rfl⟩
  · rw [if_neg hadm]
    exact Or.inr ⟨hadm, rfl⟩

/-! ### A recording of one thread -/

/-- One switch, and a sample in each of three windows. -/
def forkedScene : SceneData where
  name := cpuScene.text
  read := cpuScene.read
  samples := [⟨5, 0, fun _ => 3⟩, ⟨15, 0, fun _ => 2⟩, ⟨25, 0, fun _ => 4⟩]
  sched := [⟨4, some 0, some "swapper/0".toList, some 0, some "sh".toList, some 12⟩]

theorem switched_forked : ∀ r ∈ forkedScene.sched, Switched forkedScene r forked := by
  intro r hr
  obtain rfl := List.mem_singleton.mp hr
  exact ⟨rfl, by decide, by decide, rfl, rfl⟩

def forkedRecording : Recording where
  scenes := [forkedScene]
  switched := by
    intro scene hscene r hr
    obtain rfl := List.mem_singleton.mp hscene
    exact ⟨forked, switched_forked r hr⟩
  time := by
    intro scene hscene
    obtain rfl := List.mem_singleton.mp hscene
    decide

/-- A half is predicted for everything. -/
def half : Feature → Regressor := fun _ _ => 1 / 2

def halfBundle : Bundle := ⟨1, inputCols 1, models half⟩

/-- The predictions for the recording, and the plan. -/
def forkedLive : List PredRow :=
  (buildSequences (Sorter.insertion _) (readWindows forkedRecording.dataset 10) 1).map fun s =>
    rowOf half s "live".toList

def forkedPlan : List Decision :=
  (scheduleAll intensitySort (forkedLive.map readPrediction) 2 (3 / 5) 32).1

theorem predict_forked : predict (Sorter.insertion _) halfBundle
    (readWindows forkedRecording.dataset 10) = .ok forkedLive := by
  have hserves : Serves halfBundle half := ⟨rfl, lookup_models half⟩
  rw [predict_eq _ hserves, if_neg]
  · rfl
  · rw [← List.length_eq_zero_iff]
    decide +kernel

theorem selectCpu_of_recording_forked : ∃ tables, exportCpuSelection forkedPlan = some tables ∧
    Selects forkedRecording 2 forkedPlan (taskOf forked) 5
      (selectedCpu oneText tables (fun _ prevCpu _ => prevCpu) ⟨0, 0, 0⟩ (taskOf forked) 5 0) := by
  have hlen : forkedPlan.length = 2 := by decide +kernel
  have hne : forkedPlan ≠ [] := by
    intro h
    rw [h] at hlen
    exact absurd hlen (by decide)
  obtain ⟨pairs, hexport, -⟩ := exportCpuSelection_eq hne
  exact ⟨_, hexport, selectCpu_of_recording forkedRecording (by decide) _ halfBundle predict_forked
    (by decide +kernel) intensitySort (by decide) (3 / 5) 32 oneText hexport _ _ _ _ _⟩

end Magm.Pipeline.Provenance
