import Magm.Planner.Windows
import Magm.Scx.Decode

/-! # Which decisions the scheduler installs

The planner tells threads apart by their thread keys, the map of the scheduler by their TIDs. The
plan of one window lists the decisions in the order of their CPUs, so of several keys with one pid
the map keeps the one with the highest CPU, and the loader skips pid 0 (`installs_iff`). -/

namespace Magm.Scx.Installed

open Magm.Lib.Chars Magm.Lib.Sorting Magm.Lib.BoundedMap Magm.Table.Cells Magm.Table.Names
open Magm.Planner.Score Magm.Planner.Schedule Magm.Planner.Placement
open Magm.Export.Selection Magm.Export.PlanFile Magm.Scx.Loader Magm.Scx.Decode

/-! ### Window tables -/

/-- The row of a thread in window `w`. -/
structure RowOf (t : Thread) (w : ℤ) (r : Row) : Prop where
  loadType : r.loadType.val = some t.scene.text
  windowId : r.windowId = w
  threadKey : r.threadKey.val = some t.key
  thread : r.thread = Cell.ofCsv t.name.text
  pid : r.pid = t.pid

/-- A table of window `w` of a scene, as the pipeline makes them, with names without commas. -/
structure WindowTable (scene : Scene) (w : ℤ) (subdf : List Row) : Prop where
  rows : ∀ r ∈ subdf, ∃ t : Thread, t.scene = scene ∧ ',' ∉ t.name.text ∧ RowOf t w r
  window_range : -2 ^ 63 ≤ w ∧ w < 2 ^ 63
  length_le : subdf.length ≤ 2 ^ 30

/-- The map after loading the plan of a schedule. -/
def installedMap (num : FloatText) (schedule : List Decision) : Option (Bounded ℕ ℕ 65536) :=
  (exportCpuSelection schedule).map fun t => loadedMap (selectionCsv num t.selection)

/-- The map sends the pid of the decision to its CPU. -/
def Installs (num : FloatText) (schedule : List Decision) (d : Decision) : Prop :=
  ((installedMap num schedule).bind fun m => m.lookup d.pid.toNat) = some d.targetCpu

instance (num : FloatText) (schedule : List Decision) (d : Decision) :
    Decidable (Installs num schedule d) := by
  unfold Installs; infer_instance

/-- What the loader accepts of a schedule, in the order of the rows. -/
def accepted (schedule : List Decision) : List (ℕ × ℕ) :=
  (schedule.filter fun d => 0 < d.pid).map fun d => (d.pid.toNat, d.targetCpu)

/-! ### The plan of one window -/

section Window
variable {scene : Scene} {w : ℤ} {subdf : List Row} {physicalCores : ℕ} {theta : ℚ} {topK : ℕ}
  {sortValues : IntensitySort} {ds : List Decision} {d : Decision}

/-- What the plan of a window takes from its decisions. -/
structure WindowPlan (scene : Scene) (w : ℤ) (ds : List Decision) : Prop where
  loadType : ∀ d ∈ ds, d.loadType.val = some scene.text
  windowId : ∀ d ∈ ds, d.windowId = w
  ascending : ds.Pairwise fun d d' => d.targetCpu < d'.targetCpu
  plan : ∀ d ∈ ds, ∃ r : PlanRow, r.row = shown d ∧ (r.pid : ℤ) = d.pid ∧
    ',' ∉ r.thread.name.text

/-- The plan names the thread on the sibling by its key. -/
theorem pairedWith_shown (h1 : 1 ≤ physicalCores) (h : WindowTable scene w subdf)
    (hd : d ∈ (scheduleWindow sortValues subdf physicalCores theta topK).1) :
    (shown d).pairedWith = Cell.missing ∨
      ∃ t : Thread, (shown d).pairedWith.val = some t.key := by
  rcases scheduleWindow_pairedWith sortValues subdf physicalCores theta topK h1 d hd with
    hnone | ⟨r, hr, hsome⟩
  · exact Or.inl (by rw [shown, hnone]; rfl)
  · obtain ⟨t, -, -, ht⟩ := h.rows r hr
    exact Or.inr ⟨t, by rw [shown, hsome]; exact ht.threadKey⟩

/-- The row of the plan for a decision of a window. -/
theorem exists_planRow (h1 : 1 ≤ physicalCores) (h : WindowTable scene w subdf)
    (hd : d ∈ (scheduleWindow sortValues subdf physicalCores theta topK).1) :
    ∃ r : PlanRow, r.row = shown d ∧ (r.pid : ℤ) = d.pid ∧ ',' ∉ r.thread.name.text := by
  have hpl := scheduleWindow_placement sortValues subdf physicalCores theta topK h1
  have hlen := h.length_le
  obtain ⟨r, hr, hkey, hthread, hpid, hload, hwin⟩ := hpl.carries d hd
  obtain ⟨t, -, hcomma, ht⟩ := h.rows r hr
  have hcpu : d.targetCpu < 2 ^ 31 := by
    have := scheduleWindow_cpu_lt sortValues subdf physicalCores theta topK h1 d hd
    omega
  have hselected : (shown d).selectedThread = label t := by
    rw [shown, hthread, hpid, ht.thread, ht.pid]
    rfl
  have hwindow : -2 ^ 63 ≤ d.windowId ∧ d.windowId < 2 ^ 63 := by
    rw [hwin, ht.windowId]
    exact h.window_range
  have hrun : d.nRun = subdf.length := (hpl.same d hd).2.2.trans hpl.run.1
  have hrun_lt : d.nRun < 2 ^ 63 := by omega
  have hscene : (shown d).loadType.val = some t.scene.text := by
    rw [shown, hload]
    exact ht.loadType
  have hkeys : (shown d).threadKey.val = some t.key := by
    rw [shown, hkey]
    exact ht.threadKey
  exact ⟨⟨shown d, t, hscene, hselected, hkeys, pairedWith_shown h1 h hd, rfl, rfl, hwindow, hcpu,
    hrun_lt⟩, rfl, (hpid.trans ht.pid).symm, hcomma⟩

theorem windowPlan (h1 : 1 ≤ physicalCores) (h : WindowTable scene w subdf) :
    WindowPlan scene w (scheduleWindow sortValues subdf physicalCores theta topK).1 := by
  have hpl := scheduleWindow_placement sortValues subdf physicalCores theta topK h1
  refine ⟨fun d hd => ?_, fun d hd => ?_,
    scheduleWindow_ascending sortValues subdf physicalCores theta topK h1,
    fun d hd => exists_planRow h1 h hd⟩
  · obtain ⟨r, hr, hc⟩ := hpl.carries d hd
    obtain ⟨t, rfl, -, ht⟩ := h.rows r hr
    rw [hc.2.2.2.1, ht.loadType]
  · obtain ⟨r, hr, hc⟩ := hpl.carries d hd
    obtain ⟨t, -, -, ht⟩ := h.rows r hr
    rw [hc.2.2.2.2, ht.windowId]

/-- The decisions are exported in the order of their CPUs. -/
theorem selectionOf_eq (h : WindowPlan scene w ds) : selectionOf ds = ds.map shown := by
  refine sortBy_eq_self selectionKey ?_
  rw [List.pairwise_map]
  refine h.ascending.imp_of_mem fun {d d'} hd hd' hlt => ?_
  have hload : d.loadType = d'.loadType := by
    ext1
    rw [h.loadType d hd, h.loadType d' hd']
  have hwin : d.windowId = d'.windowId := (h.windowId d hd).trans (h.windowId d' hd').symm
  have hcore : d.targetCpu / 2 < d'.targetCpu / 2 ∨
      d.targetCpu / 2 = d'.targetCpu / 2 ∧ d.targetCpu % 2 ≤ d'.targetCpu % 2 := by omega
  simp only [selectionKey, shown, hload, hwin, Prod.Lex.toLex_le_toLex, lt_irrefl, true_and,
    false_or]
  exact hcore

/-- The plan rows of the decisions, and what the loader takes from them. -/
theorem exists_plan : ∀ {ds : List Decision}, (∀ d ∈ ds, ∃ r : PlanRow, r.row = shown d ∧
    (r.pid : ℤ) = d.pid ∧ ',' ∉ r.thread.name.text) →
      ∃ plan : List PlanRow, plan.map PlanRow.row = ds.map shown ∧ spelledRows plan = accepted ds
  | [], _ => ⟨[], rfl, rfl⟩
  | d :: ds, h => by
    obtain ⟨r, hrow, hpid, hcomma⟩ := h d (by simp)
    obtain ⟨plan, hplan, hspelled⟩ := exists_plan fun d hd => h d (List.mem_cons_of_mem _ hd)
    have hcpu : r.targetCpu = d.targetCpu := by rw [PlanRow.targetCpu, hrow]; rfl
    refine ⟨r :: plan, by rw [List.map_cons, List.map_cons, hrow, hplan], ?_⟩
    unfold spelledRows accepted at *
    by_cases hpos : 0 < r.pid
    · have hd : 0 < d.pid := by omega
      have htid : d.pid.toNat = r.pid := by omega
      rw [List.filterMap_cons_some (by rw [spelledRow_eq hcomma, if_pos hpos]),
        List.filter_cons_of_pos (by simpa using hd), List.map_cons, hspelled, htid, hcpu]
    · have hd : ¬ 0 < d.pid := by omega
      rw [List.filterMap_cons_none (by rw [spelledRow_eq hcomma, if_neg hpos]),
        List.filter_cons_of_neg (by simpa using hd), hspelled]

/-- **The installed map** of a window. -/
theorem installedMap_eq (num : FloatText) (h : WindowPlan scene w ds) (hne : ds ≠ []) :
    ∃ m ∈ installedMap num ds, ∀ tid, m.lookup tid = planCpu (accepted ds) tid := by
  obtain ⟨pairs, hexport, -⟩ := exportCpuSelection_eq hne
  obtain ⟨plan, hplan, hspelled⟩ := exists_plan h.plan
  refine ⟨loadedMap (planCsv num plan), ?_, fun tid => ?_⟩
  · rw [installedMap, hexport, selectionOf_eq h, ← hplan]
    rfl
  · rw [lookup_planCsv, hspelled]

theorem mem_accepted {k c : ℕ} :
    (k, c) ∈ accepted ds ↔ ∃ d ∈ ds, d.pid = k ∧ 0 < k ∧ d.targetCpu = c := by
  unfold accepted
  simp only [List.mem_map, List.mem_filter, decide_eq_true_eq, Prod.mk.injEq]
  constructor
  · rintro ⟨d, ⟨hd, hpos⟩, rfl, rfl⟩
    exact ⟨d, hd, by omega, by omega, rfl⟩
  · rintro ⟨d, hd, hpid, hpos, rfl⟩
    exact ⟨d, ⟨hd, by omega⟩, by omega, rfl⟩

/-- The decision is the last of its pid, and the loader accepts it. -/
theorem lastVal_accepted (h : WindowPlan scene w ds) (hd : d ∈ ds) :
    lastVal d.pid.toNat (accepted ds) = some d.targetCpu ↔
      0 < d.pid ∧ ∀ d' ∈ ds, d'.pid = d.pid → d'.targetCpu ≤ d.targetCpu := by
  have hsorted : (accepted ds).Pairwise fun p q => p.2 < q.2 := by
    unfold accepted
    rw [List.pairwise_map]
    exact h.ascending.filter _
  rw [lastVal_eq_some_iff_of_lt hsorted]
  constructor
  · rintro ⟨hmem, hmax⟩
    obtain ⟨-, -, -, hpos, -⟩ := mem_accepted.mp hmem
    refine ⟨by omega, fun d' hd' hpid => ?_⟩
    exact hmax (d.pid.toNat, d'.targetCpu) (mem_accepted.mpr ⟨d', hd', by omega, hpos, rfl⟩) rfl
  · rintro ⟨hpos, hmax⟩
    refine ⟨mem_accepted.mpr ⟨d, hd, by omega, by omega, rfl⟩, ?_⟩
    rintro ⟨k, c⟩ hmem hk
    obtain ⟨d', hd', hpid, hk', rfl⟩ := mem_accepted.mp hmem
    simp only at hk
    exact hmax d' hd' (by omega)

/-- **Which decisions of a window are installed**: those with a positive pid that no decision on a
higher CPU has too, as far as the map has room for the pid. -/
theorem installs_iff (sortValues : IntensitySort) (physicalCores : ℕ) (theta : ℚ) (topK : ℕ)
    (num : FloatText) (h1 : 1 ≤ physicalCores) (h : WindowTable scene w subdf) :
    ∀ d ∈ (scheduleWindow sortValues subdf physicalCores theta topK).1,
      Installs num (scheduleWindow sortValues subdf physicalCores theta topK).1 d ↔
        (0 < d.pid ∧ ∀ d' ∈ (scheduleWindow sortValues subdf physicalCores theta topK).1,
          d'.pid = d.pid → d'.targetCpu ≤ d.targetCpu) ∧
        Admits 65536 ((accepted (scheduleWindow sortValues subdf physicalCores theta topK).1).map
          Prod.fst) d.pid.toNat := by
  intro d hd
  have hplan : WindowPlan scene w (scheduleWindow sortValues subdf physicalCores theta topK).1 :=
    windowPlan h1 h
  obtain ⟨m, hm, hlookup⟩ := installedMap_eq num hplan (List.ne_nil_of_mem hd)
  rw [Installs, Option.mem_def.mp hm, Option.bind_some, hlookup, ← lastVal_accepted hplan hd,
    planCpu]
  split_ifs with hadm
  · exact ⟨fun hlast => ⟨hlast, hadm⟩, fun hlast => hlast.1⟩
  · exact ⟨fun hlast => absurd hlast (by simp), fun hlast => absurd hlast.2 hadm⟩

end Window

/-! ### The idle task and a renamed thread -/

/-- The row of a thread in window 0, with nothing predicted. -/
def idleRow (t : Thread) : Row where
  loadType := t.loadType
  threadKey := t.threadKey
  thread := Cell.ofCsv t.name.text
  pid := t.pid
  windowId := 0
  pred := fun _ => 0

theorem rowOf_idleRow (t : Thread) : RowOf t 0 (idleRow t) := ⟨rfl, rfl, rfl, rfl, rfl⟩

def swapper : Thread :=
  ⟨cpuScene, 0, Comm.swapper, by decide, by decide⟩

/-- Thread 12 before and after it has changed its name. -/
def forked : Thread :=
  ⟨cpuScene, 12, Comm.ofText "sh".toList (by decide), by decide, by decide⟩

def renamed : Thread :=
  ⟨cpuScene, 12, Comm.ofText "ls".toList (by decide), by decide, by decide⟩

/-- A window in which the idle task runs and thread 12 changes its name. -/
def renamedWindow : List Row := [idleRow swapper, idleRow forked, idleRow renamed]

theorem windowTable_renamedWindow : WindowTable cpuScene 0 renamedWindow := by
  refine ⟨?_, by decide, by decide⟩
  intro r hr
  simp only [renamedWindow, List.mem_cons, List.not_mem_nil, or_false] at hr
  rcases hr with rfl | rfl | rfl
  · exact ⟨swapper, rfl, by decide, rowOf_idleRow _⟩
  · exact ⟨forked, rfl, by decide, rowOf_idleRow _⟩
  · exact ⟨renamed, rfl, by decide, rowOf_idleRow _⟩

/-- The CPUs of the idle task and of the old name are reserved for nobody. -/
theorem not_installs_renamedWindow :
    WindowTable cpuScene 0 renamedWindow ∧ (renamedWindow.map (·.threadKey)).Nodup ∧
      ¬ (∀ d ∈ (scheduleWindow intensitySort renamedWindow 4 (3 / 5) 32).1,
        Installs oneText (scheduleWindow intensitySort renamedWindow 4 (3 / 5) 32).1 d) ∧
      ((scheduleWindow intensitySort renamedWindow 4 (3 / 5) 32).1.map fun d => (d.pid, d.targetCpu,
          (Installs oneText (scheduleWindow intensitySort renamedWindow 4 (3 / 5) 32).1 d : Bool))) =
        [(0, 0, false), (12, 2, false), (12, 4, true)] :=
  ⟨windowTable_renamedWindow, by decide, by decide +kernel, by decide +kernel⟩

theorem installs_iff_renamedWindow :
    ∃ d ∈ (scheduleWindow intensitySort renamedWindow 4 (3 / 5) 32).1, d.targetCpu = 4 ∧
      (Installs oneText (scheduleWindow intensitySort renamedWindow 4 (3 / 5) 32).1 d ↔
        (0 < d.pid ∧ ∀ d' ∈ (scheduleWindow intensitySort renamedWindow 4 (3 / 5) 32).1,
          d'.pid = d.pid → d'.targetCpu ≤ d.targetCpu) ∧
        Admits 65536 ((accepted (scheduleWindow intensitySort renamedWindow 4 (3 / 5) 32).1).map
          Prod.fst) d.pid.toNat) := by
  refine ⟨(scheduleWindow intensitySort renamedWindow 4 (3 / 5) 32).1.get ⟨2, by decide +kernel⟩,
    List.get_mem _ _, by decide +kernel, ?_⟩
  exact installs_iff intensitySort 4 (3 / 5) 32 oneText (by decide) windowTable_renamedWindow _
    (List.get_mem _ _)

end Magm.Scx.Installed
