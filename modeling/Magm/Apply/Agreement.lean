import Magm.Apply.Affinity
import Magm.Scx.Decode

/-! # The two executors of a plan

`final_cpu_selection.csv` has the rows of all windows. The script of `Apply.Affinity` applies those
of the newest window; the loader of the scheduler enters all of them, one over the other. So a
thread that is not in the newest window keeps its old CPU in the map, where a thread of the newest
window may be by now. The executors agree exactly when no thread is missing there (`agree_iff`). -/

namespace Magm.Apply.Agreement

open Magm.Lib.Chars Magm.Lib.Sorting Magm.Lib.BoundedMap Magm.Table.Cells Magm.Table.Names
open Magm.Planner.Schedule Magm.Export.Selection Magm.Export.PlanFile
open Magm.Scx.Loader Magm.Scx.Decode Magm.Apply.Affinity

/-! ### The plans of the two executors -/

/-- The CPU the map of the scheduler has for a TID. -/
def installedCpu (text : Text) (tid : ℤ) : Option ℤ :=
  if 0 ≤ tid then ((loadedMap text).lookup tid.toNat).map Nat.cast else none

/-- The CPU the script binds a TID to in the newest window of a load type. -/
def boundCpu (text loadType : Text) (tid : ℤ) : Option ℤ :=
  ((readSelection text).bind fun df => chooseRows df (some loadType) "latest".toList).bind
    fun rows => lastVal tid (assignment rows)

/-- **The executors agree** on a plan file, and no two TIDs of the map share a CPU. -/
structure Agree (text loadType : Text) : Prop where
  same : ∀ tid, installedCpu text tid = boundCpu text loadType tid
  exclusive : ∀ tid tid' cpu, (loadedMap text).lookup tid = some cpu →
    (loadedMap text).lookup tid' = some cpu → tid = tid'

/-- A table of one load type as the exporter writes it, with names without commas. -/
structure SceneTable (scene : Scene) (plan : List PlanRow) : Prop where
  scene : ∀ r ∈ plan, r.thread.scene = scene
  sorted : plan.Pairwise fun r r' => selectionKey r.row ≤ selectionKey r'.row
  cpu_ne : plan.Pairwise fun r r' => r.row.windowId = r'.row.windowId → r.targetCpu ≠ r'.targetCpu
  pid_pos : ∀ r ∈ plan, 0 < r.pid
  plain : ∀ r ∈ plan, ',' ∉ r.thread.name.text

/-- The row is of the newest window. -/
def Newest (plan : List PlanRow) (r : PlanRow) : Prop :=
  ∀ r' ∈ plan, r'.row.windowId ≤ r.row.windowId

instance (plan : List PlanRow) (r : PlanRow) : Decidable (Newest plan r) := by
  unfold Newest; infer_instance

def newestRows (plan : List PlanRow) : List PlanRow := plan.filter fun r => Newest plan r

section Agreement
variable {scene : Scene} {plan : List PlanRow} {num : FloatText}

/-! ### Sorted tables -/

/-- Rows are in the order of their windows, and within a window in that of their CPUs. -/
theorem SceneTable.ascending (h : SceneTable scene plan) : plan.Pairwise fun r r' =>
    r.row.windowId < r'.row.windowId ∨
      r.row.windowId = r'.row.windowId ∧ r.targetCpu < r'.targetCpu := by
  refine (h.sorted.and h.cpu_ne).imp_of_mem fun {r r'} hr hr' hkey => ?_
  obtain ⟨hle, hne⟩ := hkey
  have hload : r.row.loadType = r'.row.loadType := by
    ext1
    rw [r.loadType, r'.loadType, h.scene r hr, h.scene r' hr']
  simp only [selectionKey, hload, Prod.Lex.toLex_le_toLex, lt_irrefl, true_and, false_or] at hle
  rcases hle with hlt | ⟨heq, hcpu⟩
  · exact Or.inl hlt
  · have hcpu_ne := hne heq
    have hc := r.core
    have hc' := r'.core
    have hs := r.slot
    have hs' := r'.slot
    refine Or.inr ⟨heq, ?_⟩
    unfold PlanRow.targetCpu at *
    omega

/-- The rows of the newest window are the last ones. -/
theorem SceneTable.split (h : SceneTable scene plan) :
    (plan.filter fun r => !decide (Newest plan r)) ++ newestRows plan = plan := by
  refine filter_not_append_filter (h.ascending.imp fun {r r'} hlt hr => ?_)
  rw [decide_eq_true_eq] at hr ⊢
  intro x hx
  have := hr x hx
  omega

theorem mem_newestRows {r : PlanRow} : r ∈ newestRows plan ↔ r ∈ plan ∧ Newest plan r := by
  unfold newestRows
  rw [List.mem_filter, decide_eq_true_eq]

/-! ### What the script applies -/

/-- The row of a plan as the script reads it. -/
def entry (r : PlanRow) : PlanEntry := entryOf r.row

theorem loadType_entry (r : PlanRow) : (entry r).loadType.val = some r.thread.scene.text :=
  r.loadType

/-- All rows are of one scene. -/
theorem loadType_entry_eq (h : SceneTable scene plan) {r r' : PlanRow} (hr : r ∈ plan)
    (hr' : r' ∈ plan) : (entry r).loadType = (entry r').loadType := by
  ext1
  rw [loadType_entry, loadType_entry, h.scene r hr, h.scene r' hr']

theorem latest_entry (h : SceneTable scene plan) {r : PlanRow} (hr : r ∈ plan) :
    latest (plan.map entry) (entry r) = some r.row.windowId ↔ Newest plan r := by
  have hall : (plan.map entry).filter (fun r' => r'.loadType = (entry r).loadType) =
      plan.map entry := by
    refine List.filter_eq_self.mpr fun e he => ?_
    obtain ⟨r', hr', rfl⟩ := List.mem_map.mp he
    simpa using loadType_entry_eq h hr' hr
  unfold latest
  rw [loadType_entry, Option.bind_some, hall, List.max?_eq_some_iff, List.map_map]
  simp only [List.mem_map, Function.comp_apply]
  constructor
  · rintro ⟨-, hmax⟩ r' hr'
    exact hmax _ ⟨r', hr', rfl⟩
  · intro hmax
    refine ⟨⟨r, hr, rfl⟩, ?_⟩
    rintro _ ⟨r', hr', rfl⟩
    exact hmax r' hr'

/-- The rows of a scene are all the rows. -/
theorem ofLoadType_entry (h : SceneTable scene plan) :
    ofLoadType (plan.map entry) (some scene.text) = plan.map entry := by
  have hne : scene.text ≠ [] := by
    intro hnil
    exact scene.read (by rw [hnil]; exact Cell.nil_mem_missingTokens)
  unfold ofLoadType
  simp only
  rw [if_neg hne]
  refine List.filter_eq_self.mpr fun e he => ?_
  obtain ⟨r, hr, rfl⟩ := List.mem_map.mp he
  rw [Cell.str, loadType_entry, Option.getD_some, h.scene r hr, decide_eq_true_eq]

/-- The rows of the newest window are sorted as `choose_rows` sorts them. -/
theorem newestRows_ascending (h : SceneTable scene plan) :
    ((newestRows plan).map entry).Pairwise fun a b => entryKey a ≤ entryKey b := by
  rw [List.pairwise_map]
  refine (h.ascending.filter _).imp_of_mem fun {r r'} hr hr' hlt => ?_
  have hsame := loadType_entry_eq h (List.mem_filter.mp hr).1 (List.mem_filter.mp hr').1
  simp only [entryKey, hsame, Prod.Lex.toLex_le_toLex, lt_irrefl, true_and, false_or]
  refine hlt.imp id fun hcpu => ⟨hcpu.1, ?_⟩
  exact Int.ofNat_le.mpr hcpu.2.le

/-- **The chosen rows** are those of the newest window. -/
theorem chooseRows_latest (h : SceneTable scene plan) :
    chooseRows (plan.map entry) (some scene.text) "latest".toList =
      some ((newestRows plan).map entry) := by
  have hfilter : (plan.map entry).filter (fun e => latest (plan.map entry) e = some e.windowId) =
      (newestRows plan).map entry := by
    rw [List.filter_map, newestRows]
    congr 1
    refine List.filter_congr fun r hr => ?_
    exact decide_eq_decide.mpr (latest_entry h hr)
  unfold chooseRows
  simp only [ofLoadType_entry h]
  by_cases hnil : plan = []
  · subst hnil
    rfl
  · rw [if_neg (by simpa using hnil), if_pos trivial, hfilter,
      sortBy_eq_self _ (newestRows_ascending h)]

theorem assignment_entry (rows : List PlanRow) :
    assignment (rows.map entry) =
      (pidRows rows).map fun p => ((p.1 : ℤ), (p.2 : ℤ)) := by
  unfold assignment pidRows
  rw [List.filterMap_map, List.map_map, ← List.filterMap_eq_map]
  refine List.filterMap_congr fun r _ => ?_
  rw [Function.comp_apply, parseThreadKey_key r.thread (c := (entry r).threadKey) r.key]
  rfl

theorem boundCpu_eq (h : SceneTable scene plan) (tid : ℤ) :
    boundCpu (planCsv num plan) scene.text tid =
      lastVal tid ((pidRows (newestRows plan)).map fun p => ((p.1 : ℤ), (p.2 : ℤ))) := by
  have hread : readSelection (planCsv num plan) = some (plan.map entry) := by
    unfold planCsv
    rw [readSelection_selectionCsv, List.map_map]
    rfl
  unfold boundCpu
  rw [hread, Option.bind_some, chooseRows_latest h, Option.bind_some, assignment_entry]

/-- The CPU the script binds a TID to. -/
theorem boundCpu_natCast (h : SceneTable scene plan) (tid : ℕ) :
    boundCpu (planCsv num plan) scene.text tid =
      (lastVal tid (pidRows (newestRows plan))).map Nat.cast := by
  rw [boundCpu_eq h]
  exact lastVal_map Nat.cast_injective Nat.cast tid _

theorem boundCpu_of_neg (h : SceneTable scene plan) {tid : ℤ} (hneg : tid < 0) :
    boundCpu (planCsv num plan) scene.text tid = none := by
  rw [boundCpu_eq h, lastVal_eq_none, List.map_map]
  intro hmem
  obtain ⟨p, -, rfl⟩ := List.mem_map.mp hmem
  simp only [Function.comp_apply] at hneg
  omega

/-! ### The condition -/

/-- A thread of the table is entered exactly when it has a row in the newest window. -/
def EnteredNewest (plan : List PlanRow) : Prop :=
  ∀ r ∈ plan, Admits 65536 (plan.map PlanRow.pid) r.pid ↔
    ∃ r' ∈ plan, Newest plan r' ∧ r'.pid = r.pid

theorem installedCpu_natCast (h : SceneTable scene plan) (tid : ℕ) :
    installedCpu (planCsv num plan) tid = (planCpu (pidRows plan) tid).map Nat.cast := by
  unfold installedCpu
  rw [if_pos (Int.natCast_nonneg _), Int.toNat_natCast, lookup_planCsv,
    spelledRows_of_notMem h.pid_pos h.plain]

theorem same_iff (h : SceneTable scene plan) :
    (∀ tid, installedCpu (planCsv num plan) tid = boundCpu (planCsv num plan) scene.text tid) ↔
      ∀ tid, planCpu (pidRows plan) tid = lastVal tid (pidRows (newestRows plan)) := by
  have hinj : Function.Injective (Option.map (Nat.cast : ℕ → ℤ)) :=
    Option.map_injective Nat.cast_injective
  constructor
  · intro hsame tid
    have htid := hsame tid
    rw [installedCpu_natCast h, boundCpu_natCast h] at htid
    exact hinj htid
  · intro hsame tid
    rcases lt_or_ge tid 0 with hneg | hpos
    · rw [boundCpu_of_neg h hneg, installedCpu, if_neg (by omega)]
    · obtain ⟨n, rfl⟩ := Int.eq_ofNat_of_zero_le hpos
      rw [installedCpu_natCast h, boundCpu_natCast h, hsame]

theorem mem_pidRows_newest {tid : ℕ} : tid ∈ (pidRows (newestRows plan)).map Prod.fst ↔
    ∃ r ∈ plan, Newest plan r ∧ r.pid = tid := by
  rw [pidRows_fst, List.mem_map]
  simp only [mem_newestRows, and_assoc]

/-- A thread of the newest window has its last row there. -/
theorem lastVal_newest (h : SceneTable scene plan) {tid : ℕ}
    (hin : ∃ r ∈ plan, Newest plan r ∧ r.pid = tid) :
    lastVal tid (pidRows plan) = lastVal tid (pidRows (newestRows plan)) := by
  have hsplit : pidRows plan =
      pidRows (plan.filter fun r => !decide (Newest plan r)) ++ pidRows (newestRows plan) := by
    unfold pidRows
    rw [← List.map_append, h.split]
  rw [hsplit, lastVal_append_of_mem (mem_pidRows_newest.mpr hin)]

theorem same_iff_entered (h : SceneTable scene plan) :
    (∀ tid, planCpu (pidRows plan) tid = lastVal tid (pidRows (newestRows plan))) ↔
      EnteredNewest plan := by
  have hnewest : ∀ tid, lastVal tid (pidRows (newestRows plan)) ≠ none ↔
      ∃ r ∈ plan, Newest plan r ∧ r.pid = tid := by
    intro tid
    rw [Ne, lastVal_eq_none, not_not, mem_pidRows_newest]
  constructor
  · intro hsame r _
    rw [← pidRows_fst, ← planCpu_ne_none_iff, hsame, hnewest]
  · intro hcond tid
    by_cases hin : ∃ r ∈ plan, Newest plan r ∧ r.pid = tid
    · have hadm : Admits 65536 ((pidRows plan).map Prod.fst) tid := by
        rw [pidRows_fst]
        obtain ⟨r, hr, hnew, rfl⟩ := hin
        exact (hcond r hr).mpr ⟨r, hr, hnew, rfl⟩
      rw [planCpu, if_pos hadm, lastVal_newest h hin]
    · have hnone : lastVal tid (pidRows (newestRows plan)) = none := by
        by_contra hne
        exact hin ((hnewest tid).mp hne)
      rw [hnone, planCpu, if_neg]
      intro hadm
      rw [pidRows_fst] at hadm
      obtain ⟨r, hr, rfl⟩ := List.mem_map.mp hadm.1
      exact hin ((hcond r hr).mp hadm)

/-- Within the newest window no CPU is given twice. -/
theorem nodup_newestRows (h : SceneTable scene plan) :
    ((newestRows plan).map PlanRow.targetCpu).Nodup := by
  rw [List.Nodup, List.pairwise_map]
  refine (h.ascending.filter _).imp_of_mem fun {r r'} hr hr' hlt => ?_
  obtain ⟨hmem, hnew⟩ := mem_newestRows.mp hr
  obtain ⟨hmem', hnew'⟩ := mem_newestRows.mp hr'
  have hwin : r.row.windowId = r'.row.windowId := le_antisymm (hnew' r hmem) (hnew r' hmem')
  omega

theorem newest_exclusive (h : SceneTable scene plan) {tid tid' cpu : ℕ}
    (h1 : lastVal tid (pidRows (newestRows plan)) = some cpu)
    (h2 : lastVal tid' (pidRows (newestRows plan)) = some cpu) : tid = tid' := by
  obtain ⟨r, hr, hrow⟩ := List.mem_map.mp (mem_of_lastVal h1)
  obtain ⟨r', hr', hrow'⟩ := List.mem_map.mp (mem_of_lastVal h2)
  rw [Prod.mk.injEq] at hrow hrow'
  have hsame : r = r' :=
    List.inj_on_of_nodup_map (nodup_newestRows h) hr hr' (hrow.2.trans hrow'.2.symm)
  rw [← hrow.1, ← hrow'.1, hsame]

theorem agree_iff_entered (h : SceneTable scene plan) :
    Agree (planCsv num plan) scene.text ↔ EnteredNewest plan := by
  rw [← same_iff_entered h]
  constructor
  · exact fun hagree => (same_iff h).mp hagree.same
  · intro hsame
    have hlookup : ∀ tid, (loadedMap (planCsv num plan)).lookup tid =
        lastVal tid (pidRows (newestRows plan)) := by
      intro tid
      rw [lookup_planCsv, spelledRows_of_notMem h.pid_pos h.plain, hsame]
    refine ⟨(same_iff h).mpr hsame, fun tid tid' cpu h1 h2 => ?_⟩
    rw [hlookup] at h1 h2
    exact newest_exclusive h h1 h2

/-- With room for all threads only those that have left the newest window are in the way. -/
theorem enteredNewest_iff (hcard : (plan.map PlanRow.pid).toFinset.card ≤ 65536) :
    EnteredNewest plan ↔ ∀ r ∈ plan, ∃ r' ∈ plan, Newest plan r' ∧ r'.pid = r.pid := by
  refine forall₂_congr fun r hr => ?_
  have hadm : Admits 65536 (plan.map PlanRow.pid) r.pid :=
    admits_of_card_le hcard (List.mem_map.mpr ⟨r, hr, rfl⟩)
  exact ⟨fun hcond => hcond.mp hadm, fun hin => ⟨fun _ => hin, fun _ => hadm⟩⟩

/-- **When the two executors agree**: exactly when the threads entered in the map are those of the
newest window; while the map has room, when every thread of the table is in the newest window. -/
theorem agree_iff (h : SceneTable scene plan) :
    (Agree (planCsv num plan) scene.text ↔ EnteredNewest plan) ∧
      ((plan.map PlanRow.pid).toFinset.card ≤ 65536 →
        (Agree (planCsv num plan) scene.text ↔
          ∀ r ∈ plan, ∃ r' ∈ plan, Newest plan r' ∧ r'.pid = r.pid)) :=
  ⟨agree_iff_entered h, fun hcard => (agree_iff_entered h).trans (enteredNewest_iff hcard)⟩

end Agreement

/-! ### A thread that has ended -/

/-- The row of a thread that is alone in window `w` of a machine with one core. -/
def aloneIn (w : ℤ) (hw : -2 ^ 63 ≤ w ∧ w < 2 ^ 63) (t : Thread) : PlanRow :=
  { soloRow t with
    row := { soloSelection t with windowId := w }
    window_range := hw }

def worker (pid : ℕ) (h : pid < 2 ^ 31) : Thread :=
  ⟨cpuScene, pid, Comm.worker, h, by decide⟩

/-- Thread 5 runs alone in window 0, thread 6 in window 1. -/
def twoWindows : List PlanRow :=
  [aloneIn 0 (by decide) (worker 5 (by decide)), aloneIn 1 (by decide) (worker 6 (by decide))]

theorem sceneTable_twoWindows : SceneTable cpuScene twoWindows := by
  have hmem : ∀ r ∈ twoWindows,
      r.thread = worker 5 (by decide) ∨ r.thread = worker 6 (by decide) := by
    intro r hr
    simp only [twoWindows, List.mem_cons, List.not_mem_nil, or_false] at hr
    rcases hr with rfl | rfl
    · exact Or.inl rfl
    · exact Or.inr rfl
  refine ⟨fun r hr => ?_, by decide, by decide, by decide, fun r hr => ?_⟩
  · rcases hmem r hr with h | h <;> rw [h] <;> rfl
  · rcases hmem r hr with h | h <;> rw [h] <;> decide

/-- Thread 5 keeps CPU 0 in the map, and thread 6 has it too. -/
theorem not_agree_twoWindows : SceneTable cpuScene twoWindows ∧
    (loadedMap (planCsv oneText twoWindows)).lookup 5 = some 0 ∧
      (loadedMap (planCsv oneText twoWindows)).lookup 6 = some 0 ∧
      boundCpu (planCsv oneText twoWindows) cpuScene.text 5 = none ∧
      ¬ Agree (planCsv oneText twoWindows) cpuScene.text := by
  have h5 : (loadedMap (planCsv oneText twoWindows)).lookup 5 = some 0 := by decide +kernel
  have h6 : (loadedMap (planCsv oneText twoWindows)).lookup 6 = some 0 := by decide +kernel
  refine ⟨sceneTable_twoWindows, h5, h6, by decide +kernel, fun h => ?_⟩
  exact absurd (h.exclusive 5 6 0 h5 h6) (by decide)

theorem agree_iff_twoWindows :
    (Agree (planCsv oneText twoWindows) cpuScene.text ↔ EnteredNewest twoWindows) ∧
      ((twoWindows.map PlanRow.pid).toFinset.card ≤ 65536 →
        (Agree (planCsv oneText twoWindows) cpuScene.text ↔
          ∀ r ∈ twoWindows, ∃ r' ∈ twoWindows, Newest twoWindows r' ∧ r'.pid = r.pid)) :=
  agree_iff sceneTable_twoWindows

end Magm.Apply.Agreement
