import Magm.Export.PlanFile

/-! # The loader decodes what the exporter encodes

The loader should enter every pid of a plan with the CPU of its last row, and nothing else
(`Decodes`). What it enters is the TIDs that the rows spell (`Export.PlanFile.spelled`), so it does
exactly when these are the pids and their last rows agree (`decodes_iff`). Without commas in the
names every row spells its pid, and only the size of the map is left. -/

namespace Magm.Scx.Decode

open Magm.Lib.Chars Magm.Lib.BoundedMap Magm.Table.Cells Magm.Table.Names
open Magm.Export.Selection Magm.Export.PlanFile Magm.Scx.Loader

/-- The pids of a plan with their CPUs. -/
def pidRows (plan : List PlanRow) : List (ℕ × ℕ) := plan.map fun r => (r.pid, r.targetCpu)

/-- The TIDs the rows of a plan spell, with their CPUs. -/
def spelledRows (plan : List PlanRow) : List (ℕ × ℕ) := plan.filterMap spelledRow

/-- The loaded map holds every pid with the CPU of its last row, and nothing else. -/
def Decodes (num : FloatText) (plan : List PlanRow) : Prop :=
  ∀ tid, (loadedMap (planCsv num plan)).lookup tid = lastVal tid (pidRows plan)

section Decode
variable {plan : List PlanRow} (num : FloatText)

theorem lookup_planCsv (plan : List PlanRow) (tid : ℕ) :
    (loadedMap (planCsv num plan)).lookup tid = planCpu (spelledRows plan) tid :=
  lookup_loadedMap (planRows_planCsv num plan) tid

theorem pidRows_fst (plan : List PlanRow) : (pidRows plan).map Prod.fst = plan.map PlanRow.pid := by
  simp [pidRows, Function.comp_def]

/-- The TIDs the loader enters. -/
def Entered (plan : List PlanRow) (tid : ℕ) : Prop :=
  Admits 65536 ((spelledRows plan).map Prod.fst) tid

theorem planCpu_ne_none_iff {rows : List (ℕ × ℕ)} {tid : ℕ} :
    planCpu rows tid ≠ none ↔ Admits 65536 (rows.map Prod.fst) tid := by
  unfold planCpu
  by_cases h : Admits 65536 (rows.map Prod.fst) tid
  · rw [if_pos h]
    exact iff_of_true (fun hn => lastVal_eq_none.mp hn h.1) h
  · rw [if_neg h]
    exact iff_of_false (fun hn => hn rfl) h

/-- A name without a comma spells the pid, and the loader skips pid 0. -/
theorem spelledRow_eq {r : PlanRow} (h : ',' ∉ r.thread.name.text) :
    spelledRow r = if 0 < r.pid then some (r.pid, r.targetCpu) else none := by
  unfold spelledRow spelled spelledTid
  rw [if_neg h, Option.bind_some]
  by_cases hpid : 0 < r.pid
  · have hz : (0 : ℤ) < r.thread.pid := Int.natCast_pos.mpr hpid
    rw [if_pos hz, if_pos hpid]
    rfl
  · have hz : ¬ (0 : ℤ) < r.thread.pid := fun hz => hpid (Int.natCast_pos.mp hz)
    rw [if_neg hz, if_neg hpid]
    rfl

theorem spelledRows_of_notMem (hpid : ∀ r ∈ plan, 0 < r.pid)
    (h : ∀ r ∈ plan, ',' ∉ r.thread.name.text) : spelledRows plan = pidRows plan := by
  unfold spelledRows pidRows
  rw [← List.filterMap_eq_map]
  exact List.filterMap_congr fun r hr => (spelledRow_eq (h r hr)).trans (if_pos (hpid r hr))

/-- The condition: the TIDs entered are the pids of the plan, and for each of them the last row that
spells it and the last row with this pid have one CPU. -/
def SpellsPids (plan : List PlanRow) : Prop :=
  (∀ tid, Entered plan tid ↔ ∃ r ∈ plan, r.pid = tid) ∧
    ∀ r ∈ plan, lastVal r.pid (spelledRows plan) = lastVal r.pid (pidRows plan)

theorem decodes_iff_spellsPids : Decodes num plan ↔ SpellsPids plan := by
  have hmem : ∀ tid, lastVal tid (pidRows plan) ≠ none ↔ ∃ r ∈ plan, r.pid = tid := by
    intro tid
    rw [Ne, lastVal_eq_none, not_not, pidRows_fst, List.mem_map]
  have hlook := lookup_planCsv num plan
  constructor
  · intro h
    have hplan : ∀ tid, planCpu (spelledRows plan) tid = lastVal tid (pidRows plan) := fun tid => by
      rw [← hlook, h tid]
    have hentered : ∀ tid, Entered plan tid ↔ ∃ r ∈ plan, r.pid = tid := fun tid => by
      rw [← hmem, ← hplan, planCpu_ne_none_iff, Entered]
    refine ⟨hentered, fun r hr => ?_⟩
    have hin : Admits 65536 ((spelledRows plan).map Prod.fst) r.pid := (hentered _).mpr ⟨r, hr, rfl⟩
    rw [← hplan, planCpu, if_pos hin]
  · rintro ⟨hentered, hlast⟩ tid
    rw [hlook]
    by_cases hin : ∃ r ∈ plan, r.pid = tid
    · have hadm : Admits 65536 ((spelledRows plan).map Prod.fst) tid := (hentered tid).mpr hin
      obtain ⟨r, hr, rfl⟩ := hin
      rw [planCpu, if_pos hadm, hlast r hr]
    · have hnone : planCpu (spelledRows plan) tid = none := by
        by_contra hne
        exact hin ((hentered tid).mp (planCpu_ne_none_iff.mp hne))
      rw [hnone]
      by_contra hne
      exact hin ((hmem tid).mp (Ne.symm hne))

theorem spellsPids_iff_card (hpid : ∀ r ∈ plan, 0 < r.pid)
    (h : ∀ r ∈ plan, ',' ∉ r.thread.name.text) :
    SpellsPids plan ↔ (plan.map PlanRow.pid).toFinset.card ≤ 65536 := by
  have hrows := spelledRows_of_notMem hpid h
  unfold SpellsPids Entered
  rw [hrows, pidRows_fst, ← forall_admits_iff]
  constructor
  · intro hs tid htid
    exact (hs.1 tid).mpr (List.mem_map.mp htid)
  · intro hs
    refine ⟨fun tid => ⟨fun hadm => List.mem_map.mp hadm.1, fun hin => ?_⟩, fun r _ => rfl⟩
    exact hs tid (List.mem_map.mpr hin)

/-- **When the loader decodes a plan**, for any names: exactly when the TIDs it enters are the pids
and agree on the last CPU; for names without commas, exactly when the map has room for all pids. -/
theorem decodes_iff (hpid : ∀ r ∈ plan, 0 < r.pid) :
    (Decodes num plan ↔ SpellsPids plan) ∧
      ((∀ r ∈ plan, ',' ∉ r.thread.name.text) →
        (Decodes num plan ↔ (plan.map PlanRow.pid).toFinset.card ≤ 65536)) :=
  ⟨decodes_iff_spellsPids num, fun h =>
    (decodes_iff_spellsPids num).trans (spellsPids_iff_card hpid h)⟩

end Decode

/-! ### A name with a comma -/

/-- The row of a thread that is alone in window 0 of a machine with one core. -/
def soloSelection (t : Thread) : SelectionRow where
  loadType := t.loadType
  windowId := 0
  mode := .CE
  physicalCore := 0
  smtSlot := 0
  targetCpu := 0
  selectedThread := label t
  threadKey := t.threadKey
  pairedWith := Cell.missing
  score := none
  rho := 1
  nRun := 1

def soloRow (t : Thread) : PlanRow where
  row := soloSelection t
  thread := t
  loadType := rfl
  selected := rfl
  key := rfl
  partner := Or.inl rfl
  core := by simp [soloSelection]
  slot := by simp [soloSelection]
  window_range := by simp [soloSelection]
  cpu_lt := by simp [soloSelection]
  nRun_lt := by simp [soloSelection]

/-- How the ratio of such a row is printed. -/
def oneText : FloatText :=
  ⟨fun _ => "1.0".toList, fun _ => by decide, fun _ => by decide, fun _ => by decide⟩

/-- Thread 7 calls itself `x,pid=99`. -/
def commaThread : Thread :=
  ⟨cpuScene, 7, Comm.ofText "x,pid=99".toList (by decide), by decide, by decide⟩

/-- The loader enters TID 99 in place of TID 7. -/
theorem not_decodes_commaThread :
    (loadedMap (planCsv oneText [soloRow commaThread])).lookup 7 = none ∧
      (loadedMap (planCsv oneText [soloRow commaThread])).lookup 99 = some 0 ∧
      ¬ Decodes oneText [soloRow commaThread] := by
  have h7 : (loadedMap (planCsv oneText [soloRow commaThread])).lookup 7 = none := by decide +kernel
  have h99 : (loadedMap (planCsv oneText [soloRow commaThread])).lookup 99 = some 0 := by
    decide +kernel
  refine ⟨h7, h99, fun h => ?_⟩
  have hrow := h 7
  rw [h7] at hrow
  exact absurd hrow (by decide)

theorem decodes_iff_commaThread :
    (Decodes oneText [soloRow commaThread] ↔ SpellsPids [soloRow commaThread]) ∧
      ((∀ r ∈ [soloRow commaThread], ',' ∉ r.thread.name.text) →
        (Decodes oneText [soloRow commaThread] ↔
          ([soloRow commaThread].map PlanRow.pid).toFinset.card ≤ 65536)) :=
  decodes_iff oneText (by decide)

end Magm.Scx.Decode
