import Magm.Collect.Attribution

/-! # The dataset: `merge_results.py` and `load_full_dataset`

`merge_results.py` puts the `attr.csv` of all scenes under each other and adds the name of the scene
as `LoadType`; a scene without samples has no `attr.csv` and adds no rows either way.
`load_full_dataset` of `build_thread_windows.py` drops the rows with a missing cell. The times, CPUs
and counters of the samples are numbers and never missing. -/

namespace Magm.Features.Dataset

open Magm.Lib.Chars Magm.Lib.Sorting Magm.Table.Cells Magm.Collect.SwitchLog
open Magm.Collect.Attribution

/-- A directory of `stress-results` with what was collected for it. -/
structure SceneData where
  name : Text
  read : name ∉ missingTokens
  samples : List Sample
  sched : List SchedRow

/-- A row of `full_dataset.csv`. -/
structure MergedRow where
  ts : ℤ
  cpu : ℤ
  counters : Event → ℕ
  thread : Cell
  pid : Option ℤ
  loadType : Text

/-- The rows of one scene: `read_csv` of its `attr.csv`, with the `LoadType`. -/
def mergeScene (scene : SceneData) : List MergedRow :=
  (attrCsv scene.samples scene.sched).map fun r =>
    { ts := r.ts
      cpu := r.cpu
      counters := r.counters
      thread := Cell.ofCsv (r.thread.getD [])
      pid := r.pid
      loadType := scene.name }

/-- `merge_results.py`. -/
def mergeResults (scenes : List SceneData) : List MergedRow := scenes.flatMap mergeScene

/-- A row without missing cells. -/
structure DataRow where
  ts : ℤ
  cpu : ℤ
  counters : Event → ℕ
  thread : Text
  pid : ℤ
  loadType : Text

/-- A row of the file as `read_csv` and `dropna` leave it. -/
def loadRow (r : MergedRow) : Option DataRow :=
  match (Cell.ofCsv r.thread.toCsv).val, r.pid, (Cell.ofCsv r.loadType).val with
  | some thread, some pid, some loadType => some ⟨r.ts, r.cpu, r.counters, thread, pid, loadType⟩
  | _, _, _ => none

def loadFullDataset (rows : List MergedRow) : List DataRow := rows.filterMap loadRow

/-! ### The rows of a sample -/

/-- The record of a switch is read without missing cells. -/
structure Complete (r : SchedRow) : Prop where
  comm : ∃ t, r.nextComm = some t ∧ t ∉ missingTokens
  pid : ∃ p, r.nextPid = some p

/-- The thread of a sample: its pid and its name. -/
def runs (scene : SceneData) (s : Sample) : Option (ℤ × Text) :=
  match attributed scene.sched s with
  | (some thread, some pid) => some (pid, thread)
  | _ => none

/-- The row of a sample. -/
def dataRow (scene : SceneData) (s : Sample) : Option DataRow :=
  (runs scene s).map fun t => ⟨s.ts, s.cpu, s.counters, t.2, t.1, scene.name⟩

section Rows
variable {scene : SceneData} (h : ∀ r ∈ scene.sched, Complete r)
include h

/-- **A sample is attributed exactly when a record precedes it.** -/
theorem runs_ne_none_iff (s : Sample) : runs scene s ≠ none ↔ ∃ r ∈ scene.sched, Precedes r s := by
  unfold runs
  rcases attributed_eq scene.sched s with ⟨r, hr, hp, hat⟩ | ⟨hno, hat⟩
  · obtain ⟨t, ht, -⟩ := (h r hr).comm
    obtain ⟨p, hpid⟩ := (h r hr).pid
    rw [hat, ht, hpid]
    exact iff_of_true (by simp) ⟨r, hr, hp⟩
  · rw [hat]
    exact iff_of_false (by simp) fun ⟨r, hr, hp⟩ => hno r hr hp

/-- What the two files in between leave of a sample. -/
theorem loadRow_sample (s : Sample) :
    loadRow
        { ts := s.ts
          cpu := s.cpu
          counters := s.counters
          thread := Cell.ofCsv ((attributed scene.sched s).1.getD [])
          pid := (attributed scene.sched s).2
          loadType := scene.name } = dataRow scene s := by
  unfold loadRow dataRow runs
  simp only [Cell.ofCsv_toCsv, Cell.ofCsv_of_notMem scene.read]
  rcases attributed_eq scene.sched s with ⟨r, hr, -, hat⟩ | ⟨-, hat⟩
  · obtain ⟨t, ht, hread⟩ := (h r hr).comm
    obtain ⟨p, hpid⟩ := (h r hr).pid
    rw [hat, ht, hpid]
    simp only [Option.getD_some, Cell.ofCsv_of_notMem hread]
    rfl
  · rw [hat]
    simp only [Option.getD_none, Cell.ofCsv_of_mem Cell.nil_mem_missingTokens]
    rfl

theorem loadFullDataset_mergeScene :
    loadFullDataset (mergeScene scene) =
      (sortBy sampleKey scene.samples).filterMap (dataRow scene) := by
  unfold loadFullDataset mergeScene
  rw [attrCsv_eq, List.map_map, List.filterMap_map]
  exact List.filterMap_congr fun s _ => loadRow_sample h s

end Rows

/-- **The dataset is the attributed samples**, scene by scene. -/
theorem loadFullDataset_mergeResults : ∀ {scenes : List SceneData},
    (∀ scene ∈ scenes, ∀ r ∈ scene.sched, Complete r) →
      loadFullDataset (mergeResults scenes) =
        scenes.flatMap fun scene => (sortBy sampleKey scene.samples).filterMap (dataRow scene)
  | [], _ => rfl
  | scene :: scenes, h => by
    have hscene := h scene (by simp)
    have ih := loadFullDataset_mergeResults fun scene' hs => h scene' (List.mem_cons_of_mem _ hs)
    rw [List.flatMap_cons, ← ih, ← loadFullDataset_mergeScene hscene]
    unfold mergeResults loadFullDataset
    rw [List.flatMap_cons, List.filterMap_append]

end Magm.Features.Dataset
