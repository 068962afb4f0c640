import Magm.Collect.CpuCsv
import Magm.Features.Conservation

/-! # What the thread windows measure

From the two collectors to `thread_windows.csv`. A session is a run of both collectors for a scene:
the switches on all CPUs in any interleaving with the collector of the log, and the reads of the
counters round by round. Both files are read back, the samples attributed, the scenes merged and the
windows summed; in the end a window has exactly the values that were read on a CPU while its thread
was the last one in the log of that CPU (`measured_of_sessions`). -/

namespace Magm.Pipeline.Measurement

open Magm.Lib.Buffer Magm.Lib.Chars Magm.Lib.Sorting Magm.Table.Cells Magm.Table.Names
open Magm.Collect.SwitchLog Magm.Collect.Attribution Magm.Collect.Collector
open Magm.Collect.SchedCsv Magm.Collect.Collected Magm.Collect.CpuCsv
open Magm.Collect.Counters (EventIds Reads maxCpus AllClean slots samples collect complete
  cacheSilent tenEvents)
open Magm.Features.Dataset Magm.Features.ThreadWindows
open Magm.Features.Conservation hiding oneSwitch

/-- A run of both collectors for a scene. The files can be opened, the names and times of the
switches are read back as they are, and no read of the counters leaves a stale record. -/
structure Session where
  name : Text
  read : name ∉ missingTokens
  k : ℕ
  data : Bytes
  acts : List Act
  system : System
  ran : run k (start data headerLine) acts = some system
  opens : ∀ a ∈ acts, a ≠ .collect false
  survives : ∀ n ∈ system.notes, Survives n.event
  ids : EventIds
  reads : Reads ids
  ns : ℕ → ℕ
  time : ∀ round, ns round < 2 ^ 63
  opened : ℕ → Bool
  rounds : ℕ
  cpuCount : ℕ
  cpus : cpuCount ≤ maxCpus
  buf : Bytes
  clean : AllClean reads (slots (samples rounds cpuCount)) buf

namespace Session

/-- The files that the session leaves, as the scripts read them. -/
def scene (x : Session) : Option SceneData := do
  let samples ← readCpu (cpuCsv x.ns (collect x.reads x.opened x.rounds x.cpuCount x.buf).1)
  let sched ← readSched x.system.csv
  return ⟨x.name, x.read, samples, sched⟩

/-- The rounds and CPUs that got a line. -/
def points (x : Session) : List (ℕ × ℕ) :=
  ((samples x.rounds x.cpuCount).takeWhile (complete x.reads)).filter fun p => x.opened p.1

/-- The pid and the name that the CPU has last switched to, among the switches in the log. -/
def runner (x : Session) (p : ℕ × ℕ) : Option (ℤ × Text) :=
  ((logged x.system).filter fun n => n.cpu = p.2 ∧ n.event.ts ≤ x.ns p.1).getLast?.map
    fun n => (n.ctx.nextPid, n.ctx.nextName.comm.text)

/-- The window of a thread that the values of a point count for. -/
def pointGroup (windowNs : ℤ) (x : Session) (p : ℕ × ℕ) : Option Group :=
  (x.runner p).map fun t => ⟨x.name, t.1, t.2, (x.ns p.1 : ℤ).fdiv windowNs⟩

end Session

/-- The values that were read for a window of a thread. -/
def measured (sessions : List Session) (windowNs : ℤ) (g : Group) (e : Event) : ℕ :=
  (sessions.map fun x => ((x.points.filter fun p => x.pointGroup windowNs p = some g).map
    fun p => counter x.reads p e).sum).sum

/-- **The windows measure the sessions**: one window for every thread and time with instructions
and cycles, and in it the values that were read. -/
structure Measured (sessions : List Session) (windowNs : ℤ) (out : List ThreadWindow) : Prop where
  unique : (out.map fun w => w.sum.group).Nodup
  counters : ∀ w ∈ out, ∀ e, w.sum.counters e = measured sessions windowNs w.sum.group e
  groups : ∀ g, (∃ w ∈ out, w.sum.group = g) ↔
    0 < measured sessions windowNs g .instructions ∧ 0 < measured sessions windowNs g .cpuCycles

/-! ### The scene of a session -/

namespace Session

variable (x : Session)

/-- The samples and the records of the session. -/
def recorded : SceneData where
  name := x.name
  read := x.read
  samples := collected x.reads x.ns x.opened x.rounds x.cpuCount
  sched := (logged x.system).map fun n => eventRow n.event

/-- **Both files are read back.** -/
theorem scene_eq : x.scene = some x.recorded := by
  obtain ⟨-, hsched, -⟩ := readSched_logged x.ran x.opens x.survives
  have hcpu := readCpu_collect x.time x.opened x.rounds x.cpus x.clean
  simp only [scene, hcpu, hsched, Option.bind_eq_bind, Option.bind_some]
  rfl

theorem complete_recorded : ∀ r ∈ x.recorded.sched, Complete r := by
  intro r hr
  obtain ⟨n, hn, rfl⟩ := List.mem_map.mp hr
  have hsurvives := x.survives n (List.mem_of_mem_take hn)
  exact ⟨⟨_, rfl, hsurvives.2.2.2⟩, ⟨_, rfl⟩⟩

/-- The scripts give a sample to the thread that its CPU has last switched to. -/
theorem runs_sample (p : ℕ × ℕ) : runs x.recorded (sample x.reads x.ns p) = x.runner p := by
  obtain ⟨-, -, hasc⟩ := readSched_logged x.ran x.opens x.survives
  have hbefore : ((logged x.system).filter fun n => Before n (sample x.reads x.ns p)) =
      (logged x.system).filter fun n => n.cpu = p.2 ∧ n.event.ts ≤ x.ns p.1 := by
    refine List.filter_congr fun n _ => decide_eq_decide.mpr ?_
    exact and_congr Int.ofNat_inj Int.ofNat_le
  unfold runs runner
  rw [recorded, attributed_notes _ hasc, hbefore]
  cases ((logged x.system).filter fun n => n.cpu = p.2 ∧ n.event.ts ≤ x.ns p.1).getLast? <;> rfl

theorem sampleGroup_sample (windowNs : ℤ) (p : ℕ × ℕ) :
    sampleGroup windowNs x.recorded (sample x.reads x.ns p) = x.pointGroup windowNs p := by
  rw [sampleGroup, runs_sample]
  rfl

/-- The samples of a group are those of its points. -/
theorem counted_members (windowNs : ℤ) (g : Group) (e : Event) :
    counted e (members windowNs g x.recorded) =
      ((x.points.filter fun p => x.pointGroup windowNs p = some g).map
        fun p => counter x.reads p e).sum := by
  have hsamples : x.recorded.samples = x.points.map (sample x.reads x.ns) := rfl
  rw [counted, members, hsamples, List.filter_map, List.map_map]
  simp only [Function.comp_def, sampleGroup_sample]
  rfl

end Session

theorem groupTotal_recorded (sessions : List Session) (windowNs : ℤ) (g : Group) (e : Event) :
    groupTotal (sessions.map Session.recorded) windowNs g e = measured sessions windowNs g e := by
  rw [groupTotal, measured, List.map_map]
  exact congrArg List.sum (List.map_congr_left fun x _ => x.counted_members windowNs g e)

/-! ### The windows of the sessions -/

/-- A group with instructions has a sample. -/
theorem exists_sample_of_kept {scenes : List SceneData} {windowNs : ℤ} {g : Group}
    (h : Kept scenes windowNs g) :
    ∃ scene ∈ scenes, ∃ s ∈ scene.samples, sampleGroup windowNs scene s = some g := by
  obtain ⟨_, hn, hne⟩ := List.exists_mem_ne_zero_of_sum_ne_zero h.1.ne'
  obtain ⟨scene, hscene, rfl⟩ := List.mem_map.mp hn
  obtain ⟨_, hn, -⟩ := List.exists_mem_ne_zero_of_sum_ne_zero hne
  obtain ⟨s, hs, rfl⟩ := List.mem_map.mp hn
  obtain ⟨hs, hg⟩ := List.mem_filter.mp hs
  exact ⟨scene, hscene, s, hs, of_decide_eq_true hg⟩

/-- **The thread windows measure the sessions** they come from. -/
theorem measured_of_sessions (sessions : List Session) (windowNs : ℤ) :
    ∃ scenes, sessions.mapM Session.scene = some scenes ∧
      Measured sessions windowNs (rawWindows (loadFullDataset (mergeResults scenes)) windowNs) := by
  have hscenes : sessions.mapM Session.scene = some (sessions.map Session.recorded) := by
    rw [mapM_eq_some_iff, List.map_map]
    exact List.map_congr_left fun x _ => x.scene_eq
  have hcomplete : ∀ scene ∈ sessions.map Session.recorded, ∀ r ∈ scene.sched, Complete r := by
    intro scene hscene
    obtain ⟨x, -, rfl⟩ := List.mem_map.mp hscene
    exact x.complete_recorded
  refine ⟨_, hscenes, ?_, fun w hw e => ?_, fun g => ?_⟩
  · have hkeys := nodup_rawWindows
      (loadFullDataset (mergeResults (sessions.map Session.recorded))) windowNs
    rw [List.Nodup, List.pairwise_map] at hkeys ⊢
    exact hkeys.imp_of_mem fun hw hw' hne hg =>
      hne (key_of_group (mem_rawWindows hw).1 (mem_rawWindows hw').1 hg)
  · rw [← groupTotal_recorded]
    exact sums_aggregate hcomplete (mem_rawWindows hw).1 e
  · rw [← groupTotal_recorded, ← groupTotal_recorded]
    constructor
    · rintro ⟨w, hw, rfl⟩
      exact (ran_iff hcomplete (mem_rawWindows hw).1).mp (mem_rawWindows hw).2
    · intro hkept
      obtain ⟨scene, hscene, s, hs, hg⟩ := exists_sample_of_kept hkept
      exact exists_window_of_sample hcomplete hscene hs hg hkept

theorem measured_of_sessions_cacheSilent : ∃ (x : Session) (scenes : List SceneData),
    x.points = [(0, 0)] ∧ x.runner (0, 0) = some (4, "b".toList) ∧
      [x].mapM Session.scene = some scenes ∧
      Measured [x] 10 (rawWindows (loadFullDataset (mergeResults scenes)) 10) := by
  obtain ⟨s, hs, hsurvives, hlogged⟩ := run_loggedSwitch
  let x : Session :=
    { name := cpuScene.text
      read := cpuScene.read
      k := 8
      data := fun _ => 0
      acts := loggedSwitch
      system := s
      ran := hs
      opens := by simp [loggedSwitch]
      survives := hsurvives
      ids := tenEvents
      reads := cacheSilent
      ns := fun _ => 9
      time := fun _ => by decide
      opened := fun _ => true
      rounds := 1
      cpuCount := 1
      cpus := by decide
      buf := fun _ => 0
      clean := allClean_cacheSilent }
  have hpoints : ((samples 1 1).takeWhile (complete cacheSilent)).filter (fun _ => true) =
      [(0, 0)] := by decide
  have hsched : x.recorded.sched = [eventRow (oneSwitch.event 0 7)] := hlogged
  have hrunner : x.runner (0, 0) = some (4, "b".toList) := by
    rw [← x.runs_sample, runs, hsched]
    rfl
  obtain ⟨scenes, hscenes, hmeasured⟩ := measured_of_sessions [x] 10
  exact ⟨x, scenes, hpoints, hrunner, hscenes, hmeasured⟩

end Magm.Pipeline.Measurement
