import Magm.Collect.SwitchLog
import Magm.Lib.Sorting
import Mathlib.Algebra.Order.Ring.Int
import Mathlib.Data.Prod.Lex

/-! # Attribution: `find_last_thread`

The `run_*.py` scripts give every counter sample of `cpu.csv` the thread that was scheduled last on
its CPU: both tables are sorted by CPU and time, and a sample takes the name and the pid of the last
record on its CPU that is not later. A sample without such a record keeps an empty name and pid. -/

namespace Magm.Collect.Attribution

open Magm.Lib.Chars Magm.Lib.Sorting Magm.Collect.SwitchLog

/-- `RAW_EVENT_COLS`. -/
inductive Event
  | cpuCycles | instructions | cacheMisses | branchInstrs | branchMisses | l1IcacheMiss
  | l1DcacheMiss | itlbMisses | l2CacheMiss | dtlbMisses
  deriving DecidableEq

/-- A row of `cpu.csv`; `ts` is its column `time` as an `int64`. -/
structure Sample where
  ts : ℤ
  cpu : ℤ
  counters : Event → ℕ

/-- A row of `attr.csv`. -/
structure AttrRow where
  ts : ℤ
  cpu : ℤ
  counters : Event → ℕ
  thread : Option Text
  pid : Option ℤ

/-- The columns the switch log is sorted by; a missing CPU is last. -/
def schedKey (r : SchedRow) : WithTop ℤ ×ₗ ℤ := toLex ((r.cpu : WithTop ℤ), r.ts)

def sampleKey (s : Sample) : ℤ ×ₗ ℤ := toLex (s.cpu, s.ts)

/-- A record on the CPU of the sample that is not later. -/
def Precedes (r : SchedRow) (s : Sample) : Prop := r.cpu = some s.cpu ∧ r.ts ≤ s.ts

instance (r : SchedRow) (s : Sample) : Decidable (Precedes r s) := by
  unfold Precedes; infer_instance

/-- `find_last_thread` on the sorted log. -/
def findLastThread (schedDf : List SchedRow) (s : Sample) : Option Text × Option ℤ :=
  match (schedDf.filter fun r => Precedes r s).getLast? with
  | none => (none, none)
  | some last => (last.nextComm, last.nextPid)

/-- The thread a sample is given. -/
def attributed (sched : List SchedRow) (s : Sample) : Option Text × Option ℤ :=
  findLastThread (sortBy schedKey sched) s

/-- `attr.csv` of a scene. -/
def attrCsv (samples : List Sample) (sched : List SchedRow) : List AttrRow :=
  let cpuDf := sortBy sampleKey samples
  let schedDf := sortBy schedKey sched
  cpuDf.map fun s =>
    let last := findLastThread schedDf s
    ⟨s.ts, s.cpu, s.counters, last.1, last.2⟩

theorem attrCsv_eq (samples : List Sample) (sched : List SchedRow) :
    attrCsv samples sched = (sortBy sampleKey samples).map fun s =>
      ⟨s.ts, s.cpu, s.counters, (attributed sched s).1, (attributed sched s).2⟩ := rfl

/-- **What a sample is given** comes from a record that precedes it, if there is one. -/
theorem attributed_eq (sched : List SchedRow) (s : Sample) :
    (∃ r ∈ sched, Precedes r s ∧ attributed sched s = (r.nextComm, r.nextPid)) ∨
      (∀ r ∈ sched, ¬ Precedes r s) ∧ attributed sched s = (none, none) := by
  rcases h : ((sortBy schedKey sched).filter fun r => Precedes r s).getLast? with _ | last
  · have hat : attributed sched s = (none, none) := by
      rw [attributed, findLastThread, h]
    refine Or.inr ⟨fun r hr hp => ?_, hat⟩
    have hnil := List.getLast?_eq_none_iff.mp h
    exact List.filter_eq_nil_iff.mp hnil r ((mem_sortBy _ _).mpr hr) (decide_eq_true hp)
  · have hat : attributed sched s = (last.nextComm, last.nextPid) := by
      rw [attributed, findLastThread, h]
    have hmem := List.mem_filter.mp (List.mem_of_getLast? h)
    exact Or.inl ⟨last, (mem_sortBy _ _).mp hmem.1, of_decide_eq_true hmem.2, hat⟩

end Magm.Collect.Attribution
