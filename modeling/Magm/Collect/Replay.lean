import Magm.Collect.Attribution
import Mathlib.Logic.Function.Basic

/-! # Attribution as a replay of the switches

Every CPU runs one thread at a time: the one its last switch has switched to. `runningAt` replays
the switches up to an instant in time order. Whatever the order in which the records of the log
arrive, a sample is given the thread that runs on its CPU at its time (`attributed_running`). -/

namespace Magm.Collect.Replay

open Magm.Lib.Chars Magm.Lib.Sorting Magm.Collect.SwitchLog Magm.Collect.Attribution

/-! ### The machine -/

/-- A thread as a switch names it. -/
abbrev Named := Option Text × Option ℤ

/-- The thread on every CPU, as far as it is known. -/
abbrev Running := ℤ → Option Named

/-- The thread a record switches to. -/
def next (r : SchedRow) : Named := (r.nextComm, r.nextPid)

/-- A switch. A record without a CPU is no switch. -/
def switch (running : Running) (r : SchedRow) : Running :=
  match r.cpu with
  | none => running
  | some cpu => Function.update running cpu (some (next r))

/-- The CPUs after a sequence of switches. -/
def replay (log : List SchedRow) : Running := log.foldl switch fun _ => none

/-- What runs at the time `t`: all switches until `t` are replayed in time order. -/
def runningAt (sched : List SchedRow) (t : ℤ) : Running :=
  replay (sortBy (·.ts) (sched.filter fun r => r.ts ≤ t))

theorem switch_eq (running : Running) (r : SchedRow) (cpu : ℤ) :
    switch running r cpu = if r.cpu = some cpu then some (next r) else running cpu := by
  unfold switch
  rcases hr : r.cpu with _ | cpu'
  · simp
  · by_cases h : cpu = cpu'
    · simp [h]
    · simp [Function.update_of_ne h, Ne.symm h]

/-- **A CPU runs what its last switch has switched to.** -/
theorem foldl_switch (cpu : ℤ) : ∀ (log : List SchedRow) (running : Running),
    log.foldl switch running cpu =
      ((log.filter fun r => r.cpu = some cpu).getLast?.map next).or (running cpu)
  | [], _ => rfl
  | r :: log, running => by
    rw [List.foldl_cons, foldl_switch cpu log, switch_eq]
    by_cases h : r.cpu = some cpu
    · rw [List.filter_cons_of_pos (by simpa using h), if_pos h, List.getLast?_cons]
      cases (log.filter fun r => r.cpu = some cpu).getLast? <;> rfl
    · rw [List.filter_cons_of_neg (by simpa using h), if_neg h]

/-! ### The history of a CPU -/

/-- The records that precede a sample, as the attribution finds them. -/
def history (sched : List SchedRow) (s : Sample) : List SchedRow :=
  (sortBy schedKey sched).filter fun r => Precedes r s

theorem mem_history {sched : List SchedRow} {s : Sample} {r : SchedRow} :
    r ∈ history sched s ↔ r ∈ sched ∧ Precedes r s := by
  simp [history]

theorem attributed_history (sched : List SchedRow) (s : Sample) :
    attributed sched s = ((history sched s).getLast?.map next).getD (none, none) := by
  unfold attributed findLastThread history
  rcases ((sortBy schedKey sched).filter fun r => Precedes r s).getLast? with _ | last <;> rfl

section History
variable {sched : List SchedRow} (hd : (sched.map fun r => (r.cpu, r.ts)).Nodup) (s : Sample)
include hd

theorem nodup_schedKey : (sched.map schedKey).Nodup := by
  have hinj := hd.map (f := toLex) toLex.injective
  rwa [List.map_map] at hinj

/-- They are in time order, no two at one time. -/
theorem history_ascending : (history sched s).Pairwise fun r r' => r.ts < r'.ts := by
  have hne : (sortBy schedKey sched).Pairwise fun r r' => schedKey r ≠ schedKey r' :=
    List.pairwise_map.mp (((sortBy_perm schedKey sched).map schedKey).nodup_iff.mpr
      (nodup_schedKey hd))
  have hlt := ((sortBy_sorted schedKey sched).and hne).filter fun r => decide (Precedes r s)
  refine hlt.imp_of_mem fun {r r'} hr hr' h => ?_
  have hcpu : r.cpu = r'.cpu := (mem_history.mp hr).2.1.trans (mem_history.mp hr').2.1.symm
  rcases Prod.Lex.toLex_lt_toLex.mp (lt_of_le_of_ne h.1 h.2) with hlt | ⟨-, hlt⟩
  · have hne := ne_of_lt hlt
    exact absurd hcpu hne
  · exact hlt

/-- The replay of a CPU goes through its history. -/
theorem filter_replayed : (sortBy (·.ts) (sched.filter fun r => r.ts ≤ s.ts)).filter
    (fun r => r.cpu = some s.cpu) = history sched s := by
  have hfilter : (sched.filter fun r => r.ts ≤ s.ts).filter (fun r => r.cpu = some s.cpu) =
      sched.filter fun r => Precedes r s := by
    rw [List.filter_filter]
    refine List.filter_congr fun r _ => ?_
    rw [← Bool.decide_and]
    rfl
  have hreplayed := (sortBy_perm SchedRow.ts (sched.filter fun r => r.ts ≤ s.ts)).filter
    fun r => decide (r.cpu = some s.cpu)
  have hhistory := (sortBy_perm schedKey sched).filter fun r => decide (Precedes r s)
  have hperm := (hfilter ▸ hreplayed).trans hhistory.symm
  have hasc := history_ascending hd s
  have hts : ((history sched s).map (·.ts)).Nodup :=
    List.pairwise_map.mpr (hasc.imp fun h => ne_of_lt h)
  have hle : (history sched s).Pairwise fun r r' => r.ts ≤ r'.ts := hasc.imp fun h => h.le
  refine List.Perm.eq_of_pairwise (fun r r' hr hr' h h' => ?_)
    ((sortBy_sorted SchedRow.ts _).filter _) hle hperm
  exact List.inj_on_of_nodup_map hts (hperm.subset hr) hr' (le_antisymm h h')

theorem runningAt_eq : runningAt sched s.ts s.cpu = (history sched s).getLast?.map next := by
  rw [runningAt, replay, foldl_switch, filter_replayed hd, Option.or_none]

/-- The last record of the history is the latest that precedes the sample. -/
theorem latest_of_getLast? {r : SchedRow} (h : (history sched s).getLast? = some r) :
    r ∈ sched ∧ Precedes r s ∧ ∀ r' ∈ sched, Precedes r' s → r'.ts ≤ r.ts := by
  have hr := mem_history.mp (List.mem_of_getLast? h)
  refine ⟨hr.1, hr.2, fun r' hr' hp' => ?_⟩
  have hasc : (history sched s).Pairwise fun r r' => r.ts ≤ r'.ts :=
    (history_ascending hd s).imp fun h => h.le
  exact le_of_getLast? hasc h (mem_history.mpr ⟨hr', hp'⟩)

end History

theorem getLast?_history_eq_none {sched : List SchedRow} {s : Sample} :
    (history sched s).getLast? = none ↔ ∀ r ∈ sched, ¬ Precedes r s := by
  rw [List.getLast?_eq_none_iff, List.eq_nil_iff_forall_not_mem]
  simp only [mem_history, not_and]

/-! ### The attribution -/

/-- **The attribution finds the running thread**: that of the latest record that precedes the
sample, and none exactly when no record does; in whatever order the records arrive. -/
theorem attributed_running {sched : List SchedRow}
    (hd : (sched.map fun r => (r.cpu, r.ts)).Nodup) (s : Sample) :
    ((∃ r ∈ sched, Precedes r s ∧ (∀ r' ∈ sched, Precedes r' s → r'.ts ≤ r.ts) ∧
        attributed sched s = (r.nextComm, r.nextPid)) ∨
      (∀ r ∈ sched, ¬ Precedes r s) ∧ attributed sched s = (none, none)) ∧
    ((∀ r ∈ sched, r.nextPid ≠ none) →
      (attributed sched s = (none, none) ↔ ∀ r ∈ sched, ¬ Precedes r s)) ∧
    attributed sched s = (runningAt sched s.ts s.cpu).getD (none, none) ∧
    (runningAt sched s.ts s.cpu = none ↔ ∀ r ∈ sched, ¬ Precedes r s) ∧
    ∀ sched', sched.Perm sched' → attributed sched' s = attributed sched s := by
  have hlatest : (∃ r ∈ sched, Precedes r s ∧ (∀ r' ∈ sched, Precedes r' s → r'.ts ≤ r.ts) ∧
      attributed sched s = (r.nextComm, r.nextPid)) ∨
      (∀ r ∈ sched, ¬ Precedes r s) ∧ attributed sched s = (none, none) := by
    rw [attributed_history]
    rcases h : (history sched s).getLast? with _ | r
    · exact Or.inr ⟨getLast?_history_eq_none.mp h, rfl⟩
    · obtain ⟨hr, hp, hmax⟩ := latest_of_getLast? hd s h
      exact Or.inl ⟨r, hr, hp, hmax, rfl⟩
  refine ⟨hlatest, fun hpid => ⟨fun h => ?_, fun h => ?_⟩, ?_, ?_, fun sched' hp => ?_⟩
  · rcases hlatest with ⟨r, hr, -, -, hat⟩ | ⟨hnone, -⟩
    · rw [h, Prod.mk.injEq] at hat
      exact absurd hat.2.symm (hpid r hr)
    · exact hnone
  · rcases hlatest with ⟨r, hr, hp, -⟩ | ⟨-, hat⟩
    · exact absurd hp (h r hr)
    · exact hat
  · rw [attributed_history, runningAt_eq hd]
  · rw [runningAt_eq hd, Option.map_eq_none_iff, getLast?_history_eq_none]
  · rw [attributed, attributed, sortBy_eq_of_perm schedKey hp (nodup_schedKey hd)]

/-- Two switches on CPU 1 that arrive in the wrong order, one on CPU 0 between them. -/
def lateRecord : List SchedRow :=
  [⟨30, some 1, some "a".toList, some 31, some "b".toList, some 32⟩,
    ⟨20, some 0, some "d".toList, some 34, some "e".toList, some 35⟩,
    ⟨10, some 1, some "c".toList, some 33, some "a".toList, some 31⟩]

theorem attributed_running_lateRecord :
    ((∃ r ∈ lateRecord, Precedes r ⟨30, 1, fun _ => 0⟩ ∧
        (∀ r' ∈ lateRecord, Precedes r' ⟨30, 1, fun _ => 0⟩ → r'.ts ≤ r.ts) ∧
        attributed lateRecord ⟨30, 1, fun _ => 0⟩ = (r.nextComm, r.nextPid)) ∨
      (∀ r ∈ lateRecord, ¬ Precedes r ⟨30, 1, fun _ => 0⟩) ∧
        attributed lateRecord ⟨30, 1, fun _ => 0⟩ = (none, none)) ∧
    (attributed lateRecord ⟨30, 1, fun _ => 0⟩ = (none, none) ↔
      ∀ r ∈ lateRecord, ¬ Precedes r ⟨30, 1, fun _ => 0⟩) ∧
    attributed lateRecord.reverse ⟨30, 1, fun _ => 0⟩ =
      attributed lateRecord ⟨30, 1, fun _ => 0⟩ := by
  have h := @attributed_running lateRecord (by decide) ⟨30, 1, fun _ => 0⟩
  exact ⟨h.1, h.2.1 (by decide), h.2.2.2.2 _ lateRecord.reverse_perm.symm⟩

end Magm.Collect.Replay
