import Magm.Scx.Loader

/-! # The scheduler: `magm_select_cpu`

`magm_select_cpu` of `magm_scx.bpf.c` returns the CPU the target map holds for the TID of a waking
task, and the choice of the kernel (`SelectCpuDfl`) for any other task. The user-space executor
checks a target against the number of CPUs before it binds; neither the loader nor the scheduler
does. So the scheduler stays on the machine exactly when the plan does (`selectCpu_onHost_iff`). -/

namespace Magm.Scx.Scheduler

open Magm.Lib.Chars Magm.Lib.Stdio Magm.Lib.BoundedMap Magm.Scx.Loader

/-- A `u32` as an `s32`. -/
def toS32 (x : ℕ) : ℤ := Int.bmod x (2 ^ 32)

theorem toS32_of_lt {x : ℕ} (h : x < 2 ^ 31) : toS32 x = x := by
  unfold toS32; exact Int.bmod_eq_of_le (by omega) (by omega)

/-- A task; the code reads its `pid` only. -/
structure Task where
  pid : ℤ
  pid_nonneg : 0 ≤ pid
  pid_lt : pid < 2 ^ 31

/-- `scx_bpf_select_cpu_dfl`, on the task, `prev_cpu` and `wake_flags`. -/
abbrev SelectCpuDfl := Task → ℤ → ℕ → ℤ

/-- `task_target_cpu`. -/
def taskTargetCpu (maps : Maps) (p : Task) : Option ℤ :=
  (maps.targetCpuByTid.lookup (toUnsigned p.pid)).map toS32

/-- `bump_stat`; the lookup in an array map of one entry always succeeds. -/
def bumpStat (stat : MagmStat) (selected : Bool) : MagmStat :=
  if selected then { stat with selectedTasks := (stat.selectedTasks + 1) % 2 ^ 32 }
  else { stat with fallbackTasks := (stat.fallbackTasks + 1) % 2 ^ 32 }

/-- `magm_select_cpu`: the maps after it, and the CPU it returns. -/
def magmSelectCpu (dfl : SelectCpuDfl) (maps : Maps) (p : Task) (prevCpu : ℤ) (wakeFlags : ℕ) :
    Maps × ℤ :=
  match taskTargetCpu maps p with
  | some cpu => ({ maps with stats := bumpStat maps.stats true }, cpu)
  | none => ({ maps with stats := bumpStat maps.stats false }, dfl p prevCpu wakeFlags)

/-! ### The range of the loaded map -/

theorem parseInt_lt {text : Text} {v : ℤ} (h : parseInt text = some v) : v < 2 ^ 31 := by
  unfold parseInt at h
  rw [Option.bind_eq_some_iff] at h
  obtain ⟨out, -, h⟩ := h
  split_ifs at h
  have := Int.bmod_lt (x := out) (m := 2 ^ 32) (by decide)
  obtain rfl := Option.some.inj h
  unfold toInt
  omega

theorem getD_parse_lt {o : Option Text} {read : Text → Option ℤ}
    (h : ∀ t v, read t = some v → v < 2 ^ 31) : (o.bind read).getD (-1) < 2 ^ 31 := by
  rcases hv : o.bind read with _ | v
  · simp
  · obtain ⟨t, -, ht⟩ := Option.bind_eq_some_iff.mp hv
    exact h t v ht

theorem tidOf_lt {text : Text} {v : ℤ} (h : tidOf text = some v) : v < 2 ^ 31 := by
  obtain ⟨t, -, ht⟩ := Option.bind_eq_some_iff.mp h
  exact parseInt_lt ht

/-- The key and the value of a good row are numbers in the range of an `int`. -/
theorem goodRow_lt {k c : ℕ} (hkc : k ≠ c) {line : Text} {p : ℕ × ℕ}
    (h : goodRow k c line = some p) :
    0 < p.1 ∧ p.1 < 2 ^ 31 ∧ p.2 < 2 ^ 31 := by
  unfold goodRow at h
  rw [readRow_eq hkc] at h
  have h1 : ((strtokR delim line)[k]?.bind tidOf).getD (-1) < 2 ^ 31 :=
    getD_parse_lt fun _ _ => tidOf_lt
  have h2 : ((strtokR delim line)[c]?.bind parseInt).getD (-1) < 2 ^ 31 :=
    getD_parse_lt fun _ _ => parseInt_lt
  simp only at h
  split_ifs at h with hpos
  obtain rfl := Option.some.inj h
  simp only [toUnsigned]
  omega

/-- The rows of a plan are TIDs and CPUs in the range of an `int`. -/
theorem planRows_lt {text : Text} {rows : List (ℕ × ℕ)} (h : planRows text = some rows) {p : ℕ × ℕ}
    (hp : p ∈ rows) : 0 < p.1 ∧ p.1 < 2 ^ 31 ∧ p.2 < 2 ^ 31 := by
  unfold planRows at h
  rcases hl : fgetsLines 4096 text with _ | ⟨header, lines⟩
  · simp [hl] at h
  · rcases hc : headerCols header with ⟨_ | k, _ | c⟩
    all_goals simp only [hl, hc, Option.some.injEq, reduceCtorEq] at h
    subst h
    obtain ⟨line, -, hline⟩ := List.mem_filterMap.mp hp
    exact goodRow_lt (headerCols_ne hc) hline

/-- A plan is accepted when its header names both columns. -/
theorem accepted_iff {text : Text} :
    0 ≤ (loadPlanCsv mapCalls (.ok text) Maps.initial).2 ↔ ∃ rows, planRows text = some rows := by
  rw [loadPlanCsv_eq]
  rcases planRows text with _ | rows
  · simp [EINVAL]
  · simp

section Select
variable {text : Text} {rows : List (ℕ × ℕ)}

theorem taskTargetCpu_loaded (h : planRows text = some rows) (p : Task) :
    taskTargetCpu (loadPlanCsv mapCalls (.ok text) Maps.initial).1 p =
      (planCpu rows p.pid.toNat).map fun cpu : ℕ => (cpu : ℤ) := by
  have hpid : toUnsigned p.pid = p.pid.toNat := by
    have := p.pid_nonneg
    have := p.pid_lt
    unfold toUnsigned
    omega
  have hlook := lookup_loadedMap h p.pid.toNat
  unfold loadedMap at hlook
  rw [taskTargetCpu, hpid, hlook]
  rcases hc : planCpu rows p.pid.toNat with _ | cpu
  · rw [Option.map_none, Option.map_none]
  · unfold planCpu at hc
    split_ifs at hc
    have hlt := (planRows_lt h (mem_of_lastVal hc)).2.2
    rw [Option.map_some, Option.map_some, toS32_of_lt hlt]

/-- **The CPU a waking task gets.** -/
theorem magmSelectCpu_loaded (h : planRows text = some rows) (dfl : SelectCpuDfl) (stats : MagmStat)
    (p : Task) (prevCpu : ℤ) (wakeFlags : ℕ) :
    (magmSelectCpu dfl { (loadPlanCsv mapCalls (.ok text) Maps.initial).1 with stats := stats }
        p prevCpu wakeFlags).2 =
      match planCpu rows p.pid.toNat with
      | some cpu => (cpu : ℤ)
      | none => dfl p prevCpu wakeFlags := by
  have ht : taskTargetCpu
      { (loadPlanCsv mapCalls (.ok text) Maps.initial).1 with stats := stats } p = _ :=
    taskTargetCpu_loaded h p
  rw [magmSelectCpu, ht]
  rcases planCpu rows p.pid.toNat with _ | cpu <;> rfl

/-- The scheduler stays on a host with CPUs `0, …, nrCpus - 1`, whatever the statistics are. -/
def OnHost (text : Text) (dfl : SelectCpuDfl) (nrCpus : ℕ) : Prop :=
  ∀ (stats : MagmStat) (p : Task) (prevCpu : ℤ) (wakeFlags : ℕ),
    let cpu := (magmSelectCpu dfl
      { (loadPlanCsv mapCalls (.ok text) Maps.initial).1 with stats := stats } p prevCpu wakeFlags).2
    0 ≤ cpu ∧ cpu < nrCpus

/-- **The scheduler stays on the host exactly when the plan does**: for every accepted plan, iff the
CPU of the last good row of every TID the map has room for is a CPU of the host. -/
theorem selectCpu_onHost_iff (text : Text) (nrCpus : ℕ) (dfl : SelectCpuDfl)
    (hdfl : ∀ p prevCpu wakeFlags, 0 ≤ dfl p prevCpu wakeFlags ∧ dfl p prevCpu wakeFlags < nrCpus)
    (haccepted : 0 ≤ (loadPlanCsv mapCalls (.ok text) Maps.initial).2) :
    OnHost text dfl nrCpus ↔
      ∀ rows, planRows text = some rows → ∀ tid, ∀ cpu ∈ planCpu rows tid, cpu < nrCpus := by
  obtain ⟨rows, hrows⟩ := accepted_iff.mp haccepted
  constructor
  · intro hon rows' hrows' tid cpu hcpu
    obtain rfl : rows' = rows := Option.some.inj (hrows'.symm.trans hrows)
    have htid : tid < 2 ^ 31 := by
      unfold planCpu at hcpu
      split_ifs at hcpu
      · exact (planRows_lt hrows (mem_of_lastVal hcpu)).2.1
      · simp at hcpu
    have hp := (hon ⟨0, 0, 0⟩ ⟨tid, by omega, by omega⟩ 0 0).2
    rw [magmSelectCpu_loaded hrows, Int.toNat_natCast, Option.mem_def.mp hcpu] at hp
    simpa using hp
  · intro hall stats p prevCpu wakeFlags
    simp only [magmSelectCpu_loaded hrows]
    rcases hc : planCpu rows p.pid.toNat with _ | cpu
    · exact hdfl p prevCpu wakeFlags
    · have := hall rows hrows _ cpu hc
      simp only
      omega

end Select

/-- A plan for a machine with at least 65 CPUs. -/
def planFor65 : Text := "thread_key,target_cpu\ncpu:pid=7:worker,64\n".toList

/-- On a host with 8 CPUs the scheduler sends the thread of the plan to CPU 64. -/
theorem planFor65_not_onHost :
    0 ≤ (loadPlanCsv mapCalls (.ok planFor65) Maps.initial).2 ∧
      (magmSelectCpu (fun _ _ _ => 0) (loadPlanCsv mapCalls (.ok planFor65) Maps.initial).1
        ⟨7, by decide, by decide⟩ 0 0).2 = 64 ∧
      ¬ OnHost planFor65 (fun _ _ _ => 0) 8 := by
  have hload : 0 ≤ (loadPlanCsv mapCalls (.ok planFor65) Maps.initial).2 := by decide +kernel
  have h64 : (magmSelectCpu (fun _ _ _ => 0) (loadPlanCsv mapCalls (.ok planFor65) Maps.initial).1
      ⟨7, by decide, by decide⟩ 0 0).2 = 64 := by decide +kernel
  refine ⟨hload, h64, fun hon => ?_⟩
  have hlt := (hon (loadPlanCsv mapCalls (.ok planFor65) Maps.initial).1.stats
    ⟨7, by decide, by decide⟩ 0 0).2
  rw [h64] at hlt
  exact absurd hlt (by decide)

theorem selectCpu_onHost_iff_planFor65 :
    OnHost planFor65 (fun _ _ _ => 0) 65 ↔
      ∀ rows, planRows planFor65 = some rows → ∀ tid, ∀ cpu ∈ planCpu rows tid, cpu < 65 :=
  selectCpu_onHost_iff planFor65 65 (fun _ _ _ => 0) (fun _ _ _ => ⟨le_rfl, by decide⟩)
    (by decide +kernel)

end Magm.Scx.Scheduler
