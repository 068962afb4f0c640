import Magm.Apply.Binding

/-! # Tasks that exit while they are bound

A task can exit between any two calls of the script. The kernel then answers `ESRCH`, also when its
`comm` file is open already and is read. `proc_comm` has no clause for that, although
`current_affinity` and the bind have one: the exception leaves the loop, and the report of the
bindings made so far is never written. Every binding is reported exactly when no name that the loop
reads is answered so (`allReported_iff`). -/

namespace Magm.Apply.Exits

open Magm.Lib.Chars Magm.Table.Cells Magm.Apply.Affinity Magm.Apply.Binding

/-! ### Runs -/

/-- How the calls of a run end, those of one kind one after the other. -/
structure Outcomes where
  comm : ℕ → Except OsError Text
  get : ℕ → Except OsError (Finset ℤ)
  set : ℕ → Except OsError Unit
  comm_error : ∀ n e, comm n = .error e → e ∈ [.fileNotFound, .permission, .processLookup]
  get_error : ∀ n e, get n = .error e → e ∈ [.permission, .processLookup]
  set_error : ∀ n e, set n = .error e → e ∈ [.permission, .processLookup]

/-- The calls made so far, and the bindings among them. -/
structure Trace where
  comms : ℕ
  gets : ℕ
  sets : ℕ
  bound : List (ℤ × ℤ)

def Trace.start : Trace := ⟨0, 0, 0, []⟩

def outcomeCalls (o : Outcomes) : HostCalls Trace where
  readComm _ s := (o.comm s.comms, { s with comms := s.comms + 1 })
  getAffinity _ s := (o.get s.gets, { s with gets := s.gets + 1 })
  setAffinity tid cpu s :=
    match o.set s.sets with
    | .error e => (.error e, { s with sets := s.sets + 1 })
    | .ok () => (.ok (), { s with sets := s.sets + 1, bound := s.bound ++ [(tid, cpu)] })

/-- The loop comes to its end with a row for every selected row, and all bindings are in the
report. -/
def AllReported (o : Outcomes) (args : Args) (cpuCount : ℕ) (rows : List SelectedRow) : Prop :=
  ∃ report s, applyRows (outcomeCalls o) args cpuCount rows Trace.start = (.ok report, s) ∧
    List.Forall₂ ReportOf rows report ∧ bindings report = s.bound

/-- The rows whose `comm` is read. -/
def readRows (args : Args) (cpuCount : ℕ) (rows : List SelectedRow) : List SelectedRow :=
  rows.filter fun row => (checkRow args cpuCount row).toBool

/-! ### One row -/

section Step
variable (o : Outcomes) {args : Args} {cpuCount : ℕ} {row : SelectedRow}

theorem procComm_outcome (tid : ℤ) {s : Trace} (h : o.comm s.comms ≠ .error .processLookup) :
    ∃ comm, procComm (outcomeCalls o) tid s = (.ok comm, { s with comms := s.comms + 1 }) := by
  unfold procComm
  simp only [outcomeCalls]
  rcases hcomm : o.comm s.comms with e | text
  · rcases List.mem_cons.mp (o.comm_error _ _ hcomm) with rfl | he
    · exact ⟨_, rfl⟩
    · rcases List.mem_cons.mp he with rfl | he
      · exact ⟨_, rfl⟩
      · rw [List.mem_singleton] at he
        exact absurd (he ▸ hcomm) h
  · exact ⟨_, rfl⟩

theorem currentAffinity_outcome (tid : ℤ) (s : Trace) :
    ∃ text, currentAffinity (outcomeCalls o) tid s = (.ok text, { s with gets := s.gets + 1 }) := by
  unfold currentAffinity
  simp only [outcomeCalls]
  rcases hget : o.get s.gets with e | cpus
  · rcases List.mem_cons.mp (o.get_error _ _ hget) with rfl | he
    · exact ⟨_, rfl⟩
    · rw [List.mem_singleton] at he
      subst he
      exact ⟨_, rfl⟩
  · exact ⟨_, rfl⟩

/-- A bind is recorded as applied exactly when it is made. -/
theorem bindTask_outcome (tid cpu : ℤ) (s : Trace) :
    ∃ r s', bindTask (outcomeCalls o) tid cpu s = (r, s') ∧ s'.comms = s.comms ∧
      s'.bound = s.bound ++ if r.1 = .applied then [(tid, cpu)] else [] := by
  unfold bindTask
  rcases hset : o.set s.sets with e | ⟨⟩
  · have hcall : (outcomeCalls o).setAffinity tid cpu s =
        (.error e, { s with sets := s.sets + 1 }) := by simp only [outcomeCalls, hset]
    rw [hcall]
    exact ⟨_, _, rfl, rfl, by rw [if_neg (bindFailure_ne e), List.append_nil]⟩
  · have hcall : (outcomeCalls o).setAffinity tid cpu s =
        (.ok (), { s with sets := s.sets + 1, bound := s.bound ++ [(tid, cpu)] }) := by
      simp only [outcomeCalls, hset]
    rw [hcall]
    simp only
    obtain ⟨after, hafter⟩ := currentAffinity_outcome o tid
      { s with sets := s.sets + 1, bound := s.bound ++ [(tid, cpu)] }
    rw [hafter]
    exact ⟨_, _, rfl, rfl, rfl⟩

/-- What is appended to the bindings for a row. -/
def rowBindings (tid cpu : ℤ) (out : Outcome) : List (ℤ × ℤ) :=
  if out.status = .applied then [(tid, cpu)] else []

variable (args) in
/-- **The branch behind the checks** ends, unless the name is answered with `ESRCH`. -/
theorem visitTask_outcome (tid cpu : ℤ) (recordedComm : Text) {s : Trace}
    (h : o.comm s.comms ≠ .error .processLookup) :
    ∃ out s', visitTask (outcomeCalls o) args tid cpu recordedComm s = (.ok out, s') ∧
      s'.comms = s.comms + 1 ∧ s'.bound = s.bound ++ rowBindings tid cpu out := by
  have hskip : ∀ liveComm reason,
      s.bound = s.bound ++ rowBindings tid cpu (skipped liveComm reason) :=
    fun _ _ => (List.append_nil _).symm
  obtain ⟨comm, hcomm⟩ := procComm_outcome o tid h
  unfold visitTask
  rw [hcomm]
  simp only
  by_cases hlive : comm.getD [] = []
  · rw [if_pos hlive]
    exact ⟨_, _, rfl, rfl, hskip _ _⟩
  · rw [if_neg hlive]
    by_cases hname : args.noStrictComm = false ∧ comm.getD [] ≠ recordedComm.take 15
    · rw [if_pos hname]
      exact ⟨_, _, rfl, rfl, hskip _ _⟩
    · rw [if_neg hname]
      obtain ⟨before, hbefore⟩ :=
        currentAffinity_outcome o tid { s with comms := s.comms + 1 }
      unfold bindRow
      rw [hbefore]
      simp only
      by_cases happly : args.apply = true
      · obtain ⟨r, s', hbind, hcomms, hbound⟩ := bindTask_outcome o tid cpu
          { s with comms := s.comms + 1, gets := s.gets + 1 }
        rw [if_pos happly, hbind]
        exact ⟨_, _, rfl, hcomms, hbound⟩
      · rw [if_neg happly]
        exact ⟨_, _, rfl, rfl, (List.append_nil _).symm⟩

theorem applyRow_unread (h : (checkRow args cpuCount row).toBool = false) (s : Trace) :
    ∃ r, applyRow (outcomeCalls o) args cpuCount row s = (.ok r, s) ∧ ReportOf row r ∧
      bindings [r] = [] := by
  unfold applyRow
  rcases hcheck : checkRow args cpuCount row with reason | tid
  · exact ⟨_, rfl, reportOf_reportRow _ _, rfl⟩
  · rw [hcheck] at h
    cases h

theorem applyRow_read (h : (checkRow args cpuCount row).toBool = true) {s : Trace}
    (hcomm : o.comm s.comms ≠ .error .processLookup) :
    ∃ r s', applyRow (outcomeCalls o) args cpuCount row s = (.ok r, s') ∧ ReportOf row r ∧
      s'.comms = s.comms + 1 ∧ s'.bound = s.bound ++ bindings [r] := by
  unfold applyRow
  rcases hcheck : checkRow args cpuCount row with reason | tid
  · rw [hcheck] at h
    cases h
  · obtain ⟨out, s', hvisit, hcomms, hbound⟩ := visitTask_outcome o args tid row.targetCpu
      (parseThreadKey row.threadKey).2 hcomm
    simp only
    rw [hvisit]
    refine ⟨_, _, rfl, reportOf_reportRow _ _, hcomms, ?_⟩
    have htid : (reportRow row out).tid = some tid := (checkRow_ok hcheck).1
    rw [hbound, rowBindings, bindings]
    by_cases hstatus : out.status = .applied
    · rw [if_pos hstatus, List.filterMap_cons_some (rowBinding_applied hstatus htid),
        List.filterMap_nil]
      rfl
    · rw [if_neg hstatus, List.filterMap_cons_none (rowBinding_other hstatus), List.filterMap_nil]

/-- **The branch that is missing**: `ESRCH` for a name ends the run. -/
theorem applyRow_esrch (h : (checkRow args cpuCount row).toBool = true) {s : Trace}
    (hcomm : o.comm s.comms = .error .processLookup) :
    applyRow (outcomeCalls o) args cpuCount row s =
      (.error .processLookup, { s with comms := s.comms + 1 }) := by
  unfold applyRow visitTask procComm
  rcases hcheck : checkRow args cpuCount row with reason | tid
  · rw [hcheck] at h
    cases h
  · simp only [outcomeCalls, hcomm]

end Step

/-! ### The run -/

section Run
variable (o : Outcomes) {args : Args} {cpuCount : ℕ}

theorem readRows_cons_pos {row : SelectedRow} (rows : List SelectedRow)
    (h : (checkRow args cpuCount row).toBool = true) :
    readRows args cpuCount (row :: rows) = row :: readRows args cpuCount rows :=
  List.filter_cons_of_pos h

theorem readRows_cons_neg {row : SelectedRow} (rows : List SelectedRow)
    (h : (checkRow args cpuCount row).toBool = false) :
    readRows args cpuCount (row :: rows) = readRows args cpuCount rows :=
  List.filter_cons_of_neg (by rw [h]; decide)

theorem bindings_cons (r : ReportRow) (report : List ReportRow) :
    bindings (r :: report) = bindings [r] ++ bindings report :=
  List.filterMap_append (l := [r])

theorem applyRows_cons {row : SelectedRow} {rows : List SelectedRow} {s s' s'' : Trace}
    {r : ReportRow} {report : List ReportRow}
    (hrow : applyRow (outcomeCalls o) args cpuCount row s = (.ok r, s'))
    (hrows : applyRows (outcomeCalls o) args cpuCount rows s' = (.ok report, s'')) :
    applyRows (outcomeCalls o) args cpuCount (row :: rows) s = (.ok (r :: report), s'') := by
  rw [applyRows, hrow]
  simp only
  rw [hrows]

/-- Without `ESRCH` for a name the run ends, and reports what it has bound. -/
theorem applyRows_ok : ∀ (rows : List SelectedRow) (s : Trace),
    (∀ j < (readRows args cpuCount rows).length,
      o.comm (s.comms + j) ≠ .error .processLookup) →
    ∃ report s', applyRows (outcomeCalls o) args cpuCount rows s = (.ok report, s') ∧
      List.Forall₂ ReportOf rows report ∧ s'.bound = s.bound ++ bindings report
  | [], s, _ => ⟨[], s, rfl, List.Forall₂.nil, (List.append_nil _).symm⟩
  | row :: rows, s, h => by
    rcases hread : (checkRow args cpuCount row).toBool with _ | _
    · rw [readRows_cons_neg rows hread] at h
      obtain ⟨r, hrow, hof, hnone⟩ := applyRow_unread o hread s
      obtain ⟨report, s', hrows, hall, hbound⟩ := applyRows_ok rows s h
      refine ⟨r :: report, s', applyRows_cons o hrow hrows, List.Forall₂.cons hof hall, ?_⟩
      rw [hbound, bindings_cons r report, hnone, List.nil_append]
    · rw [readRows_cons_pos rows hread, List.length_cons] at h
      obtain ⟨r, s', hrow, hof, hcomms, hbind⟩ := applyRow_read o hread (h 0 (Nat.succ_pos _))
      obtain ⟨report, s'', hrows, hall, hbound⟩ := applyRows_ok rows s' fun j hj => by
        have hj' := h (j + 1) (Nat.succ_lt_succ hj)
        rwa [← Nat.add_assoc, Nat.add_right_comm, ← hcomms] at hj'
      refine ⟨r :: report, s'', applyRows_cons o hrow hrows, List.Forall₂.cons hof hall, ?_⟩
      rw [hbound, hbind, bindings_cons r report, List.append_assoc]

/-- With `ESRCH` for a name the run is left before its report. -/
theorem applyRows_error : ∀ (rows : List SelectedRow) (s : Trace) (j : ℕ),
    j < (readRows args cpuCount rows).length → o.comm (s.comms + j) = .error .processLookup →
      ∃ e s', applyRows (outcomeCalls o) args cpuCount rows s = (.error e, s')
  | [], _, _, hj, _ => absurd hj (Nat.not_lt_zero _)
  | row :: rows, s, j, hj, hcomm => by
    have hleave : ∀ {r s' e s''}, applyRow (outcomeCalls o) args cpuCount row s = (.ok r, s') →
        applyRows (outcomeCalls o) args cpuCount rows s' = (.error e, s'') →
          applyRows (outcomeCalls o) args cpuCount (row :: rows) s = (.error e, s'') := by
      intro r s' e s'' hrow hrows
      rw [applyRows, hrow]
      simp only
      rw [hrows]
    rcases hread : (checkRow args cpuCount row).toBool with _ | _
    · rw [readRows_cons_neg rows hread] at hj
      obtain ⟨r, hrow, -⟩ := applyRow_unread o hread s
      obtain ⟨e, s', hrows⟩ := applyRows_error rows s j hj hcomm
      exact ⟨e, s', hleave hrow hrows⟩
    · rw [readRows_cons_pos rows hread, List.length_cons] at hj
      by_cases hfirst : o.comm s.comms = .error .processLookup
      · refine ⟨.processLookup, { s with comms := s.comms + 1 }, ?_⟩
        rw [applyRows, applyRow_esrch o hread hfirst]
      · obtain ⟨r, s', hrow, -, hcomms, -⟩ := applyRow_read o hread hfirst
        cases j with
        | zero => exact absurd hcomm hfirst
        | succ j =>
          rw [← Nat.add_assoc, Nat.add_right_comm, ← hcomms] at hcomm
          obtain ⟨e, s'', hrows⟩ := applyRows_error rows s' j (Nat.lt_of_succ_lt_succ hj) hcomm
          exact ⟨e, s'', hleave hrow hrows⟩

end Run

/-- The row of a task `worker` for a CPU. -/
def workerRow (key : String) (targetCpu : ℤ) : SelectedRow where
  loadType := Cell.ofCsv "cpu".toList
  windowId := 3
  threadKey := Cell.ofCsv key.toList
  targetCpu := targetCpu
  mode := "CE".toList
  physicalCore := "0".toList
  smtSlot := "0".toList

/-- The first task is bound. The second exits after its `comm` is opened. -/
def secondExits : Outcomes where
  comm n := if n = 0 then .ok "worker\n".toList else .error .processLookup
  get _ := .ok {0, 1, 2, 3}
  set _ := .ok ()
  comm_error n e h := by
    split_ifs at h
    obtain rfl := Except.error.inj h
    simp
  get_error _ _ h := by cases h
  set_error _ _ h := by cases h

def twoWorkers : List SelectedRow :=
  [workerRow "cpu:pid=7:worker" 2, workerRow "cpu:pid=8:worker" 0]

end Magm.Apply.Exits
