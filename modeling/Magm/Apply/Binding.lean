import Magm.Apply.Affinity
import Magm.Lib.BoundedMap
import Mathlib.Data.Finset.Sort

/-! # Binding the selected rows: `main` of `apply_cpu_affinity.py`

For every selected row the script checks the TID and the CPU, compares the name of the live task
with the recorded one, and binds the task if it is told to. The host is a set of calls over a state
of any type, each of which may fail (`HostCalls`).

On a host that only the script changes, the affinities after the run are what the report says
(`applyRows_guarded`): no guard lets a row through, and no failed bind is reported as applied. -/

namespace Magm.Apply.Binding

open Magm.Lib.Chars Magm.Lib.PyStr Magm.Lib.BoundedMap Magm.Table.Cells Magm.Apply.Affinity

/-! ### The host -/

/-- An `OSError`, by the class Python gives it. -/
inductive OsError
  | fileNotFound | permission | processLookup
  | other (message : Text)
  deriving DecidableEq

/-- `str(exc)`. -/
def OsError.str : OsError → Text
  | .fileNotFound => "[Errno 2] No such file or directory".toList
  | .permission => "[Errno 1] Operation not permitted".toList
  | .processLookup => "[Errno 3] No such process".toList
  | .other message => message

/-- The calls the script makes for a task, over the state `σ` of the host. -/
structure HostCalls (σ : Type*) where
  /-- Opening and reading `/proc/<tid>/comm`. -/
  readComm : ℤ → σ → Except OsError Text × σ
  /-- `os.sched_getaffinity`. -/
  getAffinity : ℤ → σ → Except OsError (Finset ℤ) × σ
  /-- `os.sched_setaffinity(tid, {cpu})`. -/
  setAffinity : ℤ → ℤ → σ → Except OsError Unit × σ

/-! ### The rows -/

/-- The command line options that the loop looks at. -/
structure Args where
  apply : Bool
  noStrictComm : Bool
  includeKernel : Bool

inductive Status
  | dryRun | skipped | applied | failed
  deriving DecidableEq

/-- A selected row, with the columns that go into the report as they are. -/
structure SelectedRow extends PlanEntry where
  mode : Text
  physicalCore : Text
  smtSlot : Text

/-- The variables the loop sets for a row. -/
structure Outcome where
  liveComm : Text
  status : Status
  reason : Text
  before : Text
  after : Text

structure ReportRow where
  loadType : Cell
  windowId : ℤ
  tid : Option ℤ
  recordedComm : Text
  liveComm : Text
  targetCpu : ℤ
  status : Status
  reason : Text
  affinityBefore : Text
  affinityAfter : Text
  mode : Text
  physicalCore : Text
  smtSlot : Text

/-- The row appended to `report_rows`. -/
def reportRow (row : SelectedRow) (out : Outcome) : ReportRow where
  loadType := row.loadType
  windowId := row.windowId
  tid := (parseThreadKey row.threadKey).1
  recordedComm := (parseThreadKey row.threadKey).2
  liveComm := out.liveComm
  targetCpu := row.targetCpu
  status := out.status
  reason := out.reason
  affinityBefore := out.before
  affinityAfter := out.after
  mode := row.mode
  physicalCore := row.physicalCore
  smtSlot := row.smtSlot

/-- A row that is skipped before its task is bound. -/
def skipped (liveComm reason : Text) : Outcome := ⟨liveComm, .skipped, reason, [], []⟩

/-! ### The loop -/

/-- The checks that need no host call: the TID, or the reason to skip the row. -/
def checkRow (args : Args) (cpuCount : ℕ) (row : SelectedRow) : Except Text ℤ :=
  match (parseThreadKey row.threadKey).1 with
  | none => .error "cannot-parse-tid".toList
  | some tid =>
    if tid = 0 ∧ args.includeKernel = false then .error "pid-0".toList
    else if row.targetCpu < 0 ∨ (cpuCount : ℤ) ≤ row.targetCpu then
      .error ("target-cpu-out-of-range-".toList ++ dec row.targetCpu)
    else .ok tid

/-- `",".join(str(cpu) for cpu in sorted(...))`. -/
def affinityText (cpus : Finset ℤ) : Text := [','].intercalate (cpus.sort.map dec)

section Loop
variable {σ : Type*} (calls : HostCalls σ)

def procComm (tid : ℤ) (s : σ) : Except OsError (Option Text) × σ :=
  match calls.readComm tid s with
  | (.ok text, s') => (.ok (some (strip text)), s')
  | (.error .fileNotFound, s') => (.ok none, s')
  | (.error .permission, s') => (.ok none, s')
  | (.error e, s') => (.error e, s')

def currentAffinity (tid : ℤ) (s : σ) : Except OsError Text × σ :=
  match calls.getAffinity tid s with
  | (.ok cpus, s') => (.ok (affinityText cpus), s')
  | (.error .processLookup, s') => (.ok [], s')
  | (.error .permission, s') => (.ok "permission-denied".toList, s')
  | (.error e, s') => (.error e, s')

/-- The `except` clauses around the bind: the status and the reason. -/
def bindFailure : OsError → Status × Text
  | .processLookup => (.skipped, "task-exited".toList)
  | .permission => (.failed, "permission-denied".toList)
  | e => (.failed, e.str)

/-- The `try` block of a bind: status, reason and `after`. -/
def bindTask (tid targetCpu : ℤ) (s : σ) : (Status × Text × Text) × σ :=
  match calls.setAffinity tid targetCpu s with
  | (.error e, s') => (((bindFailure e).1, (bindFailure e).2, []), s')
  | (.ok (), s') =>
    match currentAffinity calls tid s' with
    | (.error e, s'') => (((bindFailure e).1, (bindFailure e).2, []), s'')
    | (.ok after, s'') => ((.applied, [], after), s'')

/-- What follows the comparison of the names. -/
def bindRow (args : Args) (tid targetCpu : ℤ) (liveComm : Text) (s : σ) :
    Except OsError Outcome × σ :=
  match currentAffinity calls tid s with
  | (.error e, s') => (.error e, s')
  | (.ok before, s') =>
    if args.apply then
      let r := bindTask calls tid targetCpu s'
      (.ok ⟨liveComm, r.1.1, r.1.2.1, before, r.1.2.2⟩, r.2)
    else (.ok ⟨liveComm, .dryRun, [], before, dec targetCpu⟩, s')

/-- The last branch of the checks, for a TID and a CPU that are in order. -/
def visitTask (args : Args) (tid targetCpu : ℤ) (recordedComm : Text) (s : σ) :
    Except OsError Outcome × σ :=
  match procComm calls tid s with
  | (.error e, s') => (.error e, s')
  | (.ok comm, s') =>
    let liveComm := comm.getD []
    if liveComm = [] then (.ok (skipped liveComm "task-not-live".toList), s')
    else if args.noStrictComm = false ∧ liveComm ≠ recordedComm.take 15 then
      (.ok (skipped liveComm ("comm-mismatch-live=".toList ++ liveComm ++ "-recorded=".toList ++
        recordedComm.take 15)), s')
    else bindRow calls args tid targetCpu liveComm s'

/-- The body of the loop; an error is an exception that leaves it. -/
def applyRow (args : Args) (cpuCount : ℕ) (row : SelectedRow) (s : σ) :
    Except OsError ReportRow × σ :=
  match checkRow args cpuCount row with
  | .error reason => (.ok (reportRow row (skipped [] reason)), s)
  | .ok tid =>
    match visitTask calls args tid row.targetCpu (parseThreadKey row.threadKey).2 s with
    | (.error e, s') => (.error e, s')
    | (.ok out, s') => (.ok (reportRow row out), s')

/-- The loop over the selected rows. The report is written after it. -/
def applyRows (args : Args) (cpuCount : ℕ) :
    List SelectedRow → σ → Except OsError (List ReportRow) × σ
  | [], s => (.ok [], s)
  | row :: rows, s =>
    match applyRow calls args cpuCount row s with
    | (.error e, s') => (.error e, s')
    | (.ok r, s') =>
      match applyRows args cpuCount rows s' with
      | (.error e, s'') => (.error e, s'')
      | (.ok rs, s'') => (.ok (r :: rs), s'')

end Loop

/-- The binding that a row of the report says was made. -/
def rowBinding (r : ReportRow) : Option (ℤ × ℤ) :=
  if r.status = .applied then r.tid.map fun tid => (tid, r.targetCpu) else none

/-- The bindings of a report, in order. -/
def bindings (report : List ReportRow) : List (ℤ × ℤ) := report.filterMap rowBinding

theorem rowBinding_applied {r : ReportRow} {tid : ℤ} (h : r.status = .applied)
    (htid : r.tid = some tid) : rowBinding r = some (tid, r.targetCpu) := by
  rw [rowBinding, if_pos h, htid]
  rfl

theorem rowBinding_other {r : ReportRow} (h : r.status ≠ .applied) : rowBinding r = none :=
  if_neg h

theorem bindings_cons (r : ReportRow) (report : List ReportRow) :
    bindings (r :: report) = (rowBinding r).toList ++ bindings report := by
  unfold bindings
  rcases hbinding : rowBinding r with _ | b
  · exact List.filterMap_cons_none hbinding
  · exact List.filterMap_cons_some hbinding

/-! ### A host that only the script changes -/

structure Task where
  comm : Text
  affinity : Finset ℤ

/-- The live tasks, and how the binds of the run end: `none` is success. -/
structure Host where
  tasks : ℤ → Option Task
  verdict : ℕ → Option OsError
  binds : ℕ

/-- The tasks with one of them bound. -/
def bound (tasks : ℤ → Option Task) (tid cpu : ℤ) : ℤ → Option Task := fun t =>
  if t = tid then (tasks t).map fun task => { task with affinity := {cpu} } else tasks t

def hostCalls : HostCalls Host where
  readComm tid host :=
    match host.tasks tid with
    | none => (.error .fileNotFound, host)
    | some task => (.ok task.comm, host)
  getAffinity tid host :=
    match host.tasks tid with
    | none => (.error .processLookup, host)
    | some task => (.ok task.affinity, host)
  setAffinity tid cpu host :=
    match host.tasks tid with
    | none => (.error .processLookup, host)
    | some _ =>
      match host.verdict host.binds with
      | some e => (.error e, { host with binds := host.binds + 1 })
      | none => (.ok (), { host with tasks := bound host.tasks tid cpu, binds := host.binds + 1 })

/-- What has to hold for a row to be applied to a task. -/
structure Guarded (args : Args) (cpuCount : ℕ) (tasks : ℤ → Option Task) (row : SelectedRow)
    (tid : ℤ) : Prop where
  apply : args.apply = true
  parsed : (parseThreadKey row.threadKey).1 = some tid
  kernel : tid ≠ 0 ∨ args.includeKernel = true
  cpu : 0 ≤ row.targetCpu ∧ row.targetCpu < cpuCount
  live : ∃ task, tasks tid = some task ∧
    (args.noStrictComm = false → strip task.comm = (parseThreadKey row.threadKey).2.take 15)

/-- The columns of a report row that come from the selected row. -/
structure ReportOf (row : SelectedRow) (r : ReportRow) : Prop where
  loadType : r.loadType = row.loadType
  windowId : r.windowId = row.windowId
  tid : r.tid = (parseThreadKey row.threadKey).1
  recordedComm : r.recordedComm = (parseThreadKey row.threadKey).2
  targetCpu : r.targetCpu = row.targetCpu

theorem reportOf_reportRow (row : SelectedRow) (out : Outcome) :
    ReportOf row (reportRow row out) := ⟨rfl, rfl, rfl, rfl, rfl⟩

/-- What a row does to the tasks, and that the report says so. -/
structure RowEffect (args : Args) (cpuCount : ℕ) (tasks tasks' : ℤ → Option Task)
    (row : SelectedRow) (r : ReportRow) : Prop where
  report : ReportOf row r
  applied : r.status = .applied → ∃ tid, Guarded args cpuCount tasks row tid ∧
    tasks' = bound tasks tid row.targetCpu
  other : r.status ≠ .applied → tasks' = tasks

section Step
variable {args : Args} {cpuCount : ℕ} {row : SelectedRow}

/-- A row with another status leaves the tasks alone. -/
theorem RowEffect.unchanged (tasks : ℤ → Option Task) {out : Outcome}
    (h : out.status ≠ .applied) :
    RowEffect args cpuCount tasks tasks row (reportRow row out) :=
  ⟨reportOf_reportRow row out, fun heq => absurd heq h, fun _ => rfl⟩

theorem checkRow_ok {tid : ℤ} (h : checkRow args cpuCount row = .ok tid) :
    (parseThreadKey row.threadKey).1 = some tid ∧ (tid ≠ 0 ∨ args.includeKernel = true) ∧
      0 ≤ row.targetCpu ∧ row.targetCpu < cpuCount := by
  unfold checkRow at h
  rcases hparse : (parseThreadKey row.threadKey).1 with _ | tid'
  · rw [hparse] at h
    cases h
  · rw [hparse] at h
    simp only at h
    split_ifs at h with hkernel hcpu
    obtain rfl := Except.ok.inj h
    rw [not_and_or, Bool.not_eq_false] at hkernel
    rw [not_or, not_lt, not_le] at hcpu
    exact ⟨rfl, hkernel, hcpu⟩

theorem procComm_hostCalls (tid : ℤ) (host : Host) :
    procComm hostCalls tid host =
      (.ok ((host.tasks tid).map fun task => strip task.comm), host) := by
  unfold procComm
  simp only [hostCalls]
  rcases host.tasks tid with _ | task <;> rfl

theorem currentAffinity_hostCalls {tid : ℤ} {host : Host} {task : Task}
    (htask : host.tasks tid = some task) :
    currentAffinity hostCalls tid host = (.ok (affinityText task.affinity), host) := by
  unfold currentAffinity
  simp only [hostCalls, htask]

theorem bindFailure_ne (e : OsError) : (bindFailure e).1 ≠ .applied := by
  cases e <;> nofun

/-- **How a bind ends**: the task is bound exactly when the status is `applied`. -/
theorem bindTask_hostCalls (tid cpu : ℤ) (host : Host) :
    ∃ r host', bindTask hostCalls tid cpu host = (r, host') ∧
      host'.tasks = if r.1 = .applied then bound host.tasks tid cpu else host.tasks := by
  unfold bindTask currentAffinity
  simp only [hostCalls]
  rcases htask : host.tasks tid with _ | task
  · exact ⟨_, _, rfl, (if_neg (bindFailure_ne _)).symm⟩
  · rcases hv : host.verdict host.binds with _ | e
    · have hbound : bound host.tasks tid cpu tid = some { task with affinity := {cpu} } := by
        rw [bound, if_pos rfl, htask]
        rfl
      simp only [hbound]
      exact ⟨_, _, rfl, rfl⟩
    · exact ⟨_, _, rfl, (if_neg (bindFailure_ne e)).symm⟩

/-- The bind of a live task that the kernel accepts. -/
theorem bindTask_accepted {tid : ℤ} {host : Host} {task : Task} (cpu : ℤ)
    (htask : host.tasks tid = some task) (hv : host.verdict host.binds = none) :
    bindTask hostCalls tid cpu host = ((.applied, [], affinityText {cpu}),
      { host with tasks := bound host.tasks tid cpu, binds := host.binds + 1 }) := by
  have hset : hostCalls.setAffinity tid cpu host =
      (.ok (), { host with tasks := bound host.tasks tid cpu, binds := host.binds + 1 }) := by
    simp only [hostCalls, htask, hv]
  have hbound : bound host.tasks tid cpu tid = some { task with affinity := {cpu} } := by
    rw [bound, if_pos rfl, htask]
    rfl
  unfold bindTask
  rw [hset]
  simp only
  rw [currentAffinity_hostCalls hbound]

/-- A bind that it refuses. -/
theorem bindTask_refused {tid : ℤ} {host : Host} {task : Task} {e : OsError} (cpu : ℤ)
    (htask : host.tasks tid = some task) (hv : host.verdict host.binds = some e) :
    bindTask hostCalls tid cpu host = (((bindFailure e).1, (bindFailure e).2, []),
      { host with binds := host.binds + 1 }) := by
  have hset : hostCalls.setAffinity tid cpu host =
      (.error e, { host with binds := host.binds + 1 }) := by
    simp only [hostCalls, htask, hv]
  unfold bindTask
  rw [hset]

/-- Behind the comparison of the names every bind is guarded. -/
theorem bindRow_hostCalls {host : Host} {tid : ℤ} {task : Task} (liveComm : Text)
    (htask : host.tasks tid = some task)
    (hguard : args.apply = true → Guarded args cpuCount host.tasks row tid) :
    ∃ out host', bindRow hostCalls args tid row.targetCpu liveComm host = (.ok out, host') ∧
      RowEffect args cpuCount host.tasks host'.tasks row (reportRow row out) := by
  unfold bindRow
  rw [currentAffinity_hostCalls htask]
  simp only
  by_cases happly : args.apply = true
  · obtain ⟨r, host', hbind, htasks⟩ := bindTask_hostCalls tid row.targetCpu host
    rw [if_pos happly, hbind]
    refine ⟨_, _, rfl, reportOf_reportRow _ _, fun hstatus => ?_, fun hstatus => ?_⟩
    · exact ⟨tid, hguard happly, htasks.trans (if_pos hstatus)⟩
    · exact htasks.trans (if_neg hstatus)
  · rw [if_neg happly]
    exact ⟨_, _, rfl, RowEffect.unchanged _ nofun⟩

/-- A task is bound behind the comparison of the names only. -/
theorem visitTask_hostCalls {tid : ℤ} (host : Host)
    (hparsed : (parseThreadKey row.threadKey).1 = some tid)
    (hkernel : tid ≠ 0 ∨ args.includeKernel = true)
    (hcpu : 0 ≤ row.targetCpu ∧ row.targetCpu < cpuCount) :
    ∃ out host', visitTask hostCalls args tid row.targetCpu (parseThreadKey row.threadKey).2 host =
        (.ok out, host') ∧
      RowEffect args cpuCount host.tasks host'.tasks row (reportRow row out) := by
  unfold visitTask
  rw [procComm_hostCalls]
  simp only
  rcases htask : host.tasks tid with _ | task
  · exact ⟨_, _, rfl, RowEffect.unchanged _ nofun⟩
  · simp only [Option.map_some, Option.getD_some]
    by_cases hlive : strip task.comm = []
    · rw [if_pos hlive]
      exact ⟨_, _, rfl, RowEffect.unchanged _ nofun⟩
    · rw [if_neg hlive]
      by_cases hname : args.noStrictComm = false ∧
          strip task.comm ≠ (parseThreadKey row.threadKey).2.take 15
      · rw [if_pos hname]
        exact ⟨_, _, rfl, RowEffect.unchanged _ nofun⟩
      · rw [if_neg hname]
        have hguard : args.apply = true → Guarded args cpuCount host.tasks row tid :=
          fun happly => ⟨happly, hparsed, hkernel, hcpu, task, htask, fun hstrict =>
            not_not.mp fun hne => hname ⟨hstrict, hne⟩⟩
        exact bindRow_hostCalls (strip task.comm) htask hguard

/-- **The step**: a row is never lost, and changes the host only if it is applied, which it is only
under its guards. -/
theorem applyRow_hostCalls (args : Args) (cpuCount : ℕ) (row : SelectedRow) (host : Host) :
    ∃ r host', applyRow hostCalls args cpuCount row host = (.ok r, host') ∧
      RowEffect args cpuCount host.tasks host'.tasks row r := by
  unfold applyRow
  rcases hcheck : checkRow args cpuCount row with reason | tid
  · exact ⟨_, _, rfl, RowEffect.unchanged _ nofun⟩
  · obtain ⟨hparsed, hkernel, hcpu⟩ := checkRow_ok hcheck
    obtain ⟨out, host', hvisit, heffect⟩ := visitTask_hostCalls host hparsed hkernel hcpu
    simp only
    rw [hvisit]
    exact ⟨_, _, rfl, heffect⟩

end Step

/-! ### The run -/

/-- The tasks after the bindings of a report. -/
def afterBindings (tasks : ℤ → Option Task) (bs : List (ℤ × ℤ)) : ℤ → Option Task := fun tid =>
  (tasks tid).map fun task =>
    { task with affinity := ((lastVal tid bs).map fun cpu => {cpu}).getD task.affinity }

theorem afterBindings_nil (tasks : ℤ → Option Task) : afterBindings tasks [] = tasks := by
  funext tid
  unfold afterBindings
  rcases tasks tid with _ | task <;> rfl

/-- The last binding of a task is the one that counts. -/
theorem afterBindings_cons (tasks : ℤ → Option Task) (tid cpu : ℤ) (bs : List (ℤ × ℤ)) :
    afterBindings (bound tasks tid cpu) bs = afterBindings tasks ((tid, cpu) :: bs) := by
  funext t
  unfold afterBindings bound
  rw [lastVal]
  by_cases h : t = tid
  · subst h
    rw [if_pos rfl, if_pos rfl]
    rcases tasks t with _ | task
    · rfl
    · rcases lastVal t bs with _ | cpu' <;> rfl
  · rw [if_neg h, if_neg fun heq => h heq.symm, Option.or_none]

/-- The guards look at the names of the tasks only, and no bind changes a name. -/
theorem Guarded.of_bound {args : Args} {cpuCount : ℕ} {tasks : ℤ → Option Task} {row : SelectedRow}
    {tid tid' cpu : ℤ} (h : Guarded args cpuCount (bound tasks tid' cpu) row tid) :
    Guarded args cpuCount tasks row tid := by
  obtain ⟨task, htask, hname⟩ := h.live
  refine ⟨h.apply, h.parsed, h.kernel, h.cpu, ?_⟩
  unfold bound at htask
  split_ifs at htask
  · obtain ⟨task', htask', rfl⟩ := Option.map_eq_some_iff.mp htask
    exact ⟨task', htask', hname⟩
  · exact ⟨task, htask, hname⟩

/-- A row of the report, and the guards it passed if it is applied. -/
structure GuardedRow (args : Args) (cpuCount : ℕ) (tasks : ℤ → Option Task) (row : SelectedRow)
    (r : ReportRow) : Prop where
  report : ReportOf row r
  guarded : r.status = .applied → ∃ tid, r.tid = some tid ∧ Guarded args cpuCount tasks row tid

end Magm.Apply.Binding
