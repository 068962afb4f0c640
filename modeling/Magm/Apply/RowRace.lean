import Magm.Apply.Race

/-! # Binding by name on a host that runs: `apply_cpu_affinity.py`

The script reads the name of a task, compares it, reads its affinity and binds it, and between any
two of these calls other tasks fork and exit. A task that is there throughout does not notice: its
rows of the report and its affinity are those of a host with this task alone on which nothing else
happens (`applyRows_alone`). So only a task that came during the run can be bound without its name
having been checked: the number of the task that was looked at may have come to it. Reading a name
is one call here; `Apply.Exits` has a task die within it. -/

namespace Magm.Apply.RowRace

open Magm.Lib.Chars Magm.Lib.PyStr Magm.Lib.BoundedMap Magm.Apply.Affinity Magm.Apply.Binding
open Magm.Apply.ProcessGroup Magm.Apply.Workload Magm.Apply.Race Magm.Table.Cells

/-! ### A task alone -/

/-- The only task of a host. -/
def onlyTask (t : Worker) : ℤ → Option Task := fun tid =>
  if tid = t.tid then some ⟨t.comm, t.affinity⟩ else none

/-- The host with one task; `verdict` is how the kernel answers a bind. -/
def only (t : Worker) (verdict : Option OsError) : Host := ⟨onlyTask t, fun _ => verdict, 0⟩

/-- `f` gives `out` for the task `t₀` alone, and leaves it as `t`. -/
structure Alone {β : Type*} (turns : List Turn) (f : Host → β × Host) (out : β) (t₀ t : Worker) :
    Prop where
  same : t = { t₀ with affinity := t.affinity }
  run : ∃ verdict host', (∀ e, verdict = some e → ∃ turn ∈ turns, turn.verdict = some e) ∧
    f (only t₀ verdict) = (out, host') ∧ host'.tasks = onlyTask t

section Only
variable (t : Worker) (verdict : Option OsError)

theorem only_tasks : (only t verdict).tasks t.tid = some ⟨t.comm, t.affinity⟩ := if_pos rfl

theorem procComm_only {tid : ℤ} (htid : (t.tid : ℤ) = tid) :
    procComm hostCalls tid (only t verdict) =
      (.ok (some (strip t.comm)), only t verdict) := by
  rw [procComm_hostCalls, ← htid, only_tasks]
  rfl

theorem currentAffinity_only {tid : ℤ} (htid : (t.tid : ℤ) = tid) :
    currentAffinity hostCalls tid (only t verdict) =
      (.ok (affinityText t.affinity), only t verdict) := by
  subst htid
  exact currentAffinity_hostCalls (only_tasks t verdict)

theorem bound_onlyTask (cpu : ℤ) :
    bound (onlyTask t) t.tid cpu = onlyTask { t with affinity := {cpu} } := by
  funext tid
  unfold bound onlyTask
  split_ifs <;> rfl

theorem bindTask_only (cpu : ℤ) : bindTask hostCalls t.tid cpu (only t none) =
    ((.applied, [], affinityText {cpu}),
      ⟨onlyTask { t with affinity := {cpu} }, fun _ => none, 1⟩) := by
  rw [bindTask_accepted cpu (only_tasks t none) rfl, ← bound_onlyTask]
  rfl

theorem bindTask_only_refused (cpu : ℤ) (e : OsError) :
    bindTask hostCalls t.tid cpu (only t (some e)) =
      (((bindFailure e).1, (bindFailure e).2, []), { only t (some e) with binds := 1 }) :=
  bindTask_refused cpu (only_tasks t (some e)) rfl

theorem Alone.of_affinity {β : Type*} {turns : List Turn} {f : Host → β × Host} {out : β}
    {affinity : Finset ℤ} {host' : Host} (h : f (only t none) = (out, host'))
    (htasks : host'.tasks = onlyTask { t with affinity := affinity }) :
    Alone turns f out t { t with affinity := affinity } :=
  ⟨rfl, none, host', fun _ he => absurd he.symm (Option.some_ne_none _), h, htasks⟩

/-- What leaves the host alone leaves the task alone. -/
theorem Alone.of_static {β : Type*} {turns : List Turn} {f : Host → β × Host} {out : β}
    (h : f (only t none) = (out, only t none)) : Alone turns f out t t :=
  Alone.of_affinity t h rfl

end Only

/-- What does nothing to a task alone, whatever `P` has been read of it. -/
theorem lasting_static {β : Type*} {S P : Worker → Prop} {turns : List Turn} {w : World} {tid : ℤ}
    {f : Host → β × Host} {out : β}
    (h : Lasting (fun t => S t ∧ ((t.tid : ℤ) = tid → P t)) w)
    (hf : ∀ t : Worker, (t.tid : ℤ) = tid → P t → f (only t none) = (out, only t none)) :
    Lasting (fun t => if (t.tid : ℤ) = tid then ∃ t₀, S t₀ ∧ Alone turns f out t₀ t else S t) w := by
  refine h.imp fun t ht => ?_
  split_ifs with htid
  · exact ⟨t, ht.1, Alone.of_static t (hf t htid (ht.2 htid))⟩
  · exact ht.1

/-! ### The calls for a row -/

section Calls
variable {S : Worker → Prop} {turns : List Turn} {r : Scene} (hturns : r.turns ⊆ turns)
  (hS : Lasting S r.world)

theorem next_turns {r : Scene} (h : r.turns ⊆ turns) : r.next.turns ⊆ turns :=
  fun _ hturn => h (List.mem_of_mem_tail hturn)

include hS

theorem procComm_race (tid : ℤ) :
    ∃ comm, procComm raceCalls.toHostCalls tid r = (.ok comm, r.next) ∧
      Lasting (fun t => S t ∧ ((t.tid : ℤ) = tid → comm = some (strip t.comm))) r.next.world := by
  have hS₁ : Lasting S r.next.world := hS.run _
  unfold procComm
  simp only [raceCalls]
  rcases ht : r.next.world.find? tid with _ | t
  · exact ⟨none, rfl, (hS₁.of_find?_none ht).imp fun u hu => ⟨hu.1, fun htid => absurd htid hu.2⟩⟩
  · refine ⟨_, rfl, (hS₁.of_find?_some ht).imp fun u hu => ⟨hu.1, fun htid => ?_⟩⟩
    rw [hu.2 htid]

theorem currentAffinity_race (tid : ℤ) :
    ∃ before, currentAffinity raceCalls.toHostCalls tid r = (.ok before, r.next) ∧
      Lasting (fun t => S t ∧ ((t.tid : ℤ) = tid → before = affinityText t.affinity))
        r.next.world := by
  have hS₁ : Lasting S r.next.world := hS.run _
  unfold currentAffinity
  simp only [raceCalls]
  rcases ht : r.next.world.find? tid with _ | t
  · exact ⟨[], rfl, (hS₁.of_find?_none ht).imp fun u hu => ⟨hu.1, fun htid => absurd htid hu.2⟩⟩
  · refine ⟨_, rfl, (hS₁.of_find?_some ht).imp fun u hu => ⟨hu.1, fun htid => ?_⟩⟩
    rw [hu.2 htid]

include hturns

/-- **A bind**: the task is bound or the kernel refuses, as it would be alone. -/
theorem bindTask_race (tid cpu : ℤ) :
    ∃ out r', bindTask raceCalls.toHostCalls tid cpu r = (out, r') ∧ r'.turns ⊆ turns ∧
      Lasting (fun t => if (t.tid : ℤ) = tid then
        ∃ t₀, S t₀ ∧ Alone turns (bindTask hostCalls tid cpu) out t₀ t else S t) r'.world := by
  have hS₁ : Lasting S r.next.world := hS.run _
  rcases ht : r.next.world.find? tid with _ | t
  · have hset : raceCalls.setAffinity tid cpu r = (.error .processLookup, r.next) := by
      simp only [raceCalls, ht]
    unfold bindTask
    rw [hset]
    exact ⟨_, _, rfl, next_turns hturns, lasting_gone hS₁ ht⟩
  · have hseen := hS₁.of_find?_some ht
    rcases he : r.turn.verdict with _ | e
    · have hset : raceCalls.setAffinity tid cpu r = (.ok (), r.next.bind tid cpu) := by
        simp only [raceCalls, ht, he]
      have hbound : Lasting (fun u => if (u.tid : ℤ) = tid then
          S t ∧ u = { t with affinity := {cpu} } else S u) (r.next.bind tid cpu).world := by
        refine (hseen.bind tid cpu).imp fun u hu => ?_
        split_ifs at hu ⊢ with htid
        · obtain ⟨t₀, ⟨hS₀, heq⟩, rfl⟩ := hu
          obtain rfl := heq htid
          exact ⟨hS₀, rfl⟩
        · exact hu.1
      obtain ⟨after, hafter, hlast⟩ := currentAffinity_race hbound tid
      unfold bindTask
      rw [hset]
      simp only
      rw [hafter]
      refine ⟨_, _, rfl, next_turns (next_turns hturns), hlast.imp fun u hu => ?_⟩
      split_ifs at hu ⊢ with htid
      · obtain ⟨⟨hSt, rfl⟩, htext⟩ := hu
        have htid' : (t.tid : ℤ) = tid := htid
        have htext' : after = affinityText {cpu} := htext htid
        have hrun := bindTask_only t cpu
        rw [htid', ← htext'] at hrun
        exact ⟨t, hSt, Alone.of_affinity t hrun rfl⟩
      · exact hu.1
    · have hset : raceCalls.setAffinity tid cpu r = (.error e, r.next) := by
        simp only [raceCalls, ht, he]
      unfold bindTask
      rw [hset]
      refine ⟨_, _, rfl, next_turns hturns, hseen.imp fun u hu => ?_⟩
      split_ifs with htid
      · have hrun := bindTask_only_refused u cpu e
        rw [htid] at hrun
        refine ⟨u, hu.1, rfl, some e, _, fun e' he' => ?_, hrun, rfl⟩
        obtain rfl := Option.some.inj he'
        exact ⟨_, hturns (turn_mem he), he⟩
      · exact hu.1

theorem bindRow_race (args : Args) (tid cpu : ℤ) (liveComm : Text) :
    ∃ out r', bindRow raceCalls.toHostCalls args tid cpu liveComm r = (.ok out, r') ∧
      r'.turns ⊆ turns ∧ Lasting (fun t => if (t.tid : ℤ) = tid then
        ∃ t₀, S t₀ ∧ Alone turns (bindRow hostCalls args tid cpu liveComm) (.ok out) t₀ t
          else S t) r'.world := by
  obtain ⟨before, hbefore, hlast⟩ := currentAffinity_race hS tid
  unfold bindRow
  rw [hbefore]
  simp only
  by_cases happly : args.apply = true
  · obtain ⟨out, r', hbind, hturns', hrest⟩ := bindTask_race (next_turns hturns) hlast tid cpu
    rw [if_pos happly, hbind]
    refine ⟨_, _, rfl, hturns', hrest.imp fun t ht => ?_⟩
    split_ifs at ht ⊢ with htid
    · obtain ⟨t₀, ⟨hS₀, htext⟩, hsame, verdict, host', hverdict, hrun, htasks⟩ := ht
      have htid₀ : (t₀.tid : ℤ) = tid := by
        rw [← htid, hsame]
      refine ⟨t₀, hS₀, hsame, verdict, host', hverdict, ?_, htasks⟩
      rw [currentAffinity_only t₀ verdict htid₀]
      simp only
      rw [hrun, htext htid₀]
    · exact ht.1
  · rw [if_neg happly]
    refine ⟨_, _, rfl, next_turns hturns, lasting_static hlast fun t htid htext => ?_⟩
    rw [currentAffinity_only t none htid]
    simp only
    rw [htext, if_neg happly]

/-- **A visit** of a task, whose name and affinity are read in front of the bind. -/
theorem visitTask_race (args : Args) (tid cpu : ℤ) (recordedComm : Text) :
    ∃ out r', visitTask raceCalls.toHostCalls args tid cpu recordedComm r = (.ok out, r') ∧
      r'.turns ⊆ turns ∧ Lasting (fun t => if (t.tid : ℤ) = tid then
        ∃ t₀, S t₀ ∧ Alone turns (visitTask hostCalls args tid cpu recordedComm) (.ok out) t₀ t
          else S t) r'.world := by
  obtain ⟨comm, hcomm, hlast⟩ := procComm_race hS tid
  unfold visitTask
  rw [hcomm]
  simp only
  split_ifs with hlive hname
  · refine ⟨_, _, rfl, next_turns hturns, lasting_static hlast fun t htid htext => ?_⟩
    rw [htext, Option.getD_some] at hlive
    rw [procComm_only t none htid, htext]
    simp only [Option.getD_some]
    rw [if_pos hlive]
  · refine ⟨_, _, rfl, next_turns hturns, lasting_static hlast fun t htid htext => ?_⟩
    rw [htext, Option.getD_some] at hlive hname
    rw [procComm_only t none htid, htext]
    simp only [Option.getD_some]
    rw [if_neg hlive, if_pos hname]
  · obtain ⟨out, r', hbind, hturns', hrest⟩ :=
      bindRow_race (next_turns hturns) hlast args tid cpu (comm.getD [])
    rw [hbind]
    refine ⟨_, _, rfl, hturns', hrest.imp fun t ht => ?_⟩
    split_ifs at ht ⊢ with htid
    · obtain ⟨t₀, ⟨hS₀, htext⟩, hsame, verdict, host', hverdict, hrun, htasks⟩ := ht
      have htid₀ : (t₀.tid : ℤ) = tid := by
        rw [← htid, hsame]
      rw [htext htid₀, Option.getD_some] at hlive hname hrun
      refine ⟨t₀, hS₀, hsame, verdict, host', hverdict, ?_, htasks⟩
      rw [procComm_only t₀ verdict htid₀]
      simp only [Option.getD_some]
      rw [if_neg hlive, if_neg hname, hrun]
    · exact ht.1

end Calls

/-! ### The rows -/

/-- The row does to the task what it does to the task alone, if it names its number at all. -/
structure RowDone (args : Args) (cpuCount : ℕ) (turns : List Turn) (row : SelectedRow)
    (rep : ReportRow) (t₀ t : Worker) : Prop where
  report : ReportOf row rep
  done : if (parseThreadKey row.threadKey).1 = some (t₀.tid : ℤ) then
    Alone turns (applyRow hostCalls args cpuCount row) (.ok rep) t₀ t else t = t₀

/-- The rows, one after the other. -/
inductive RowsDone (args : Args) (cpuCount : ℕ) (turns : List Turn) :
    List SelectedRow → List ReportRow → Worker → Worker → Prop
  | nil (t : Worker) : RowsDone args cpuCount turns [] [] t t
  | cons {row : SelectedRow} {rep : ReportRow} {rows : List SelectedRow} {report : List ReportRow}
    {t₀ u t : Worker} (first : RowDone args cpuCount turns row rep t₀ u)
    (rest : RowsDone args cpuCount turns rows report u t) :
    RowsDone args cpuCount turns (row :: rows) (rep :: report) t₀ t

section Rows
variable {args : Args} {cpuCount : ℕ} {turns : List Turn}

/-- A row that fails a check is the same on every host. -/
theorem applyRow_of_error {σ : Type*} (calls : HostCalls σ) {row : SelectedRow} {reason : Text}
    (h : checkRow args cpuCount row = .error reason) (s : σ) :
    applyRow calls args cpuCount row s = (.ok (reportRow row (skipped [] reason)), s) := by
  unfold applyRow
  rw [h]

theorem applyRow_race (row : SelectedRow) {S : Worker → Prop} {r : Scene}
    (hturns : r.turns ⊆ turns) (hS : Lasting S r.world) :
    ∃ rep r', applyRow raceCalls.toHostCalls args cpuCount row r = (.ok rep, r') ∧
      r'.turns ⊆ turns ∧
      Lasting (fun t => ∃ t₀, S t₀ ∧ RowDone args cpuCount turns row rep t₀ t) r'.world := by
  rcases hcheck : checkRow args cpuCount row with reason | tid
  · refine ⟨_, r, applyRow_of_error raceCalls.toHostCalls hcheck r, hturns, hS.imp fun t ht => ?_⟩
    refine ⟨t, ht, reportOf_reportRow _ _, ?_⟩
    split_ifs
    · exact Alone.of_static t (applyRow_of_error hostCalls hcheck _)
    · rfl
  · obtain ⟨hparsed, -, -⟩ := checkRow_ok hcheck
    obtain ⟨out, r', hvisit, hturns', hlast⟩ := visitTask_race hturns hS args tid row.targetCpu
      (parseThreadKey row.threadKey).2
    refine ⟨reportRow row out, r', ?_, hturns', hlast.imp fun t ht => ?_⟩
    · unfold applyRow
      rw [hcheck]
      simp only
      rw [hvisit]
    · split_ifs at ht with htid
      · obtain ⟨t₀, hS₀, hsame, verdict, host', hverdict, hrun, htasks⟩ := ht
        have htid₀ : (t₀.tid : ℤ) = tid := by
          rw [← htid, hsame]
        refine ⟨t₀, hS₀, reportOf_reportRow _ _, ?_⟩
        rw [if_pos (hparsed.trans (congrArg some htid₀.symm))]
        refine ⟨hsame, verdict, host', hverdict, ?_, htasks⟩
        unfold applyRow
        rw [hcheck]
        simp only
        rw [hrun]
      · refine ⟨t, ht, reportOf_reportRow _ _, ?_⟩
        rw [if_neg fun heq => htid (Option.some.inj (heq.symm.trans hparsed))]

/-- **The loop**, row by row. -/
theorem applyRows_race (args : Args) (cpuCount : ℕ) : ∀ (rows : List SelectedRow)
    {S : Worker → Prop} {r : Scene}, r.turns ⊆ turns → Lasting S r.world → ∃ report r',
      applyRows raceCalls.toHostCalls args cpuCount rows r = (.ok report, r') ∧
      Lasting (fun t => ∃ t₀, S t₀ ∧ RowsDone args cpuCount turns rows report t₀ t) r'.world
  | [], _, r, _, hS => ⟨[], r, rfl, hS.imp fun t ht => ⟨t, ht, .nil t⟩⟩
  | row :: rows, _, r, hturns, hS => by
    obtain ⟨rep, r', hrow, hturns', hone⟩ := applyRow_race row hturns hS
    obtain ⟨report, r'', hrows, hrest⟩ := applyRows_race args cpuCount rows hturns' hone
    refine ⟨rep :: report, r'', ?_, hrest.imp ?_⟩
    · rw [applyRows, hrow]
      simp only
      rw [hrows]
    · rintro t ⟨u, ⟨t₀, hS₀, hfirst⟩, hdone⟩
      exact ⟨t₀, hS₀, .cons hfirst hdone⟩

end Rows

/-! ### The task after the rows -/

section After
variable {args : Args} {cpuCount : ℕ} {turns : List Turn} {t₀ t : Worker}

theorem Alone.effect {row : SelectedRow} {rep : ReportRow}
    (h : Alone turns (applyRow hostCalls args cpuCount row) (.ok rep) t₀ t) :
    RowEffect args cpuCount (onlyTask t₀) (onlyTask t) row rep := by
  obtain ⟨-, verdict, host', -, hrun, htasks⟩ := h
  obtain ⟨rep', host'', hrow, heffect⟩ := applyRow_hostCalls args cpuCount row (only t₀ verdict)
  rw [hrun, Prod.mk.injEq] at hrow
  obtain ⟨hrep, rfl⟩ := hrow
  rw [← Except.ok.inj hrep, htasks] at heffect
  exact heffect

theorem bound_of_ne {tid cpu : ℤ} (h : tid ≠ t₀.tid) :
    bound (onlyTask t₀) tid cpu = onlyTask t₀ := by
  funext tid'
  unfold bound onlyTask
  split_ifs with h1 h2
  · exact absurd (h1.symm.trans h2) h
  · rfl
  · rfl
  · rfl

theorem RowDone.same {row : SelectedRow} {rep : ReportRow}
    (h : RowDone args cpuCount turns row rep t₀ t) : t = { t₀ with affinity := t.affinity } := by
  have hdone := h.done
  split_ifs at hdone
  · exact hdone.same
  · rw [hdone]

theorem of_rowBinding {rep : ReportRow} {tid cpu : ℤ} (h : rowBinding rep = some (tid, cpu)) :
    rep.status = .applied ∧ rep.tid = some tid ∧ rep.targetCpu = cpu := by
  unfold rowBinding at h
  split_ifs at h with hstatus
  obtain ⟨tid', htid, heq⟩ := Option.map_eq_some_iff.mp h
  obtain ⟨rfl, rfl⟩ := Prod.mk.inj heq
  exact ⟨hstatus, htid, rfl⟩

/-- **A row binds the task as it says.** -/
theorem RowDone.after {row : SelectedRow} {rep : ReportRow} {bs : List (ℤ × ℤ)}
    (h : RowDone args cpuCount turns row rep t₀ t) :
    afterBindings (onlyTask t) bs =
      afterBindings (onlyTask t₀) ((rowBinding rep).toList ++ bs) := by
  have hdone := h.done
  split_ifs at hdone with hname
  · have heffect := hdone.effect
    by_cases hstatus : rep.status = .applied
    · obtain ⟨tid, hguard, htasks⟩ := heffect.applied hstatus
      have htid : rep.tid = some tid := h.report.tid.trans hguard.parsed
      rw [htasks, rowBinding_applied hstatus htid, h.report.targetCpu, afterBindings_cons]
      rfl
    · rw [heffect.other hstatus, rowBinding_other hstatus]
      rfl
  · rw [hdone]
    rcases hbinding : rowBinding rep with _ | ⟨tid, cpu⟩
    · rfl
    · have htid := (of_rowBinding hbinding).2.1
      have hne : tid ≠ t₀.tid := fun heq => hname (by rw [← h.report.tid, htid, heq])
      exact ((congrArg (afterBindings · bs) (bound_of_ne hne)).symm.trans
        (afterBindings_cons (onlyTask t₀) tid cpu bs))

/-- The guards look at the name of the task, which stays. -/
theorem guarded_of_same {row : SelectedRow} {tid : ℤ}
    (hsame : t = { t₀ with affinity := t.affinity })
    (h : Guarded args cpuCount (onlyTask t) row tid) :
    Guarded args cpuCount (onlyTask t₀) row tid := by
  obtain ⟨task, htask, hname⟩ := h.live
  refine ⟨h.apply, h.parsed, h.kernel, h.cpu, ⟨t₀.comm, t₀.affinity⟩, ?_⟩
  rw [hsame] at htask
  unfold onlyTask at htask ⊢
  split_ifs at htask with htid
  obtain rfl := Option.some.inj htask
  exact ⟨if_pos htid, hname⟩

/-- A bind of the task has passed its guards. -/
theorem RowDone.guarded {row : SelectedRow} {rep : ReportRow} {cpu : ℤ}
    (h : RowDone args cpuCount turns row rep t₀ t)
    (hbinding : rowBinding rep = some ((t₀.tid : ℤ), cpu)) :
    row.targetCpu = cpu ∧ Guarded args cpuCount (onlyTask t₀) row t₀.tid := by
  obtain ⟨hstatus, htid, hcpu⟩ := of_rowBinding hbinding
  have hname : (parseThreadKey row.threadKey).1 = some (t₀.tid : ℤ) := h.report.tid.symm.trans htid
  have hdone := h.done
  rw [if_pos hname] at hdone
  obtain ⟨tid, hguard, -⟩ := hdone.effect.applied hstatus
  obtain rfl := Option.some.inj (hguard.parsed.symm.trans hname)
  exact ⟨h.report.targetCpu.symm.trans hcpu, hguard⟩

/-- What the run does to a task that is there throughout. -/
structure Treated (args : Args) (cpuCount : ℕ) (turns : List Turn) (rows : List SelectedRow)
    (report : List ReportRow) (t₀ t : Worker) : Prop where
  done : RowsDone args cpuCount turns rows report t₀ t
  same : t = { t₀ with affinity := t.affinity }
  affinity : onlyTask t = afterBindings (onlyTask t₀) (bindings report)
  guarded : ∀ cpu, ((t₀.tid : ℤ), cpu) ∈ bindings report → ∃ row ∈ rows, row.targetCpu = cpu ∧
    Guarded args cpuCount (onlyTask t₀) row t₀.tid

theorem treated_of_rowsDone {rows : List SelectedRow} {report : List ReportRow}
    (h : RowsDone args cpuCount turns rows report t₀ t) :
    Treated args cpuCount turns rows report t₀ t := by
  induction h with
  | nil t => exact ⟨.nil t, rfl, (afterBindings_nil _).symm, nofun⟩
  | @cons row rep rows report t₀ u t first rest ih =>
    have hsame := first.same
    have htid : u.tid = t₀.tid := by rw [hsame]
    refine ⟨.cons first rest, ?_, ?_, fun cpu hmem => ?_⟩
    · rw [ih.same, hsame]
    · rw [ih.affinity, first.after, bindings_cons]
    · rw [bindings_cons, List.mem_append, Option.mem_toList] at hmem
      rcases hmem with hmem | hmem
      · obtain ⟨hcpu, hguard⟩ := first.guarded hmem
        exact ⟨row, List.mem_cons_self, hcpu, hguard⟩
      · rw [← htid] at hmem ⊢
        obtain ⟨row', hrow', hcpu, hguard⟩ := ih.guarded cpu hmem
        exact ⟨row', List.mem_cons_of_mem _ hrow', hcpu, guarded_of_same hsame hguard⟩

end After

/-- Another task, with a process of its own. -/
def shell : Worker :=
  ⟨50, { StatLine.spoofed with pid := 50, comm := "bash".toList }, "bash\n".toList, {0, 1, 2, 3}⟩

theorem shell_tid : worker.tid ≠ shell.tid := by decide

theorem shell_pid : worker.line.pid ≠ shell.line.pid := by decide

/-- A host with both. Behind the check of its name the worker exits, and a child of the shell gets
its number. -/
def reused : Scene where
  world := {
    tasks := [worker, shell]
    births := []
    distinct := List.nodup_cons.mpr
      ⟨fun h => shell_tid (List.mem_singleton.mp h), List.nodup_singleton shell.tid⟩
    process := by
      intro t ht u hu hpid
      simp only [List.mem_cons, List.not_mem_nil, or_false] at ht hu
      rcases ht with rfl | rfl <;> rcases hu with rfl | rfl
      · rfl
      · exact absurd hpid shell_pid
      · exact absurd hpid.symm shell_pid
      · rfl }
  turns := [⟨[], none⟩, ⟨[.exit 42, .spawn 50 42 false], none⟩]

/-- The row of the worker. -/
def workerRow : SelectedRow where
  loadType := Cell.ofCsv "cpu".toList
  windowId := 3
  threadKey := Cell.ofCsv "cpu:pid=42:stress-ng".toList
  targetCpu := 1
  mode := "CE".toList
  physicalCore := "0".toList
  smtSlot := "1".toList

/-- The child of the shell is bound, and the report takes it for the worker. -/
example : ((applyRows raceCalls.toHostCalls ⟨true, false, false⟩ 4 [workerRow]
      reused).2.world.tasks.map fun t => (t.tid, t.comm, t.affinity)) =
    [(50, "bash\n".toList, {0, 1, 2, 3}), (42, "bash\n".toList, {1})] := by
  decide +kernel

end Magm.Apply.RowRace
