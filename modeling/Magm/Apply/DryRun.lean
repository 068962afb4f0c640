import Magm.Apply.Binding

/-! # The dry run: `apply_cpu_affinity.py` without `--apply`

The script says what it would do before it is told to do it. The dry run changes nothing, and with
the answers of the kernel its report is enough to tell the report of the applied run on the same
host (`confirm`), up to the affinities that earlier rows have changed by then. So what the dry run
skips is skipped for the same reason, and what it announces is done unless the kernel refuses
(`dryRun_previews`). -/

namespace Magm.Apply.DryRun

open Magm.Lib.Chars Magm.Lib.PyStr Magm.Lib.BoundedMap Magm.Apply.Affinity Magm.Apply.Binding

/-! ### The report of the applied run -/

/-- The affinity of the task of a row once `bs` are bound. -/
def before (bs : List (ℤ × ℤ)) (row : ReportRow) : Text :=
  ((row.tid.bind fun tid => lastVal tid bs).map dec).getD row.affinityBefore

/-- A row of the dry run with the answer of the kernel. -/
def confirmRow (verdict : Option OsError) (bs : List (ℤ × ℤ)) (row : ReportRow) : ReportRow :=
  match verdict with
  | none => { row with status := .applied, affinityBefore := before bs row }
  | some e =>
    { row with
      status := (bindFailure e).1
      reason := (bindFailure e).2
      affinityBefore := before bs row
      affinityAfter := [] }

/-- The report of the applied run, from the bind `n` on; `bs` are those of the rows in front. -/
def confirm (verdict : ℕ → Option OsError) : ℕ → List (ℤ × ℤ) → List ReportRow → List ReportRow
  | _, _, [] => []
  | n, bs, row :: rows =>
    if row.status = .dryRun then
      let row' := confirmRow (verdict n) bs row
      row' :: confirm verdict (n + 1) (bs ++ (rowBinding row').toList) rows
    else row :: confirm verdict n bs rows

/-- The binding that a row of the dry run announces. -/
def announcement (r : ReportRow) : Option (ℤ × ℤ) :=
  if r.status = .dryRun then r.tid.map fun tid => (tid, r.targetCpu) else none

def announced (dry : List ReportRow) : List (ℤ × ℤ) := dry.filterMap announcement

/-! ### The two hosts -/

/-- The host of the applied run has the bindings `bs` ahead of that of the dry run. -/
structure Ahead (host host' : Host) (n : ℕ) (bs : List (ℤ × ℤ)) : Prop where
  tasks : host'.tasks = afterBindings host.tasks bs
  verdict : host'.verdict = host.verdict
  binds : host'.binds = n

theorem affinityText_singleton (cpu : ℤ) : affinityText {cpu} = dec cpu := by
  rw [affinityText, Finset.sort_singleton, List.map_singleton, List.intercalate_singleton]

theorem afterBindings_concat (tasks : ℤ → Option Task) (bs : List (ℤ × ℤ)) (tid cpu : ℤ) :
    bound (afterBindings tasks bs) tid cpu = afterBindings tasks (bs ++ [(tid, cpu)]) := by
  funext t
  unfold bound afterBindings
  rw [lastVal_concat]
  by_cases h : t = tid
  · rw [if_pos h, if_pos h.symm]
    cases tasks t <;> rfl
  · rw [if_neg h, if_neg fun heq => h heq.symm]

section Step
variable {row : SelectedRow} {host host' : Host} {n : ℕ} {bs : List (ℤ × ℤ)}

/-- A task has the same name on both hosts. -/
theorem Ahead.task (h : Ahead host host' n bs) {tid : ℤ} {task : Task}
    (htask : host.tasks tid = some task) : host'.tasks tid = some { task with
      affinity := ((lastVal tid bs).map fun cpu => {cpu}).getD task.affinity } := by
  rw [h.tasks, afterBindings, htask]
  rfl

theorem before_reportRow (bs : List (ℤ × ℤ)) {tid : ℤ}
    (hparsed : (parseThreadKey row.threadKey).1 = some tid) {affinity : Finset ℤ} (out : Outcome)
    (hout : out.before = affinityText affinity) :
    affinityText (((lastVal tid bs).map fun cpu => {cpu}).getD affinity) =
      before bs (reportRow row out) := by
  have htid : (reportRow row out).tid = some tid := hparsed
  have hbefore : (reportRow row out).affinityBefore = affinityText affinity := hout
  rw [before, htid, Option.bind_some, hbefore]
  rcases lastVal tid bs with _ | cpu
  · rfl
  · exact affinityText_singleton cpu

/-- What a row does in the two runs: it is skipped by both, or one announces what the other does. -/
inductive Confirmed (host host' : Host) (n : ℕ) (bs : List (ℤ × ℤ)) (d a : ReportRow)
    (host'' : Host) : Prop
  | skipped (status : d.status = .skipped) (same : a = d) (unchanged : host'' = host')
  | announced (status : d.status = .dryRun) (answer : a = confirmRow (host.verdict n) bs d)
    (ahead : Ahead host host'' (n + 1) (bs ++ (rowBinding a).toList))

/-- **A bind** is announced by the one run and made by the other. -/
theorem bindRow_ahead (args : Args) (h : Ahead host host' n bs) {tid : ℤ} {task : Task}
    (hparsed : (parseThreadKey row.threadKey).1 = some tid) (htask : host.tasks tid = some task)
    (liveComm : Text) : ∃ d a host'',
      bindRow hostCalls { args with apply := false } tid row.targetCpu liveComm host =
        (.ok d, host) ∧
      bindRow hostCalls { args with apply := true } tid row.targetCpu liveComm host' =
        (.ok a, host'') ∧
      d.status = .dryRun ∧ reportRow row a = confirmRow (host.verdict n) bs (reportRow row d) ∧
      Ahead host host'' (n + 1) (bs ++ (rowBinding (reportRow row a)).toList) := by
  have htask' := h.task htask
  set d : Outcome := ⟨liveComm, .dryRun, [], affinityText task.affinity, dec row.targetCpu⟩
  have hdry : bindRow hostCalls { args with apply := false } tid row.targetCpu liveComm host =
      (.ok d, host) := by
    unfold bindRow
    rw [currentAffinity_hostCalls htask]
    rfl
  have hbefore := before_reportRow bs hparsed d rfl
  unfold bindRow at hdry ⊢
  rw [currentAffinity_hostCalls htask']
  simp only [if_true]
  rcases hv : host.verdict n with _ | e
  · have hv' : host'.verdict host'.binds = none := by rw [h.verdict, h.binds, hv]
    rw [bindTask_accepted row.targetCpu htask' hv', affinityText_singleton]
    refine ⟨d, _, _, hdry, rfl, rfl, ?_, ?_⟩
    · rw [reportRow, confirmRow, ← hbefore]
      rfl
    · have hbinding : rowBinding (reportRow row ⟨liveComm, .applied, [], affinityText
          (((lastVal tid bs).map fun cpu => {cpu}).getD task.affinity), dec row.targetCpu⟩) =
            some (tid, row.targetCpu) := rowBinding_applied rfl hparsed
      rw [hbinding, Option.toList_some]
      exact ⟨by rw [h.tasks, afterBindings_concat], h.verdict, by rw [h.binds]⟩
  · have hv' : host'.verdict host'.binds = some e := by rw [h.verdict, h.binds, hv]
    rw [bindTask_refused row.targetCpu htask' hv']
    refine ⟨d, _, _, hdry, rfl, rfl, ?_, ?_⟩
    · rw [reportRow, confirmRow, ← hbefore]
      rfl
    · rw [rowBinding_other (bindFailure_ne e), Option.toList_none, List.append_nil]
      exact ⟨h.tasks, h.verdict, by rw [h.binds]⟩

theorem visitTask_ahead (args : Args) (h : Ahead host host' n bs) {tid : ℤ}
    (hparsed : (parseThreadKey row.threadKey).1 = some tid) (recordedComm : Text) :
    ∃ d a host'',
      visitTask hostCalls { args with apply := false } tid row.targetCpu recordedComm host =
        (.ok d, host) ∧
      visitTask hostCalls { args with apply := true } tid row.targetCpu recordedComm host' =
        (.ok a, host'') ∧
      Confirmed host host' n bs (reportRow row d) (reportRow row a) host'' := by
  unfold visitTask
  rw [procComm_hostCalls, procComm_hostCalls]
  simp only
  rcases htask : host.tasks tid with _ | task
  · have htask' : host'.tasks tid = none := by
      rw [h.tasks, afterBindings, htask]
      rfl
    rw [htask']
    exact ⟨_, _, _, rfl, rfl, .skipped rfl rfl rfl⟩
  · rw [h.task htask]
    simp only [Option.map_some, Option.getD_some]
    split_ifs with hlive hname
    · exact ⟨_, _, _, rfl, rfl, .skipped rfl rfl rfl⟩
    · exact ⟨_, _, _, rfl, rfl, .skipped rfl rfl rfl⟩
    · obtain ⟨d, a, host'', hdry, happly, hstatus, hanswer, hahead⟩ :=
        bindRow_ahead args h hparsed htask (strip task.comm)
      exact ⟨d, a, host'', hdry, happly, .announced hstatus hanswer hahead⟩

/-- **The step**, in both runs. -/
theorem applyRow_ahead (args : Args) (cpuCount : ℕ) (row : SelectedRow)
    (h : Ahead host host' n bs) : ∃ d a host'',
      applyRow hostCalls { args with apply := false } cpuCount row host = (.ok d, host) ∧
      applyRow hostCalls { args with apply := true } cpuCount row host' = (.ok a, host'') ∧
      Confirmed host host' n bs d a host'' := by
  have hcheck : ∀ apply, checkRow { args with apply := apply } cpuCount row =
      checkRow args cpuCount row := fun _ => rfl
  unfold applyRow
  rw [hcheck false, hcheck true]
  rcases hrow : checkRow args cpuCount row with reason | tid
  · exact ⟨_, _, _, rfl, rfl, .skipped rfl rfl rfl⟩
  · obtain ⟨hparsed, -, -⟩ := checkRow_ok hrow
    obtain ⟨d, a, host'', hdry, happly, hconfirmed⟩ :=
      visitTask_ahead args h hparsed (parseThreadKey row.threadKey).2
    simp only
    rw [hdry, happly]
    exact ⟨_, _, _, rfl, rfl, hconfirmed⟩

end Step

/-! ### The two runs -/

/-- **The runs**, row by row. -/
theorem applyRows_ahead (args : Args) (cpuCount : ℕ) : ∀ (rows : List SelectedRow)
    {host host' : Host} {n : ℕ} {bs : List (ℤ × ℤ)}, Ahead host host' n bs → ∃ dry host'',
      applyRows hostCalls { args with apply := false } cpuCount rows host = (.ok dry, host) ∧
      applyRows hostCalls { args with apply := true } cpuCount rows host' =
        (.ok (confirm host.verdict n bs dry), host'') ∧
      (∀ d ∈ dry, d.status = .dryRun ∨ d.status = .skipped) ∧
      host''.tasks =
        afterBindings host.tasks (bs ++ bindings (confirm host.verdict n bs dry))
  | [], host, host', n, bs, h => by
    refine ⟨[], host', rfl, rfl, List.forall_mem_nil _, ?_⟩
    rw [h.tasks]
    exact congrArg _ (List.append_nil bs).symm
  | row :: rows, host, host', n, bs, h => by
    obtain ⟨d, a, host'', hdry, happly, hconfirmed⟩ := applyRow_ahead args cpuCount row h
    rcases hconfirmed with ⟨hstatus, rfl, rfl⟩ | ⟨hstatus, hanswer, hahead⟩
    · obtain ⟨dry, host₃, hdrys, happlys, hkinds, htasks⟩ := applyRows_ahead args cpuCount rows h
      have hconfirm : confirm host.verdict n bs (a :: dry) =
          a :: confirm host.verdict n bs dry := if_neg (by rw [hstatus]; decide)
      refine ⟨a :: dry, host₃, ?_, ?_, List.forall_mem_cons.mpr ⟨.inr hstatus, hkinds⟩, ?_⟩
      · rw [applyRows, hdry]
        simp only
        rw [hdrys]
      · rw [applyRows, happly]
        simp only
        rw [happlys, hconfirm]
      · rw [htasks, hconfirm, bindings_cons, rowBinding_other (by rw [hstatus]; decide)]
        rfl
    · obtain ⟨dry, host₃, hdrys, happlys, hkinds, htasks⟩ :=
        applyRows_ahead args cpuCount rows hahead
      have hconfirm : confirm host.verdict n bs (d :: dry) =
          a :: confirm host.verdict (n + 1) (bs ++ (rowBinding a).toList) dry := by
        rw [confirm, if_pos hstatus, hanswer]
      refine ⟨d :: dry, host₃, ?_, ?_, List.forall_mem_cons.mpr ⟨.inl hstatus, hkinds⟩, ?_⟩
      · rw [applyRows, hdry]
        simp only
        rw [hdrys]
      · rw [applyRows, happly]
        simp only
        rw [happlys, hconfirm]
      · rw [htasks, hconfirm, bindings_cons, List.append_assoc]

/-- Without a refusal every announced binding is made. -/
theorem bindings_confirm {verdict : ℕ → Option OsError} : ∀ {n : ℕ} {bs : List (ℤ × ℤ)}
    {dry : List ReportRow}, (∀ m, n ≤ m → verdict m = none) →
      (∀ d ∈ dry, d.status = .dryRun ∨ d.status = .skipped) →
        bindings (confirm verdict n bs dry) = announced dry
  | _, _, [], _, _ => rfl
  | n, bs, d :: dry, hnone, hkinds => by
    obtain ⟨hkind, hkinds⟩ := List.forall_mem_cons.mp hkinds
    rcases hkind with hstatus | hstatus
    · have hbinding : rowBinding (confirmRow none bs d) = announcement d :=
        (if_pos rfl).trans (if_pos hstatus).symm
      have hcons : announced (d :: dry) = (announcement d).toList ++ announced dry := by
        unfold announced
        rw [List.filterMap_cons]
        cases announcement d <;> rfl
      rw [confirm, if_pos hstatus, hnone n le_rfl]
      simp only
      rw [bindings_cons, bindings_confirm (fun m hm => hnone m (by omega)) hkinds, hbinding, hcons]
    · have hno : ¬ d.status = .dryRun := by
        rw [hstatus]
        decide
      have hcons : announced (d :: dry) = announced dry :=
        List.filterMap_cons_none (if_neg hno)
      have hother : rowBinding d = none := rowBinding_other (by rw [hstatus]; decide)
      rw [confirm, if_neg hno, bindings_cons, hother, bindings_confirm hnone hkinds, hcons]
      rfl

/-- **The dry run is a preview.** It leaves the host as it is. The run with `--apply` on this host
reports the rows that the dry run has skipped in the same way, and the others with the answer of the
kernel, the task being bound if there is none; and if the kernel refuses nothing, the tasks are
bound as announced. -/
theorem dryRun_previews (args : Args) (cpuCount : ℕ) (rows : List SelectedRow) (host : Host) :
    ∃ dry host', applyRows hostCalls { args with apply := false } cpuCount rows host =
        (.ok dry, host) ∧
      applyRows hostCalls { args with apply := true } cpuCount rows host =
        (.ok (confirm host.verdict host.binds [] dry), host') ∧
      host'.tasks =
        afterBindings host.tasks (bindings (confirm host.verdict host.binds [] dry)) ∧
      ((∀ n, host.binds ≤ n → host.verdict n = none) →
        host'.tasks = afterBindings host.tasks (announced dry)) := by
  have hstart : Ahead host host host.binds [] := ⟨(afterBindings_nil host.tasks).symm, rfl, rfl⟩
  obtain ⟨dry, host', hdry, happly, hkinds, htasks⟩ := applyRows_ahead args cpuCount rows hstart
  refine ⟨dry, host', hdry, happly, htasks, fun hnone => ?_⟩
  rw [← bindings_confirm hnone hkinds]
  exact htasks

end Magm.Apply.DryRun
