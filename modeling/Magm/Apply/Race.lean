import Magm.Apply.Workload

/-! # Binding a workload that runs: `apply_affinity_to_group`

The script lists the processes, reads their lines, lists their tasks and binds these one after the
other, and the workload runs on between any two of its calls. A report row is true of a task that is
there throughout (`applyAffinityToGroup_told`), and no task of another process group is touched.
What a fork leaves unbound is told by `confined_of_orderly`: only the child of a task that the
script had not come to can run outside of the plan. -/

namespace Magm.Apply.Race

open Magm.Lib.Chars Magm.Lib.PyStr Magm.Lib.ReadText Magm.Lib.Sorting Magm.Apply.Binding
open Magm.Apply.Live Magm.Apply.ProcessGroup Magm.Apply.Workload Magm.Table.Cells

/-! ### The calls -/

/-- The host with what the script reads of `/proc`. -/
structure ProcCalls (σ : Type*) extends LiveCalls σ where
  /-- The names in `/proc`. -/
  listProc : σ → List Text × σ
  /-- Reading `/proc/<name>/stat`. -/
  readStat : Text → σ → Except OsError ByteArray × σ
  /-- The names in `/proc/<pid>/task`. -/
  listTasks : ℤ → σ → Except OsError (List Text) × σ

/-- What leaves `apply_affinity_to_group`. -/
inductive ApplyError
  | group (e : GroupError)
  | live (e : LiveError)

section Script
variable {σ : Type*} (calls : ProcCalls σ)

/-- The loop of `process_group_pids`. -/
def scanGroup (pgid : ℤ) : List ℤ → List Text → σ → Except GroupError (List ℤ) × σ
  | pids, [], s => (.ok pids, s)
  | pids, name :: names, s =>
    if isdigit name then
      let r := calls.readStat name s
      match readStat ⟨name, r.1⟩ with
      | .error e => (.error e, r.2)
      | .ok none => scanGroup pgid pids names r.2
      | .ok (some stat) =>
        if stat.pgrp = pgid then
          match pyInt name with
          | none => (.error .valueError, r.2)
          | some pid => scanGroup pgid (pids ++ [pid]) names r.2
        else scanGroup pgid pids names r.2
    else scanGroup pgid pids names s

def processGroupPids (pgid : ℤ) (s : σ) : Except GroupError (List ℤ) × σ :=
  let dir := calls.listProc s
  match scanGroup calls pgid [] dir.1 dir.2 with
  | (.error e, s') => (.error e, s')
  | (.ok pids, s') => (.ok (sortBy id pids), s')

def taskTids (pid : ℤ) (s : σ) : Except GroupError (List ℤ) × σ :=
  match calls.listTasks pid s with
  | (.error .fileNotFound, s') => (.ok [], s')
  | (.error .processLookup, s') => (.ok [], s')
  | (.error .permission, s') => (.ok [], s')
  | (.error e, s') => (.error (.os e), s')
  | (.ok names, s') =>
    match (names.filter isdigit).mapM pyInt with
    | none => (.error .valueError, s')
    | some tids => (.ok (sortBy id tids), s')

/-- The tasks of the processes, in turn. -/
def gatherTids : List ℤ → σ → Except GroupError (List (List ℤ)) × σ
  | [], s => (.ok [], s)
  | pid :: pids, s =>
    match taskTids calls pid s with
    | (.error e, s') => (.error e, s')
    | (.ok tids, s') =>
      match gatherTids pids s' with
      | (.error e, s'') => (.error e, s'')
      | (.ok rest, s'') => (.ok (tids :: rest), s'')

/-- `apply_affinity_to_group`, with its reads. -/
def applyAffinityToGroup (pgid : ℤ) (cpuPlan : List ℕ) (s : σ) :
    Except ApplyError (List LiveRow) × σ :=
  match processGroupPids calls pgid s with
  | (.error e, s') => (.error (.group e), s')
  | (.ok pids, s') =>
    match gatherTids calls pids s' with
    | (.error e, s'') => (.error (.group e), s'')
    | (.ok tids, s'') =>
      match Live.applyAffinityToGroup calls.toHostCalls tids cpuPlan s'' with
      | (.error e, s₃) => (.error (.live e), s₃)
      | (.ok records, s₃) => (.ok records, s₃)

end Script

/-! ### The race -/

/-- What the workload does before a call, and how the kernel answers a bind of a live task. -/
structure Turn where
  moves : List Move
  verdict : Option OsError

structure Scene where
  world : World
  turns : List Turn

namespace Scene
variable (r : Scene)

def turn : Turn := r.turns.headD ⟨[], none⟩

/-- The workload has moved. -/
def next : Scene := ⟨r.world.run r.turn.moves, r.turns.tail⟩

def bind (tid cpu : ℤ) : Scene := ⟨r.world.bind tid cpu, r.turns⟩

end Scene

/-- The processes in `/proc`. -/
def procPids (w : World) : List ℕ := w.tasks.map fun t => t.line.pid

def statFile (w : World) (name : Text) : Except OsError ByteArray :=
  match w.tasks.find? fun t => decNat t.line.pid = name with
  | none => .error .fileNotFound
  | some t => .ok t.line.file

def tasksOf (w : World) (pid : ℤ) : List Worker := w.tasks.filter fun t => (t.line.pid : ℤ) = pid

def taskDir (w : World) (pid : ℤ) : Except OsError (List Text) :=
  match tasksOf w pid with
  | [] => .error .fileNotFound
  | ts => .ok (ts.map fun t => decNat t.tid)

/-- The calls of the script, with the moves of the workload between them. -/
def raceCalls : ProcCalls Scene where
  readComm tid r :=
    match r.next.world.find? tid with
    | none => (.error .fileNotFound, r.next)
    | some t => (.ok t.comm, r.next)
  getAffinity tid r :=
    match r.next.world.find? tid with
    | none => (.error .processLookup, r.next)
    | some t => (.ok t.affinity, r.next)
  setAffinity tid cpu r :=
    match r.next.world.find? tid, r.turn.verdict with
    | none, _ => (.error .processLookup, r.next)
    | some _, some e => (.error e, r.next)
    | some _, none => (.ok (), r.next.bind tid cpu)
  readComm_error tid r e he := by
    rcases hfind : r.next.world.find? tid with _ | t
    · rw [hfind] at he
      obtain rfl := Except.error.inj he
      exact List.mem_cons_self
    · rw [hfind] at he
      cases he
  listProc r := ((procPids r.next.world).dedup.map decNat, r.next)
  readStat name r := (statFile r.next.world name, r.next)
  listTasks pid r := (taskDir r.next.world pid, r.next)

/-! ### What a call can do -/

/-- An invariant that the moves of the workload keep, and the binds to the CPUs of a plan. -/
structure Kept (cpus : List ℕ) (I : Scene → Prop) : Prop where
  next : ∀ r, I r → I r.next
  bind : ∀ r tid, ∀ cpu ∈ cpus, I r → I (r.bind tid (cpu : ℕ))

/-- **How a bind ends**, by what has become of the task. -/
inductive Ends (tid : ℤ) (cpu : ℕ) (r : Scene) : LiveRow × Scene → Prop
  | exited (h : r.next.world.find? tid = none) :
    Ends tid cpu r (failedRow tid cpu [] .processLookup, r.next)
  | exitedUnbound {t : Worker} (ht : r.next.world.find? tid = some t)
      (h : r.next.next.world.find? tid = none) :
    Ends tid cpu r (failedRow tid cpu (affinityText t.affinity) .processLookup, r.next.next)
  | refused {t : Worker} {e : OsError} (ht : r.next.world.find? tid = some t)
      (he : r.next.turn.verdict = some e) :
    Ends tid cpu r (failedRow tid cpu (affinityText t.affinity) e, r.next.next)
  | exitedBound {t : Worker} (ht : r.next.world.find? tid = some t)
      (h : (r.next.next.bind tid cpu).next.world.find? tid = none) :
    Ends tid cpu r (failedRow tid cpu (affinityText t.affinity) .processLookup,
      (r.next.next.bind tid cpu).next)
  | applied {t u : Worker} (ht : r.next.world.find? tid = some t)
      (hu : (r.next.next.bind tid cpu).next.world.find? tid = some u) :
    Ends tid cpu r (⟨tid, [], cpu, .applied, [], affinityText t.affinity, affinityText u.affinity⟩,
      (r.next.next.bind tid cpu).next)

theorem bindLive_ends (tid : ℤ) (cpu : ℕ) (r : Scene) :
    Ends tid cpu r (bindLive raceCalls.toHostCalls tid cpu r) := by
  unfold bindLive
  simp only [raceCalls]
  rcases ht : r.next.world.find? tid with _ | t
  · exact .exited ht
  · simp only
    rcases hu : r.next.next.world.find? tid with _ | u
    · exact .exitedUnbound ht hu
    · rcases he : r.next.turn.verdict with _ | e
      · simp only
        rcases hv : (r.next.next.bind tid cpu).next.world.find? tid with _ | v
        · exact .exitedBound ht hv
        · exact .applied ht hv
      · exact .refused ht he

section Invariant
variable {cpus : List ℕ} {I : Scene → Prop} (hI : Kept cpus I)
include hI

theorem Ends.kept {tid : ℤ} {cpu : ℕ} {r : Scene} {x : LiveRow × Scene} (h : Ends tid cpu r x)
    (hcpu : cpu ∈ cpus) (hr : I r) : I x.2 := by
  have hnext := hI.next r hr
  have hnext2 := hI.next _ hnext
  cases h with
  | exited => exact hnext
  | exitedUnbound => exact hnext2
  | refused => exact hnext2
  | exitedBound => exact hI.next _ (hI.bind _ tid cpu hcpu hnext2)
  | applied => exact hI.next _ (hI.bind _ tid cpu hcpu hnext2)

end Invariant

/-! ### What a row says -/

/-- The row is true of a task `t` that was `t₀` when the loop came to it. -/
structure Told (turns : List Turn) (row : LiveRow) (t₀ t : Worker) : Prop where
  tid : row.tid = t.tid
  same : t = { t₀ with affinity := t.affinity }
  before : row.affinityBefore = affinityText t₀.affinity
  ended : (row.status = .applied ∧ t.affinity = {(row.targetCpu : ℤ)} ∧
      row.affinityAfter = affinityText t.affinity) ∨
    (t.affinity = t₀.affinity ∧ ∃ turn ∈ turns, ∃ e, turn.verdict = some e ∧
      (row.status, row.reason) = bindFailure e)

section Row
variable {S : Worker → Prop} {turns : List Turn} {r : Scene}

theorem turn_mem {e : OsError} (h : r.turn.verdict = some e) : r.turn ∈ r.turns := by
  unfold Scene.turn at h ⊢
  rcases hturns : r.turns with _ | ⟨turn, rest⟩
  · rw [hturns] at h
    cases h
  · exact List.mem_cons_self

/-- A task that is gone is none of those that are there throughout. -/
theorem lasting_gone {P : Worker → Prop} {tid : ℤ} {w : World} (h : Lasting S w)
    (hnone : w.find? tid = none) : Lasting (fun t => if (t.tid : ℤ) = tid then P t else S t) w := by
  refine (h.of_find?_none hnone).imp fun t ht => ?_
  rw [if_neg ht.2]
  exact ht.1

/-- **A row is true of its task**, and no other task is changed. -/
theorem Ends.told {tid : ℤ} {cpu : ℕ} {x : LiveRow × Scene} (h : Ends tid cpu r x)
    (hturns : r.turns ⊆ turns) (hS : Lasting S r.world) :
    Lasting (fun t => if (t.tid : ℤ) = tid then ∃ t₀, S t₀ ∧ Told turns x.1 t₀ t else S t)
      x.2.world := by
  have hS₁ : Lasting S r.next.world := hS.run _
  have hS₂ : Lasting S r.next.next.world := hS₁.run _
  have hseen : ∀ {t : Worker}, r.next.world.find? tid = some t →
      Lasting (fun u => S u ∧ ((u.tid : ℤ) = tid → u = t)) r.next.next.world :=
    fun ht => (hS₁.of_find?_some ht).run _
  have hbound : ∀ {t : Worker}, r.next.world.find? tid = some t →
      Lasting (fun u => if (u.tid : ℤ) = tid then S t ∧ u = { t with affinity := {(cpu : ℤ)} }
        else S u) (r.next.next.bind tid cpu).next.world := by
    intro t ht
    refine (((hseen ht).bind tid cpu).run _).imp fun u hu => ?_
    split_ifs at hu ⊢ with htid
    · obtain ⟨t₀, ⟨hS₀, heq⟩, rfl⟩ := hu
      obtain rfl := heq htid
      exact ⟨hS₀, rfl⟩
    · exact hu.1
  cases h with
  | exited h => exact lasting_gone hS₁ h
  | exitedUnbound ht h => exact lasting_gone hS₂ h
  | @refused t e ht he =>
    refine (hseen ht).imp fun u hu => ?_
    split_ifs with htid
    · obtain rfl := hu.2 htid
      have hmem : r.next.turn ∈ turns := hturns (List.mem_of_mem_tail (turn_mem he))
      exact ⟨u, hu.1, htid.symm, rfl, rfl, Or.inr ⟨rfl, _, hmem, e, he, rfl⟩⟩
    · exact hu.1
  | @exitedBound t ht h =>
    refine ((hbound ht).of_find?_none h).imp fun u hu => ?_
    rw [if_neg hu.2] at hu ⊢
    exact hu.1
  | @applied t v ht hv =>
    refine ((hbound ht).of_find?_some hv).imp fun u hu => ?_
    split_ifs with htid
    · rw [if_pos htid] at hu
      obtain ⟨⟨hSt, heq⟩, hv⟩ := hu
      have haff : u.affinity = {(cpu : ℤ)} := by rw [heq]
      refine ⟨t, hSt, htid.symm, ?_, rfl, Or.inl ⟨rfl, haff, ?_⟩⟩
      · rw [haff]
        exact heq
      · rw [hv htid]
    · rw [if_neg htid] at hu
      exact hu.1

/-- The name in a row is the task's. -/
theorem taskComm_told (hS : Lasting S r.world) (tid : ℤ) :
    ∃ comm, taskComm raceCalls.toHostCalls tid r = (.ok comm, r.next) ∧
      Lasting (fun t => S t ∧ ((t.tid : ℤ) = tid → comm = strip t.comm)) r.next.world := by
  have hS₁ : Lasting S r.next.world := hS.run _
  unfold taskComm
  simp only [raceCalls]
  rcases ht : r.next.world.find? tid with _ | t
  · exact ⟨[], rfl, (hS₁.of_find?_none ht).imp fun u hu => ⟨hu.1, fun htid => absurd htid hu.2⟩⟩
  · refine ⟨strip t.comm, rfl, (hS₁.of_find?_some ht).imp fun u hu => ⟨hu.1, fun htid => ?_⟩⟩
    rw [hu.2 htid]

end Row

/-! ### The loop over the tasks -/

theorem turns_kept (cpus : List ℕ) (turns : List Turn) :
    Kept cpus fun r => r.turns ⊆ turns where
  next _ h := fun _ hturn => h (List.mem_of_mem_tail hturn)
  bind _ _ _ _ h := h

section Loop
variable {cpuPlan : List ℕ} {turns : List Turn}

/-- **The loop tells of every task**, each in its turn. -/
theorem bindAll_told (hplan : cpuPlan ≠ []) : ∀ (tids : List ℤ) (idx : ℕ) (r : Scene)
    (S : Worker → Prop), tids.Nodup → r.turns ⊆ turns → Lasting S r.world →
    ∃ records r', bindAll raceCalls.toHostCalls cpuPlan idx tids r = (.ok records, r') ∧
      records.map LiveRow.tid = tids ∧
      Lasting (fun t => if (t.tid : ℤ) ∈ tids then ∃ row ∈ records, row.targetCpu ∈ cpuPlan ∧
        row.comm = strip t.comm ∧ ∃ t₀, S t₀ ∧ Told turns row t₀ t else S t) r'.world
  | [], _, r, S, _, _, hS =>
    ⟨[], r, rfl, rfl, hS.imp fun t ht => (if_neg List.not_mem_nil).mpr ht⟩
  | tid :: tids, idx, r, S, hnodup, hturns, hS => by
    obtain ⟨hnew, hnodup⟩ := List.nodup_cons.mp hnodup
    have hlt : idx % cpuPlan.length < cpuPlan.length :=
      Nat.mod_lt idx (List.length_pos_of_ne_nil hplan)
    obtain ⟨targetCpu, hcpu⟩ : ∃ cpu, cpuPlan[idx % cpuPlan.length]? = some cpu :=
      ⟨_, List.getElem?_eq_getElem hlt⟩
    have hmem := List.mem_of_getElem? hcpu
    have hends := bindLive_ends tid targetCpu r
    have htold := hends.told hturns hS
    have hturns' := hends.kept (turns_kept cpuPlan turns) hmem hturns
    obtain ⟨hrow, htarget⟩ := bindLive_row raceCalls.toHostCalls tid targetCpu r
    generalize hbind : bindLive raceCalls.toHostCalls tid targetCpu r = x
      at htold hturns' hrow htarget
    obtain ⟨comm, hcomm, hlast⟩ := taskComm_told htold tid
    obtain ⟨records, r', hrun, htids, hrest⟩ := bindAll_told hplan tids (idx + 1) x.2.next _ hnodup
      ((turns_kept cpuPlan turns).next _ hturns') hlast
    refine ⟨{ x.1 with comm := comm } :: records, r', ?_, ?_, hrest.imp fun t ht => ?_⟩
    · rw [bindAll, hcpu]
      simp only [hbind, hcomm, hrun]
    · rw [List.map_cons, htids, hrow]
    · by_cases htid : (t.tid : ℤ) ∈ tids
      · rw [if_pos (List.mem_cons_of_mem _ htid)]
        rw [if_pos htid] at ht
        obtain ⟨row, hrowmem, hrowcpu, hrowcomm, t₀, hS₀, htold⟩ := ht
        have htid₀ : t₀.tid = t.tid := by rw [htold.same]
        have hne : ¬ (t₀.tid : ℤ) = tid := fun heq => hnew (by rwa [← heq, htid₀])
        rw [if_neg hne] at hS₀
        exact ⟨row, List.mem_cons_of_mem _ hrowmem, hrowcpu, hrowcomm, t₀, hS₀.1, htold⟩
      · rw [if_neg htid] at ht
        split_ifs at ht with heq
        · obtain ⟨⟨t₀, hS₀, htold⟩, hname⟩ := ht
          rw [if_pos (heq ▸ List.mem_cons_self)]
          exact ⟨_, List.mem_cons_self, htarget ▸ hmem, hname heq, t₀, hS₀, htold.tid, htold.same,
            htold.before, htold.ended⟩
        · rw [if_neg fun hcons => (List.mem_cons.mp hcons).elim heq htid]
          exact ht.1

theorem bindAll_kept {I : Scene → Prop} (hI : Kept cpuPlan I) : ∀ (tids : List ℤ) (idx : ℕ)
    (r : Scene), I r → I (bindAll raceCalls.toHostCalls cpuPlan idx tids r).2
  | [], _, _, h => h
  | tid :: tids, idx, r, h => by
    rcases hcpu : cpuPlan[idx % cpuPlan.length]? with _ | targetCpu
    · rw [bindAll, hcpu]
      exact h
    · have hbind := (bindLive_ends tid targetCpu r).kept hI (List.mem_of_getElem? hcpu) h
      obtain ⟨comm, hcomm, -⟩ := taskComm_told (S := fun _ => True) (fun _ _ _ => trivial) tid
        (r := (bindLive raceCalls.toHostCalls tid targetCpu r).2)
      have hrest := bindAll_kept hI tids (idx + 1) _ (hI.next _ hbind)
      rw [bindAll, hcpu]
      simp only [hcomm]
      rcases hrun : bindAll raceCalls.toHostCalls cpuPlan (idx + 1) tids
          (bindLive raceCalls.toHostCalls tid targetCpu r).2.next with ⟨e | records, r'⟩
      · rw [hrun] at hrest
        exact hrest
      · rw [hrun] at hrest
        exact hrest

end Loop

/-! ### What the script finds -/

theorem decNat_injective {m n : ℕ} (h : decNat m = decNat n) : m = n := by
  have hm := pyInt_decNat m
  rw [h, pyInt_decNat] at hm
  exact (Nat.cast_injective (Option.some.inj hm)).symm

/-- The line that is read is the one of the tasks of the process. -/
theorem readStat_statFile (w : World) (n : ℕ) :
    ∃ stat, readStat ⟨decNat n, statFile w (decNat n)⟩ = .ok stat ∧
      ∀ t ∈ w.tasks, t.line.pid = n → stat.map ProcStat.pgrp = some t.line.pgrp := by
  unfold statFile
  split
  · rename_i hfind
    refine ⟨none, rfl, fun t ht hpid => ?_⟩
    have hfalse := List.find?_eq_none.mp hfind t ht
    exact absurd (decide_eq_true (congrArg decNat hpid)) hfalse
  · rename_i u hfind
    have hname : decNat u.line.pid = decNat n := by simpa using List.find?_some hfind
    have hu := List.mem_of_find?_eq_some hfind
    refine ⟨some u.line.readBack.stat, hname ▸ readStat_process u.line, fun t ht hpid => ?_⟩
    rw [w.process t ht u hu (hpid.trans (decNat_injective hname).symm)]
    rfl

section Find
variable {S : Worker → Prop}

/-- One process is looked at: `joins` says that it is taken. -/
theorem scanGroup_step (pgid : ℤ) (pids : List ℤ) (n : ℕ) (names : List Text) {r : Scene}
    (hS : Lasting S r.world) : ∃ joins : Prop, ∃ _ : Decidable joins,
      scanGroup raceCalls pgid pids (decNat n :: names) r =
        scanGroup raceCalls pgid (pids ++ if joins then [(n : ℤ)] else []) names r.next ∧
      Lasting (fun t => S t ∧ (t.line.pid = n → (joins ↔ t.line.pgrp = pgid))) r.next.world := by
  obtain ⟨stat, hread, hgroup⟩ := readStat_statFile r.next.world n
  have hS₁ : Lasting S r.next.world := hS.run _
  refine ⟨stat.map ProcStat.pgrp = some pgid, inferInstance, ?_, hS₁.and fun t ht _ hpid => ?_⟩
  · rw [scanGroup, if_pos (isdigit_decNat n)]
    simp only [raceCalls, hread]
    rcases stat with _ | stat
    · rw [if_neg nofun, List.append_nil]
    · simp only [pyInt_decNat, Option.map_some, Option.some.injEq]
      split_ifs
      · rfl
      · rw [List.append_nil]
  · rw [hgroup t ht hpid, Option.some.injEq]

/-- **The scan finds the group**: of the processes that are there throughout, those of the group. -/
theorem scanGroup_finds (pgid : ℤ) : ∀ (ns : List ℕ) (pids : List ℤ) (r : Scene)
    (S : Worker → Prop), Lasting S r.world → ∃ found : List ℤ,
      scanGroup raceCalls pgid pids (ns.map decNat) r =
        (.ok (pids ++ found), Scene.next^[ns.length] r) ∧
      (∀ pid ∈ found, ∃ n ∈ ns, (n : ℤ) = pid) ∧
      Lasting (fun t => S t ∧ (t.line.pid ∈ ns → ((t.line.pid : ℤ) ∈ found ↔ t.line.pgrp = pgid)))
        (Scene.next^[ns.length] r).world
  | [], pids, r, S, hS => by
    refine ⟨[], ?_, nofun, hS.imp fun t ht => ⟨ht, nofun⟩⟩
    rw [List.append_nil]
    rfl
  | n :: ns, pids, r, S, hS => by
    obtain ⟨joins, hdec, hstep, hone⟩ := scanGroup_step pgid pids n (ns.map decNat) hS
    obtain ⟨found, hrun, hfound, hrest⟩ := scanGroup_finds pgid ns
      (pids ++ if joins then [(n : ℤ)] else []) r.next _ hone
    refine ⟨(if joins then [(n : ℤ)] else []) ++ found, ?_, fun pid hpid => ?_,
      hrest.imp fun t ht => ⟨ht.1.1, fun hmem => ?_⟩⟩
    · rw [List.map_cons, hstep, hrun, List.append_assoc]
      rfl
    · rcases List.mem_append.mp hpid with hpid | hpid
      · split_ifs at hpid
        · exact ⟨n, List.mem_cons_self, (List.mem_singleton.mp hpid).symm⟩
        · exact absurd hpid List.not_mem_nil
      · obtain ⟨m, hm, heq⟩ := hfound pid hpid
        exact ⟨m, List.mem_cons_of_mem _ hm, heq⟩
    · obtain ⟨⟨-, hjoins⟩, hlater⟩ := ht
      have hhead : (t.line.pid : ℤ) ∈ (if joins then [(n : ℤ)] else []) ↔
          joins ∧ t.line.pid = n := by
        split_ifs with h
        · rw [List.mem_singleton, Nat.cast_inj]
          exact (and_iff_right h).symm
        · exact ⟨fun hnil => absurd hnil List.not_mem_nil, fun hand => absurd hand.1 h⟩
      rw [List.mem_append, hhead]
      by_cases heq : t.line.pid = n
      · by_cases hin : t.line.pid ∈ ns
        · rw [hlater hin, hjoins heq]
          exact ⟨fun h => h.elim And.left id, Or.inr⟩
        · have hout : (t.line.pid : ℤ) ∉ found := fun hmem => by
            obtain ⟨m, hm, hcast⟩ := hfound _ hmem
            exact hin (Nat.cast_injective hcast ▸ hm)
          rw [hjoins heq]
          exact ⟨fun h => h.elim And.left fun h => absurd h hout, fun h => Or.inl ⟨h, heq⟩⟩
      · have hin := (List.mem_cons.mp hmem).resolve_left heq
        rw [← hlater hin]
        exact ⟨fun h => h.resolve_left fun hand => heq hand.2, Or.inr⟩

theorem mapM_tids (ts : List Worker) :
    ((ts.map fun t => decNat t.tid).filter isdigit).mapM pyInt =
      some (ts.map fun t => (t.tid : ℤ)) := by
  have hdigits : (ts.map fun t => decNat t.tid).filter isdigit = ts.map fun t => decNat t.tid := by
    refine List.filter_eq_self.mpr fun name hname => ?_
    obtain ⟨t, -, rfl⟩ := List.mem_map.mp hname
    exact isdigit_decNat t.tid
  rw [hdigits, mapM_eq_some_iff, List.map_map, List.map_map]
  exact List.map_congr_left fun t _ => pyInt_decNat t.tid

theorem taskTids_finds (pid : ℤ) (r : Scene) :
    ∃ tids, taskTids raceCalls pid r = (.ok tids, r.next) ∧
      ∀ t ∈ r.next.world.tasks, (t.tid : ℤ) ∈ tids ↔ (t.line.pid : ℤ) = pid := by
  have hmem : ∀ t, t ∈ tasksOf r.next.world pid ↔
      t ∈ r.next.world.tasks ∧ (t.line.pid : ℤ) = pid := by
    intro t
    rw [tasksOf, List.mem_filter, decide_eq_true_eq]
  have hlisted : ∀ t ∈ r.next.world.tasks, (t.tid : ℤ) ∈
      (tasksOf r.next.world pid).map (fun u => (u.tid : ℤ)) ↔ (t.line.pid : ℤ) = pid := by
    intro t ht
    rw [List.mem_map]
    constructor
    · rintro ⟨u, hu, heq⟩
      obtain ⟨hu, hpid⟩ := (hmem u).mp hu
      rwa [← World.eq_of_tid hu ht (Nat.cast_injective heq)]
    · exact fun hpid => ⟨t, (hmem t).mpr ⟨ht, hpid⟩, rfl⟩
  unfold taskTids
  simp only [raceCalls, taskDir]
  rcases htasks : tasksOf r.next.world pid with _ | ⟨u, us⟩
  · rw [htasks] at hlisted
    exact ⟨[], rfl, hlisted⟩
  · rw [htasks] at hlisted
    simp only [mapM_tids]
    exact ⟨_, rfl, fun t ht => (mem_sortBy id _).trans (hlisted t ht)⟩

/-- **The tasks of the processes are found**, those that are there throughout. -/
theorem gatherTids_finds : ∀ (pids : List ℤ) (r : Scene) (S : Worker → Prop),
    Lasting S r.world → ∃ taskTids, gatherTids raceCalls pids r =
        (.ok taskTids, Scene.next^[pids.length] r) ∧
      Lasting (fun t => S t ∧ ((t.tid : ℤ) ∈ taskTids.flatten ↔ (t.line.pid : ℤ) ∈ pids))
        (Scene.next^[pids.length] r).world
  | [], _, _, hS =>
    ⟨[], rfl, hS.imp fun _ ht => ⟨ht, iff_of_false List.not_mem_nil List.not_mem_nil⟩⟩
  | pid :: pids, r, S, hS => by
    obtain ⟨tids, htids, hmem⟩ := taskTids_finds pid r
    have hone : Lasting (fun t => S t ∧ ((t.tid : ℤ) ∈ tids ↔ (t.line.pid : ℤ) = pid))
        r.next.world := Lasting.and (hS.run _) fun t ht _ => hmem t ht
    obtain ⟨rest, hrest, hlast⟩ := gatherTids_finds pids r.next _ hone
    refine ⟨tids :: rest, ?_, hlast.imp fun t ht => ⟨ht.1.1, ?_⟩⟩
    · rw [gatherTids]
      simp only [htids, hrest]
      rfl
    · rw [List.flatten_cons, List.mem_append, List.mem_cons, ht.1.2, ht.2]

/-- **The tasks of the group are found**, and of those that are there throughout no others. -/
theorem finds_group (pgid : ℤ) {r : Scene} (hS : Lasting S r.world) :
    ∃ pids r' taskTids k, processGroupPids raceCalls pgid r = (.ok pids, r') ∧
      gatherTids raceCalls pids r' = (.ok taskTids, Scene.next^[k] r) ∧
      Lasting (fun t => S t ∧ ((t.tid : ℤ) ∈ taskTids.flatten ↔ t.line.pgrp = pgid))
        (Scene.next^[k] r).world := by
  have hlisted : Lasting (fun t => S t ∧ t.line.pid ∈ (procPids r.next.world).dedup)
      r.next.world := Lasting.and (hS.run _) fun t ht _ =>
    List.mem_dedup.mpr (List.mem_map_of_mem ht)
  obtain ⟨found, hscan, -, hfound⟩ := scanGroup_finds pgid _ [] r.next _ hlisted
  obtain ⟨taskTids, hgather, hlast⟩ := gatherTids_finds (sortBy id found) _ _ hfound
  rw [← Function.iterate_succ_apply, ← Function.iterate_add_apply] at hgather hlast
  refine ⟨sortBy id found, _, taskTids, _, ?_, hgather, hlast.imp fun t ht => ?_⟩
  · unfold processGroupPids
    simp only [raceCalls] at hscan ⊢
    rw [hscan]
    rfl
  · obtain ⟨⟨⟨hS, hpid⟩, hgroup⟩, htid⟩ := ht
    rw [htid, mem_sortBy, hgroup hpid]
    exact ⟨hS, Iff.rfl⟩

end Find

/-! ### The report -/

theorem Kept.iterate {cpus : List ℕ} {I : Scene → Prop} (hI : Kept cpus I) {r : Scene} (h : I r)
    (k : ℕ) : I (Scene.next^[k] r) :=
  Function.Iterate.rec I h hI.next k

/-- What is known of a task of the group, or of another one, that is there throughout. -/
def Reported (cpuPlan : List ℕ) (pgid : ℤ) (r : Scene) (records : List LiveRow) (t : Worker) :
    Prop :=
  if t.line.pgrp = pgid then
    ∃ row ∈ records, row.targetCpu ∈ cpuPlan ∧ row.comm = strip t.comm ∧
      ∃ t₀ ∈ r.world.tasks, Told r.turns row t₀ t
  else t ∈ r.world.tasks

/-- **The run**: the script finds the tasks and binds them, and every invariant survives it. -/
theorem exists_run {cpuPlan : List ℕ} (hplan : cpuPlan ≠ []) (pgid : ℤ) (r : Scene) :
    ∃ records r', applyAffinityToGroup raceCalls pgid cpuPlan r = (.ok records, r') ∧
      (records.map LiveRow.tid).Nodup ∧ Lasting (Reported cpuPlan pgid r records) r'.world ∧
      ∀ I, Kept cpuPlan I → I r → I r' := by
  have hstart : Lasting (· ∈ r.world.tasks) r.world := fun t ht _ => ht
  obtain ⟨pids, r₁, taskTids, k, hpids, htids, hfound⟩ := finds_group pgid hstart
  have hturns := (turns_kept cpuPlan r.turns).iterate (fun _ h => h) k
  have hnodup := (sortBy_perm id (collectTids taskTids).tids).nodup_iff.mpr
    (collectTids taskTids).nodup
  obtain ⟨records, r', hrun, hrows, htold⟩ := bindAll_told hplan _ 0 _ _ hnodup hturns hfound
  have hmem : ∀ tid, tid ∈ sortBy id (collectTids taskTids).tids ↔ tid ∈ taskTids.flatten := by
    intro tid
    rw [mem_sortBy, ← List.mem_toFinset, collectTids_toFinset, liveTids, List.mem_toFinset]
  refine ⟨records, r', ?_, hrows ▸ hnodup, htold.imp fun t ht => ?_, fun I hI hr => ?_⟩
  · unfold applyAffinityToGroup Live.applyAffinityToGroup
    simp only [hpids, htids, hrun]
  · unfold Reported
    split_ifs at ht with hin
    · obtain ⟨row, hrow, hcpu, hcomm, t₀, ⟨hmem₀, hgroup⟩, htold⟩ := ht
      have htid : t₀.tid = t.tid := by rw [htold.same]
      have hline : t₀.line = t.line := by rw [htold.same]
      rw [htid, hline] at hgroup
      rw [if_pos (hgroup.mp ((hmem _).mp hin))]
      exact ⟨row, hrow, hcpu, hcomm, t₀, hmem₀, htold⟩
    · rw [if_neg fun hgroup => hin ((hmem _).mpr (ht.2.mpr hgroup))]
      exact ht.1
  · have hkept := bindAll_kept hI (sortBy id (collectTids taskTids).tids) 0 _ (hI.iterate hr k)
    rw [hrun] at hkept
    exact hkept

/-- A workload of one task. -/
def single (t : Worker) : World where
  tasks := [t]
  births := []
  distinct := List.nodup_singleton t.tid
  process u hu v hv _ := by rw [List.mem_singleton.mp hu, List.mem_singleton.mp hv]

/-- A worker of the group 7. -/
def worker : Worker :=
  ⟨42, { StatLine.spoofed with comm := "stress-ng".toList }, "stress-ng\n".toList, {0, 1, 2, 3}⟩

/-- The worker forks behind so many calls of the script. -/
def forksAfter (calls : ℕ) : Scene :=
  ⟨single worker, List.replicate calls ⟨[], none⟩ ++ [⟨[.spawn 42 43 false], none⟩]⟩

theorem laterConfined_kept (cpus : List ℕ) (pgid : ℤ) :
    Kept cpus fun r => LaterConfined cpus pgid r.world where
  next r h := h.run r.turn.moves
  bind _ tid _ hcpu h := h.bind tid hcpu

/-- A fork behind the bind, and one before it: the child of the latter runs anywhere. -/
example : ((applyAffinityToGroup raceCalls 7 [2, 3] (forksAfter 5)).2.world.tasks.map
      fun t => (t.tid, t.affinity)) = [(42, {2}), (43, {2})] ∧
    ((applyAffinityToGroup raceCalls 7 [2, 3] (forksAfter 4)).2.world.tasks.map
      fun t => (t.tid, t.affinity)) = [(42, {2}), (43, {0, 1, 2, 3})] := by
  decide +kernel

end Magm.Apply.Race
