import Magm.Apply.ProcessGroup

/-! # A workload that runs: tasks that fork and exit

While the script looks at the tasks of a group and binds them, they fork, start threads and exit. A
new task has the affinity of its parent (`World.spawn`), and its number may be one that a task
that is gone has had. The births are logged, so that a task that is there from the beginning can be
told from one that came later: what is known about the former stays true whatever the workload does
(`Lasting.run`). -/

namespace Magm.Apply.Workload

open Magm.Lib.Chars Magm.Apply.ProcessGroup

/-- A live task, with the line that the kernel prints of its process. -/
structure Worker where
  tid : ℕ
  line : StatLine
  comm : Text
  affinity : Finset ℤ

/-- A task that came later; `ofOld` says that its parent had been there from the beginning. -/
structure Birth where
  tid : ℕ
  pgrp : ℤ
  affinity : Finset ℤ
  ofOld : Bool

/-- The live tasks, and the births so far. No two tasks have one number, and the tasks of a process
have its line. -/
structure World where
  tasks : List Worker
  births : List Birth
  distinct : (tasks.map Worker.tid).Nodup
  process : ∀ t ∈ tasks, ∀ u ∈ tasks, t.line.pid = u.line.pid → t.line = u.line

inductive Move
  | spawn (parent child : ℕ) (thread : Bool)
  | exit (tid : ℕ)

/-- The line of the process of a new task: of its parent's, or of its own. -/
def childLine (p : Worker) (child : ℕ) (thread : Bool) : StatLine :=
  if thread then p.line else { p.line with pid := child, ppid := p.line.pid }

theorem pgrp_childLine (p : Worker) (child : ℕ) (thread : Bool) :
    (childLine p child thread).pgrp = p.line.pgrp := by
  unfold childLine
  split_ifs <;> rfl

namespace World
variable (w : World)

def find? (tid : ℤ) : Option Worker := w.tasks.find? fun t => (t.tid : ℤ) = tid

/-- The tasks that came later. -/
def later : List ℕ := w.births.map Birth.tid

variable {w} in
theorem of_find? {tid : ℤ} {t : Worker} (h : w.find? tid = some t) :
    t ∈ w.tasks ∧ (t.tid : ℤ) = tid :=
  ⟨List.mem_of_find?_eq_some h, by simpa using List.find?_some (p := fun t => _) h⟩

variable {w} in
theorem eq_of_tid {t u : Worker} (ht : t ∈ w.tasks) (hu : u ∈ w.tasks) (h : t.tid = u.tid) :
    t = u :=
  List.inj_on_of_nodup_map w.distinct ht hu h

/-- A number that no task and no process has. -/
def Fresh (n : ℕ) : Prop := ∀ t ∈ w.tasks, t.tid ≠ n ∧ t.line.pid ≠ n

instance (n : ℕ) : Decidable (w.Fresh n) := List.decidableBAll _ _

/-- The new task. -/
def newborn (p : Worker) (child : ℕ) (thread : Bool) : Worker :=
  ⟨child, childLine p child thread, p.comm, p.affinity⟩

theorem process_newborn {p : Worker} (hp : p ∈ w.tasks) {child : ℕ} (hfresh : w.Fresh child)
    (thread : Bool) : ∀ t ∈ w.tasks, t.line.pid = (newborn p child thread).line.pid →
      t.line = (newborn p child thread).line := by
  intro t ht hpid
  cases thread with
  | true => exact w.process t ht p hp hpid
  | false => exact absurd hpid (hfresh t ht).2

def spawn (parent child : ℕ) (thread : Bool) : World :=
  match hp : w.find? parent with
  | none => w
  | some p =>
    if hfresh : w.Fresh child then {
      tasks := w.tasks ++ [newborn p child thread]
      births := w.births ++ [⟨child, p.line.pgrp, p.affinity, parent ∉ w.later⟩]
      distinct := by
        rw [List.map_append, List.map_singleton, ← List.concat_eq_append]
        refine w.distinct.concat fun hmem => ?_
        obtain ⟨t, ht, heq⟩ := List.mem_map.mp hmem
        exact (hfresh t ht).1 heq
      process := by
        have hnew := w.process_newborn (of_find? hp).1 hfresh thread
        intro t ht u hu hpid
        rcases List.mem_append.mp ht with ht | ht
        · rcases List.mem_append.mp hu with hu | hu
          · exact w.process t ht u hu hpid
          · obtain rfl := List.mem_singleton.mp hu
            exact hnew t ht hpid
        · obtain rfl := List.mem_singleton.mp ht
          rcases List.mem_append.mp hu with hu | hu
          · exact (hnew u hu hpid.symm).symm
          · obtain rfl := List.mem_singleton.mp hu
            rfl }
    else w

def exit (tid : ℕ) : World where
  tasks := w.tasks.filter fun t => t.tid ≠ tid
  births := w.births
  distinct := w.distinct.sublist (List.filter_sublist.map _)
  process := fun t ht u hu => w.process t (List.mem_of_mem_filter ht) u (List.mem_of_mem_filter hu)

def step : Move → World
  | .spawn parent child thread => w.spawn parent child thread
  | .exit tid => w.exit tid

def run : List Move → World := List.foldl step w

/-- The task that `sched_setaffinity` leaves. -/
def pin (tid : ℤ) (cpu : ℤ) (t : Worker) : Worker :=
  if (t.tid : ℤ) = tid then { t with affinity := {cpu} } else t

theorem pin_tid (tid cpu : ℤ) (t : Worker) : (pin tid cpu t).tid = t.tid := by
  unfold pin
  split_ifs <;> rfl

theorem pin_line (tid cpu : ℤ) (t : Worker) : (pin tid cpu t).line = t.line := by
  unfold pin
  split_ifs <;> rfl

/-- `os.sched_setaffinity(tid, {cpu})`. -/
def bind (tid cpu : ℤ) : World where
  tasks := w.tasks.map (pin tid cpu)
  births := w.births
  distinct := by
    have hcomp : Worker.tid ∘ pin tid cpu = Worker.tid := funext (pin_tid tid cpu)
    rw [List.map_map, hcomp]
    exact w.distinct
  process := by
    intro t ht u hu hpid
    obtain ⟨t', ht', rfl⟩ := List.mem_map.mp ht
    obtain ⟨u', hu', rfl⟩ := List.mem_map.mp hu
    rw [pin_line, pin_line] at hpid ⊢
    exact w.process t' ht' u' hu' hpid

variable {w}

/-- **What a move can do**: nothing, a birth, or an exit. -/
theorem step_cases (m : Move) : w.step m = w ∨
    (∃ parent child thread, ∃ p ∈ w.tasks, p.tid = parent ∧ w.Fresh child ∧
      (w.step m).tasks = w.tasks ++ [newborn p child thread] ∧
      (w.step m).births = w.births ++ [⟨child, p.line.pgrp, p.affinity, parent ∉ w.later⟩]) ∨
    ∃ tid, (w.step m).tasks = w.tasks.filter (fun t => t.tid ≠ tid) ∧
      (w.step m).births = w.births := by
  cases m with
  | spawn parent child thread =>
    rw [step, spawn]
    split
    · exact Or.inl rfl
    · rename_i p hp
      obtain ⟨hmem, htid⟩ := of_find? hp
      split_ifs with hfresh
      · exact Or.inr (Or.inl ⟨parent, child, thread, p, hmem, Nat.cast_injective htid, hfresh, rfl,
          rfl⟩)
      · exact Or.inl rfl
  | exit tid => exact Or.inr (Or.inr ⟨tid, rfl, rfl⟩)

end World

/-! ### Tasks that last -/

/-- Every task that is there from the beginning is as `S` says. -/
def Lasting (S : Worker → Prop) (w : World) : Prop := ∀ t ∈ w.tasks, t.tid ∉ w.later → S t

namespace Lasting
variable {S S' : Worker → Prop} {w : World}

theorem imp (h : Lasting S w) (himp : ∀ t, S t → S' t) : Lasting S' w :=
  fun t ht hold => himp t (h t ht hold)

theorem and (h : Lasting S w) (h' : Lasting S' w) : Lasting (fun t => S t ∧ S' t) w :=
  fun t ht hold => ⟨h t ht hold, h' t ht hold⟩

/-- No move changes a task that lasts. -/
theorem step (h : Lasting S w) (m : Move) : Lasting S (w.step m) := by
  intro t ht hold
  unfold World.later at hold
  rcases World.step_cases (w := w) m with hstep | ⟨_, child, thread, p, -, -, -, htasks, hbirths⟩ |
      ⟨tid, htasks, hbirths⟩
  · rw [hstep] at ht hold
    exact h t ht hold
  · rw [htasks] at ht
    rw [hbirths, List.map_append, List.mem_append, not_or] at hold
    rcases List.mem_append.mp ht with ht | ht
    · exact h t ht hold.1
    · rw [List.mem_singleton.mp ht] at hold
      exact absurd (List.mem_singleton_self child) hold.2
  · rw [htasks] at ht
    rw [hbirths] at hold
    exact h t (List.mem_of_mem_filter ht) hold

theorem run : ∀ (moves : List Move) {w : World}, Lasting S w → Lasting S (w.run moves)
  | [], _, h => h
  | m :: moves, _, h => run moves (h.step m)

/-- The bind of a task is seen at this task. -/
theorem bind (h : Lasting S w) (tid cpu : ℤ) :
    Lasting (fun t => if (t.tid : ℤ) = tid then
      ∃ t₀, S t₀ ∧ t = { t₀ with affinity := {cpu} } else S t) (w.bind tid cpu) := by
  intro t ht hold
  obtain ⟨t₀, ht₀, rfl⟩ := List.mem_map.mp ht
  rw [World.pin_tid] at hold
  have hS := h t₀ ht₀ hold
  rw [World.pin_tid, World.pin]
  split_ifs with htid
  · exact ⟨t₀, hS, rfl⟩
  · exact hS

theorem of_find?_none (h : Lasting S w) {tid : ℤ} (hnone : w.find? tid = none) :
    Lasting (fun t => S t ∧ (t.tid : ℤ) ≠ tid) w := by
  refine h.and fun t ht _ htid => ?_
  have hfalse := List.find?_eq_none.mp hnone t ht
  exact hfalse (decide_eq_true htid)

theorem of_find?_some (h : Lasting S w) {tid : ℤ} {u : Worker} (hsome : w.find? tid = some u) :
    Lasting (fun t => S t ∧ ((t.tid : ℤ) = tid → t = u)) w := by
  obtain ⟨hu, hutid⟩ := World.of_find? hsome
  exact h.and fun t ht _ htid =>
    World.eq_of_tid ht hu (Nat.cast_injective (htid.trans hutid.symm))

end Lasting

/-! ### Tasks that are confined -/

/-- The affinity is one CPU of the plan. -/
def Confined (cpus : List ℕ) (affinity : Finset ℤ) : Prop := ∃ cpu ∈ cpus, affinity = {(cpu : ℤ)}

/-- No task of the group that had been there from the beginning has forked unbound. -/
def Orderly (cpus : List ℕ) (pgid : ℤ) (w : World) : Prop :=
  ∀ b ∈ w.births, b.ofOld = true → b.pgrp = pgid → Confined cpus b.affinity

/-- If so, the tasks of the group that came later are confined. -/
def LaterConfined (cpus : List ℕ) (pgid : ℤ) (w : World) : Prop :=
  Orderly cpus pgid w → ∀ t ∈ w.tasks, t.tid ∈ w.later → t.line.pgrp = pgid →
    Confined cpus t.affinity

section Confinement
variable {cpus : List ℕ} {pgid : ℤ} {w : World}

/-- A task is confined by the bind of its parent, or because its parent came later itself. -/
theorem LaterConfined.step (h : LaterConfined cpus pgid w) (m : Move) :
    LaterConfined cpus pgid (w.step m) := by
  intro horderly t ht hlater hgroup
  unfold World.later at hlater
  rcases World.step_cases (w := w) m with
      hstep | ⟨parent, child, thread, p, hp, hptid, hfresh, htasks, hbirths⟩ |
      ⟨tid, htasks, hbirths⟩
  · rw [hstep] at horderly ht hlater
    exact h horderly t ht hlater hgroup
  · unfold Orderly at horderly
    rw [hbirths] at horderly hlater
    have hbefore : Orderly cpus pgid w := fun b hb => horderly b (List.mem_append_left _ hb)
    rw [htasks] at ht
    rcases List.mem_append.mp ht with ht | ht
    · rw [List.map_append, List.mem_append] at hlater
      rcases hlater with hlater | hlater
      · exact h hbefore t ht hlater hgroup
      · exact absurd (List.mem_singleton.mp hlater) (hfresh t ht).1
    · obtain rfl := List.mem_singleton.mp ht
      have hpgrp : p.line.pgrp = pgid := (pgrp_childLine p child thread).symm.trans hgroup
      by_cases hold : p.tid ∈ w.later
      · exact h hbefore p hp hold hpgrp
      · exact horderly _ (List.mem_append_right _ (List.mem_singleton_self _))
          (decide_eq_true (hptid ▸ hold)) hpgrp
  · unfold Orderly at horderly
    rw [hbirths] at horderly hlater
    rw [htasks] at ht
    exact h horderly t (List.mem_of_mem_filter ht) hlater hgroup

theorem LaterConfined.run : ∀ (moves : List Move) {w : World}, LaterConfined cpus pgid w →
    LaterConfined cpus pgid (w.run moves)
  | [], _, h => h
  | m :: moves, _, h => run moves (h.step m)

theorem LaterConfined.bind (h : LaterConfined cpus pgid w) (tid : ℤ) {cpu : ℕ} (hcpu : cpu ∈ cpus) :
    LaterConfined cpus pgid (w.bind tid cpu) := by
  intro horderly t ht hlater hgroup
  obtain ⟨t₀, ht₀, rfl⟩ := List.mem_map.mp ht
  rw [World.pin_tid] at hlater
  rw [World.pin_line] at hgroup
  unfold World.pin
  split_ifs
  · exact ⟨cpu, hcpu, rfl⟩
  · exact h horderly t₀ ht₀ hlater hgroup

/-- **Children of confined tasks are confined.** -/
theorem confined_run : ∀ (moves : List Move) {w : World},
    (∀ t ∈ w.tasks, t.line.pgrp = pgid → Confined cpus t.affinity) →
    ∀ t ∈ (w.run moves).tasks, t.line.pgrp = pgid → Confined cpus t.affinity
  | [], _, h => h
  | m :: moves, w, h => by
    refine confined_run moves fun t ht hgroup => ?_
    rcases World.step_cases (w := w) m with hstep | ⟨_, child, thread, p, hp, -, -, htasks, -⟩ |
        ⟨tid, htasks, -⟩
    · rw [hstep] at ht
      exact h t ht hgroup
    · rw [htasks] at ht
      rcases List.mem_append.mp ht with ht | ht
      · exact h t ht hgroup
      · obtain rfl := List.mem_singleton.mp ht
        exact h p hp ((pgrp_childLine p child thread).symm.trans hgroup)
    · rw [htasks] at ht
      exact h t (List.mem_of_mem_filter ht) hgroup

end Confinement

end Magm.Apply.Workload
