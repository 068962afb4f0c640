import Magm.Scx.Scheduler
import Mathlib.Logic.Relation

/-! # The statistics under every interleaving

`bump_configured` reads the whole `magm_stat` and writes the whole struct back, while the scheduler
increments its fields on every CPU. `main` attaches the scheduler after the plan is loaded, so no
write-back can overwrite an increment: in every reachable state every counter is, modulo `2 ^ 32`,
the number of the bumps that were done (`noUpdateLost`).

The parties take their steps in any order. A step of `main` is one system call or the code between
two of them (`MainStep`); an invocation of `magm_select_cpu` enters, looks its task up and
increments (`SchedStep`). An update of the target map fails on a full map, and wherever the
parameter `fault` says. -/

namespace Magm.Scx.Statistics

open Magm.Lib.Chars Magm.Lib.Stdio Magm.Lib.BoundedMap Magm.Scx.Loader Magm.Scx.Scheduler

/-! ### The parties -/

/-- System calls whose `i`-th update of the target map also fails when `fault i`; the number
counts the updates. The calls on the statistics succeed. -/
def faultyCalls (fault : ℕ → Bool) : MapCalls (Maps × ℕ) where
  updateTarget s key value :=
    if fault s.2 then ((s.1, s.2 + 1), false)
    else ((((mapCalls.updateTarget s.1 key value).1), s.2 + 1),
      (mapCalls.updateTarget s.1 key value).2)
  lookupStat s := mapCalls.lookupStat s.1
  updateStat s stat := (((mapCalls.updateStat s.1 stat).1, s.2), (mapCalls.updateStat s.1 stat).2)

/-- The variables of the loop of `load_plan_csv`, with the lines still to be read. -/
structure Loop where
  threadKeyCol : ℕ
  targetCpuCol : ℕ
  lines : List Text
  loaded : ℕ
  deriving DecidableEq

/-- Where `main` is. -/
inductive Phase
  /-- Before `load_plan_csv`. -/
  | opening
  /-- At the head of the loop over the rows. -/
  | row (loop : Loop)
  /-- The target map has taken the row, `bump_configured` is called. -/
  | bumping (loop : Loop)
  /-- `bump_configured` has looked `stat` up. -/
  | writing (stat : MagmStat) (loop : Loop)
  /-- `load_plan_csv` has returned. -/
  | returned (value : ℤ)
  /-- The scheduler is attached and `main` prints the statistics. -/
  | attached (value : ℤ)
  /-- The scheduler is detached. -/
  | exited (value : ℤ)

/-- Where an invocation of `magm_select_cpu` is. -/
inductive Stage
  | entered
  | lookedUp (found : Bool)
  | bumped (found : Bool)
  deriving DecidableEq

structure Invocation where
  task : Task
  stage : Stage

/-- The state of the system. `bumps` counts the completed calls of `bump_configured`; `invocations`
are those there have been so far. -/
structure State where
  phase : Phase
  maps : Maps
  updates : ℕ
  bumps : ℕ
  invocations : List Invocation

def State.initial : State := ⟨.opening, Maps.initial, 0, 0, []⟩

/-- `load_plan_csv` up to its loop over the rows: the value it returns early, or the loop. -/
def openPlan (file : Except ℕ Text) : Except ℤ Loop :=
  match file with
  | .error errno => .error (-errno)
  | .ok text =>
    match fgetsLines 4096 text with
    | [] => .error (-EINVAL)
    | header :: lines =>
      match headerCols header with
      | (some threadKeyCol, some targetCpuCol) => .ok ⟨threadKeyCol, targetCpuCol, lines, 0⟩
      | _ => .error (-EINVAL)

section Steps
variable (file : Except ℕ Text) (fault : ℕ → Bool)

/-- A step of `main`. -/
inductive MainStep : State → State → Prop
  | openFails {s : State} {value : ℤ} (hphase : s.phase = .opening)
      (h : openPlan file = .error value) :
      MainStep s { s with phase := .returned value }
  | opens {s : State} {loop : Loop} (hphase : s.phase = .opening) (h : openPlan file = .ok loop) :
      MainStep s { s with phase := .row loop }
  | skip {s : State} {k c loaded : ℕ} {line : Text} {lines : List Text}
      (hphase : s.phase = .row ⟨k, c, line :: lines, loaded⟩) (h : goodRow k c line = none) :
      MainStep s { s with phase := .row ⟨k, c, lines, loaded⟩ }
  | refused {s : State} {k c loaded key value : ℕ} {line : Text} {lines : List Text} {m : Maps × ℕ}
      (hphase : s.phase = .row ⟨k, c, line :: lines, loaded⟩)
      (h : goodRow k c line = some (key, value))
      (hm : (faultyCalls fault).updateTarget (s.maps, s.updates) key value = (m, false)) :
      MainStep s { s with phase := .row ⟨k, c, lines, loaded⟩, maps := m.1, updates := m.2 }
  | taken {s : State} {k c loaded key value : ℕ} {line : Text} {lines : List Text} {m : Maps × ℕ}
      (hphase : s.phase = .row ⟨k, c, line :: lines, loaded⟩)
      (h : goodRow k c line = some (key, value))
      (hm : (faultyCalls fault).updateTarget (s.maps, s.updates) key value = (m, true)) :
      MainStep s { s with phase := .bumping ⟨k, c, lines, loaded⟩, maps := m.1, updates := m.2 }
  | lookup {s : State} {loop : Loop} (hphase : s.phase = .bumping loop) :
      MainStep s { s with phase := .writing s.maps.stats loop }
  | writeBack {s : State} {stat : MagmStat} {loop : Loop} (hphase : s.phase = .writing stat loop) :
      MainStep s { s with
        phase := .row { loop with loaded := loop.loaded + 1 }
        maps := { s.maps with stats := stat.bump }
        bumps := s.bumps + 1 }
  | finish {s : State} {k c loaded : ℕ} (hphase : s.phase = .row ⟨k, c, [], loaded⟩) :
      MainStep s { s with phase := .returned loaded }
  | attach {s : State} {value : ℤ} (hphase : s.phase = .returned value) (h : 0 ≤ value) :
      MainStep s { s with phase := .attached value }
  | cleanup {s : State} {value : ℤ} (hphase : s.phase = .returned value) :
      MainStep s { s with phase := .exited value }
  | printStats {s : State} {value : ℤ} (hphase : s.phase = .attached value) : MainStep s s
  | detach {s : State} {value : ℤ} (hphase : s.phase = .attached value) :
      MainStep s { s with phase := .exited value }

/-- A step of an invocation of `magm_select_cpu`. One that has entered finishes also after
the scheduler is detached. -/
inductive SchedStep : State → State → Prop
  | enter {s : State} {value : ℤ} (p : Task) (hphase : s.phase = .attached value) :
      SchedStep s { s with invocations := s.invocations ++ [⟨p, .entered⟩] }
  | lookup {s : State} {i : ℕ} {p : Task} (h : s.invocations[i]? = some ⟨p, .entered⟩) :
      SchedStep s { s with
        invocations := s.invocations.set i ⟨p, .lookedUp (taskTargetCpu s.maps p).isSome⟩ }
  | bump {s : State} {i : ℕ} {p : Task} {found : Bool}
      (h : s.invocations[i]? = some ⟨p, .lookedUp found⟩) :
      SchedStep s { s with
        maps := { s.maps with stats := bumpStat s.maps.stats found }
        invocations := s.invocations.set i ⟨p, .bumped found⟩ }

def Step (s s' : State) : Prop := MainStep file fault s s' ∨ SchedStep s s'

/-- The states of the runs of `main`. -/
def Reachable (s : State) : Prop := Relation.ReflTransGen (Step file fault) State.initial s

variable {file fault} {s s' : State}

theorem Reachable.main (h : Reachable file fault s) (hs : MainStep file fault s s') :
    Reachable file fault s' := h.tail (Or.inl hs)

theorem Reachable.sched (h : Reachable file fault s) (hs : SchedStep s s') :
    Reachable file fault s' := h.tail (Or.inr hs)

end Steps

/-! ### The steps of `main` are `load_plan_csv` -/

/-- The value `load_plan_csv` has returned. -/
def Phase.value : Phase → Option ℤ
  | .returned n => some n
  | .attached n => some n
  | .exited n => some n
  | _ => none

section Loading
variable (file : Except ℕ Text) (fault : ℕ → Bool)

/-- The rest of the loop: the kernel after it, and the value returned. -/
def Loop.run (loop : Loop) (kernel : Maps × ℕ) : (Maps × ℕ) × ℤ :=
  let r := loadRows (faultyCalls fault) loop.threadKeyCol loop.targetCpuCol loop.lines kernel
    loop.loaded
  (r.1, r.2)

/-- What is left of `load_plan_csv`. -/
def rest (phase : Phase) (kernel : Maps × ℕ) : (Maps × ℕ) × ℤ :=
  match phase with
  | .opening => loadPlanCsv (faultyCalls fault) file kernel
  | .row loop => loop.run fault kernel
  | .bumping loop =>
    { loop with loaded := loop.loaded + 1 }.run fault (bumpConfigured (faultyCalls fault) kernel).1
  | .writing stat loop =>
    { loop with loaded := loop.loaded + 1 }.run fault (writeStat (faultyCalls fault) kernel stat).1
  | .returned value => (kernel, value)
  | .attached value => (kernel, value)
  | .exited value => (kernel, value)

theorem loadPlanCsv_eq_openPlan (kernel : Maps × ℕ) :
    loadPlanCsv (faultyCalls fault) file kernel =
      match openPlan file with
      | .error value => (kernel, value)
      | .ok loop => loop.run fault kernel := by
  unfold loadPlanCsv openPlan
  rcases file with errno | text
  · rfl
  · simp only
    rcases fgetsLines 4096 text with _ | ⟨header, lines⟩
    · rfl
    · rcases h : headerCols header with ⟨_ | k, _ | c⟩
      all_goals simp only [h]
      rfl

variable {file fault} {s s' : State}

/-- **A step of `main` does not change what `load_plan_csv` will have done.** -/
theorem rest_mainStep (h : MainStep file fault s s') :
    rest file fault s'.phase (s'.maps, s'.updates) =
      rest file fault s.phase (s.maps, s.updates) := by
  cases h with
  | openFails hphase h => rw [hphase, rest, rest, loadPlanCsv_eq_openPlan, h]
  | opens hphase h => rw [hphase, rest, rest, loadPlanCsv_eq_openPlan, h]
  | skip hphase h => rw [hphase, rest, rest, Loop.run, Loop.run, loadRows, h]
  | refused hphase h hm =>
    rw [hphase, rest, rest, Loop.run, Loop.run, loadRows, h]
    simp only [install, hm]
  | taken hphase h hm =>
    rw [hphase, rest, rest, Loop.run, Loop.run, loadRows, h]
    simp only [install, hm]
  | lookup hphase => rw [hphase]; rfl
  | writeBack hphase => rw [hphase]; rfl
  | finish hphase => rw [hphase]; rfl
  | attach hphase _ => rw [hphase]; rfl
  | cleanup hphase => rw [hphase]; rfl
  | printStats hphase => rfl
  | detach hphase => rw [hphase]; rfl

end Loading

/-! ### The invariant -/

/-- The number of invocations that have done their increment, with the given result. -/
def done (found : Bool) (invocations : List Invocation) : ℕ :=
  invocations.countP fun i => i.stage = .bumped found

/-- What a phase of the loader knows about the statistics. -/
def Phase.Sound (s : State) : Prop :=
  match s.phase with
  | .opening => s.bumps = 0
  | .row loop => s.bumps = loop.loaded
  | .bumping loop => s.bumps = loop.loaded
  | .writing stat loop => s.bumps = loop.loaded ∧ stat = s.maps.stats
  | .returned value => s.bumps = value.toNat
  | .attached value => s.bumps = value.toNat
  | .exited value => s.bumps = value.toNat

/-- **The invariant.** While the plan is loaded there are no invocations. -/
structure Inv (s : State) : Prop where
  configured : s.maps.stats.configuredTasks = s.bumps % 2 ^ 32
  selected : s.maps.stats.selectedTasks = done true s.invocations % 2 ^ 32
  fallback : s.maps.stats.fallbackTasks = done false s.invocations % 2 ^ 32
  sound : Phase.Sound s
  quiet : s.phase.value = none → s.invocations = []

theorem inv_initial : Inv State.initial := ⟨rfl, rfl, rfl, rfl, fun _ => rfl⟩

theorem done_append_entered (found : Bool) (l : List Invocation) (p : Task) :
    done found (l ++ [⟨p, .entered⟩]) = done found l := by
  simp [done, List.countP_append]

/-- An invocation that changes its stage. -/
theorem done_set {found : Bool} {l : List Invocation} {i : ℕ} {p : Task} {old new : Stage}
    (h : l[i]? = some ⟨p, old⟩) (hold : ∀ b, old ≠ .bumped b) :
    done found (l.set i ⟨p, new⟩) = done found l + if new = .bumped found then 1 else 0 := by
  obtain ⟨hi, hget⟩ := List.getElem?_eq_some_iff.mp h
  unfold done
  rw [List.countP_set hi, hget]
  simp [hold found]

section Preservation
variable {file : Except ℕ Text} {fault : ℕ → Bool} {s s' : State}

/-- `load_plan_csv` returns no count before its loop. -/
theorem openPlan_error {value : ℤ} (h : openPlan file = .error value) : value ≤ 0 := by
  unfold openPlan at h
  rcases file with errno | text
  · simp only [Except.error.injEq] at h
    omega
  · simp only at h
    split at h
    · simp only [Except.error.injEq, EINVAL] at h
      omega
    · split at h
      · simp at h
      · simp only [Except.error.injEq, EINVAL] at h
        omega

theorem openPlan_loaded {loop : Loop} (h : openPlan file = .ok loop) : loop.loaded = 0 := by
  unfold openPlan at h
  rcases file with errno | text
  · simp at h
  · simp only at h
    split at h
    · simp at h
    · split at h
      · rw [← Except.ok.inj h]
      · simp at h

/-- An update of the target map leaves the statistics alone. -/
theorem updateTarget_stats {kernel m : Maps × ℕ} {key value : ℕ} {taken : Bool}
    (h : (faultyCalls fault).updateTarget kernel key value = (m, taken)) :
    m.1.stats = kernel.1.stats := by
  rw [show m = ((faultyCalls fault).updateTarget kernel key value).1 by rw [h]]
  simp only [faultyCalls, mapCalls]
  rcases fault kernel.2 with _ | _
  · rcases kernel.1.targetCpuByTid.update key value with _ | m <;> rfl
  · rfl

/-- A step that changes no count keeps the invariant if the new phase knows enough. -/
theorem Inv.of_stats (h : Inv s) (hstats : s'.maps.stats = s.maps.stats)
    (hinvocations : s'.invocations = s.invocations)
    (hbumps : s'.bumps = s.bumps) (hsound : Phase.Sound s')
    (hvalue : s'.phase.value = none → s.phase.value = none) : Inv s' where
  configured := by rw [hstats, hbumps, h.configured]
  selected := by rw [hstats, hinvocations, h.selected]
  fallback := by rw [hstats, hinvocations, h.fallback]
  sound := hsound
  quiet hnone := by rw [hinvocations, h.quiet (hvalue hnone)]

theorem inv_mainStep (h : Inv s) (hs : MainStep file fault s s') : Inv s' := by
  have hsound := h.sound
  cases hs with
  | openFails hphase hopen =>
    have hle := openPlan_error hopen
    rw [Phase.Sound, hphase] at hsound
    refine h.of_stats rfl rfl rfl ?_ fun _ => by rw [hphase]; rfl
    simp only [Phase.Sound]
    omega
  | opens hphase hopen =>
    rw [Phase.Sound, hphase] at hsound
    refine h.of_stats rfl rfl rfl ?_ fun _ => by rw [hphase]; rfl
    simp only [Phase.Sound, openPlan_loaded hopen, hsound]
  | skip hphase _ =>
    rw [Phase.Sound, hphase] at hsound
    exact h.of_stats rfl rfl rfl hsound fun _ => by rw [hphase]; rfl
  | refused hphase _ hm =>
    rw [Phase.Sound, hphase] at hsound
    exact h.of_stats (updateTarget_stats hm) rfl rfl hsound fun _ => by rw [hphase]; rfl
  | taken hphase _ hm =>
    rw [Phase.Sound, hphase] at hsound
    exact h.of_stats (updateTarget_stats hm) rfl rfl hsound fun _ => by rw [hphase]; rfl
  | lookup hphase =>
    rw [Phase.Sound, hphase] at hsound
    exact h.of_stats rfl rfl rfl ⟨hsound, rfl⟩ fun _ => by rw [hphase]; rfl
  | writeBack hphase =>
    -- nothing has changed the statistics since they were looked up
    rw [Phase.Sound, hphase] at hsound
    obtain ⟨hbumps, rfl⟩ := hsound
    have hconf := h.configured
    refine ⟨?_, h.selected, h.fallback, ?_, fun _ => h.quiet (by rw [hphase]; rfl)⟩
    · simp only [MagmStat.bump, hconf]
      omega
    · simp only [Phase.Sound, hbumps]
  | finish hphase =>
    rw [Phase.Sound, hphase] at hsound
    refine h.of_stats rfl rfl rfl ?_ fun _ => by rw [hphase]; rfl
    simpa only [Phase.Sound, Int.toNat_natCast] using hsound
  | attach hphase _ =>
    rw [Phase.Sound, hphase] at hsound
    exact h.of_stats rfl rfl rfl hsound nofun
  | cleanup hphase =>
    rw [Phase.Sound, hphase] at hsound
    exact h.of_stats rfl rfl rfl hsound nofun
  | printStats hphase => exact h
  | detach hphase =>
    rw [Phase.Sound, hphase] at hsound
    exact h.of_stats rfl rfl rfl hsound nofun

/-- Once there are invocations the plan is loaded. -/
theorem Inv.value_ne_none (h : Inv s) {i : ℕ} {x : Invocation} (hx : s.invocations[i]? = some x) :
    s.phase.value ≠ none := by
  intro hv
  rw [h.quiet hv] at hx
  simp at hx

/-- What a loaded plan knows does not depend on the statistics. -/
theorem Phase.Sound.congr (hs : Phase.Sound s) (hv : s.phase.value ≠ none)
    (hphase : s'.phase = s.phase) (hbumps : s'.bumps = s.bumps) : Phase.Sound s' := by
  unfold Phase.Sound at hs ⊢
  rw [hphase, hbumps]
  rcases hp : s.phase with _ | loop | loop | ⟨stat, loop⟩ | value | value | value
  all_goals simp_all [Phase.value]

theorem inv_schedStep (h : Inv s) (hs : SchedStep s s') : Inv s' := by
  cases hs with
  | enter p hphase =>
    have hv : s.phase.value ≠ none := by rw [hphase]; simp [Phase.value]
    refine ⟨h.configured, ?_, ?_, h.sound.congr hv rfl rfl, fun hn => absurd hn hv⟩
    · rw [done_append_entered]
      exact h.selected
    · rw [done_append_entered]
      exact h.fallback
  | lookup hi =>
    have hv := h.value_ne_none hi
    refine ⟨h.configured, ?_, ?_, h.sound.congr hv rfl rfl, fun hn => absurd hn hv⟩
    · rw [done_set hi (by simp), if_neg (by simp)]
      exact h.selected
    · rw [done_set hi (by simp), if_neg (by simp)]
      exact h.fallback
  | @bump i p found hi =>
    have hv := h.value_ne_none hi
    have hsel := h.selected
    have hfall := h.fallback
    refine ⟨?_, ?_, ?_, h.sound.congr hv rfl rfl, fun hn => absurd hn hv⟩
    · rcases found with _ | _ <;> exact h.configured
    · rw [done_set hi (by simp)]
      rcases found with _ | _
      · simpa [bumpStat] using hsel
      · simp only [bumpStat, if_true]
        omega
    · rw [done_set hi (by simp)]
      rcases found with _ | _
      · simp only [bumpStat, Bool.false_eq_true, if_false, if_true]
        omega
      · simpa [bumpStat] using hfall

theorem inv_of_reachable (h : Reachable file fault s) : Inv s := by
  induction h with
  | refl => exact inv_initial
  | tail _ hs ih =>
    rcases hs with hs | hs
    · exact inv_mainStep ih hs
    · exact inv_schedStep ih hs

/-- An invocation does not touch the target map, nor what `main` does. -/
theorem schedStep_frame (hs : SchedStep s s') :
    s'.phase = s.phase ∧ s'.maps.targetCpuByTid = s.maps.targetCpuByTid ∧
      s'.maps.stats.configuredTasks = s.maps.stats.configuredTasks := by
  cases hs with
  | enter p _ => exact ⟨rfl, rfl, rfl⟩
  | lookup _ => exact ⟨rfl, rfl, rfl⟩
  | @bump i p found _ => rcases found with _ | _ <;> exact ⟨rfl, rfl, rfl⟩

theorem rest_of_value {phase : Phase} {value : ℤ} (h : phase.value = some value)
    (kernel : Maps × ℕ) :
    rest file fault phase kernel = (kernel, value) := by
  rcases phase with _ | loop | loop | ⟨stat, loop⟩ | n | n | n
  all_goals simp_all [Phase.value, rest]

theorem schedStep_value (h : Inv s) (hs : SchedStep s s') :
    ∃ value, s.phase.value = some value := by
  refine Option.ne_none_iff_exists'.mp ?_
  cases hs with
  | enter p hphase => rw [hphase]; simp [Phase.value]
  | lookup hi => exact h.value_ne_none hi
  | bump hi => exact h.value_ne_none hi

/-- **Every run loads what `load_plan_csv` loads**: its value, and its target map. -/
theorem rest_of_reachable (h : Reachable file fault s) :
    (rest file fault s.phase (s.maps, s.updates)).2 =
        (loadPlanCsv (faultyCalls fault) file (Maps.initial, 0)).2 ∧
      (rest file fault s.phase (s.maps, s.updates)).1.1.targetCpuByTid =
        (loadPlanCsv (faultyCalls fault) file (Maps.initial, 0)).1.1.targetCpuByTid := by
  induction h with
  | refl => exact ⟨rfl, rfl⟩
  | tail hr hs ih =>
    rcases hs with hs | hs
    · rw [rest_mainStep hs]
      exact ih
    · obtain ⟨value, hv⟩ := schedStep_value (inv_of_reachable hr) hs
      obtain ⟨hphase, htargets, -⟩ := schedStep_frame hs
      rw [rest_of_value hv] at ih
      rw [hphase, rest_of_value hv]
      exact ⟨ih.1, htargets.trans ih.2⟩

/-- **No update of the statistics is lost**, in any state of any run: every counter is the number of
its bumps, the scheduler never changes `configured_tasks`, and once the plan is loaded that is the
number `load_plan_csv` returned. -/
theorem noUpdateLost (h : Reachable file fault s) :
    (s.maps.stats.configuredTasks = s.bumps % 2 ^ 32 ∧
      ∀ s', SchedStep s s' → s'.maps.stats.configuredTasks = s.maps.stats.configuredTasks) ∧
    (∀ value, s.phase.value = some value →
      value = (loadPlanCsv (faultyCalls fault) file (Maps.initial, 0)).2 ∧
      s.maps.stats.configuredTasks = value.toNat % 2 ^ 32) ∧
    s.maps.stats.selectedTasks = done true s.invocations % 2 ^ 32 ∧
    s.maps.stats.fallbackTasks = done false s.invocations % 2 ^ 32 := by
  have hinv := inv_of_reachable h
  refine ⟨⟨hinv.configured, fun s' hs => (schedStep_frame hs).2.2⟩, fun value hv => ⟨?_, ?_⟩,
    hinv.selected, hinv.fallback⟩
  · have hrest := (rest_of_reachable h).1
    rwa [rest_of_value hv] at hrest
  · have hsound := hinv.sound
    rw [hinv.configured]
    congr 1
    unfold Phase.Sound at hsound
    rcases hp : s.phase with _ | loop | loop | ⟨stat, loop⟩ | n | n | n
    all_goals simp_all [Phase.value]

end Preservation

/-- The target map with the one row of `planFor65`. -/
def oneTarget : Bounded ℕ ℕ 65536 := (mapCalls.updateTarget Maps.initial 7 64).1.targetCpuByTid

/-- The plan of one row is loaded, and its thread has woken up once. -/
def wokenOnce : State :=
  ⟨.attached 1, ⟨oneTarget, ⟨1, 1, 0⟩⟩, 1, 1, [⟨⟨7, by decide, by decide⟩, .bumped true⟩]⟩

theorem reachable_wokenOnce : Reachable (.ok planFor65) (fun _ => false) wokenOnce := by
  have hopen : openPlan (.ok planFor65) = .ok ⟨0, 1, ["cpu:pid=7:worker,64\n".toList], 0⟩ := by
    decide +kernel
  have hgood : goodRow 0 1 "cpu:pid=7:worker,64\n".toList = some (7, 64) := by decide +kernel
  have hfound : (taskTargetCpu ⟨oneTarget, ⟨1, 0, 0⟩⟩ ⟨7, by decide, by decide⟩).isSome = true := by
    decide +kernel
  have h0 : Reachable (.ok planFor65) (fun _ => false) State.initial := Relation.ReflTransGen.refl
  have h1 := h0.main (.opens rfl hopen)
  have h2 : Reachable (.ok planFor65) (fun _ => false)
      ⟨.bumping ⟨0, 1, [], 0⟩, ⟨oneTarget, ⟨0, 0, 0⟩⟩, 1, 0, []⟩ :=
    h1.main (.taken (m := (⟨oneTarget, ⟨0, 0, 0⟩⟩, 1)) rfl hgood rfl)
  have h3 := h2.main (.lookup rfl)
  have h4 := h3.main (.writeBack rfl)
  have h5 := h4.main (.finish rfl)
  have h6 := h5.main (.attach rfl (by decide))
  have h7 := h6.sched (.enter ⟨7, by decide, by decide⟩ rfl)
  have h8 := h7.sched (.lookup (i := 0) rfl)
  exact h8.sched (@SchedStep.bump _ 0 _ true (congrArg (fun b => some (Invocation.mk _
    (.lookedUp b))) hfound))

theorem noUpdateLost_wokenOnce :
    (wokenOnce.maps.stats.configuredTasks = wokenOnce.bumps % 2 ^ 32 ∧
      ∀ s', SchedStep wokenOnce s' →
        s'.maps.stats.configuredTasks = wokenOnce.maps.stats.configuredTasks) ∧
    (∀ value, wokenOnce.phase.value = some value →
      value = (loadPlanCsv (faultyCalls fun _ => false) (.ok planFor65) (Maps.initial, 0)).2 ∧
      wokenOnce.maps.stats.configuredTasks = value.toNat % 2 ^ 32) ∧
    wokenOnce.maps.stats.selectedTasks = done true wokenOnce.invocations % 2 ^ 32 ∧
    wokenOnce.maps.stats.fallbackTasks = done false wokenOnce.invocations % 2 ^ 32 :=
  noUpdateLost reachable_wokenOnce

end Magm.Scx.Statistics
