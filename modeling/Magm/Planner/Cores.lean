import Magm.Planner.Placement

/-! # The plan on more cores

`--physical-cores` decides the mode of a window, is the budget of the matching loop and divides the
number of threads in the column `rho`. A window that has the same mode on more cores keeps its plan
(`scheduleWindow_decisions`): what is new stands on the new cores, and only `rho` is another. Where
the mode changes, it changes from `SP` to `CE`, and the pairs give way to one thread a core; still
no fewer threads are bound, since the pairs are pairs of different rows. `scheduleAll_cores` says it
of the plan of a whole file. -/

namespace Magm.Planner.Cores

open Magm.Lib.Greedy Magm.Lib.GroupBy Magm.Table.Cells Magm.Planner.Score Magm.Planner.Schedule
open Magm.Planner.Placement

/-- The decision with the load of `physicalCores` cores. -/
def onCores (physicalCores : ℕ) (d : Decision) : Decision :=
  { d with rho := d.nRun / (max physicalCores 1 : ℕ) }

/-- The part of a plan that stands on the first `physicalCores` cores. -/
def restrict (physicalCores : ℕ) (ds : List Decision) : List Decision :=
  (ds.filter fun d => d.targetCpu < 2 * physicalCores).map (onCores physicalCores)

theorem restrict_append (physicalCores : ℕ) (ds ds' : List Decision) :
    restrict physicalCores (ds ++ ds') =
      restrict physicalCores ds ++ restrict physicalCores ds' := by
  simp [restrict]

theorem restrict_flatMap {α : Type*} (physicalCores : ℕ) (f : α → List Decision) (l : List α) :
    restrict physicalCores (l.flatMap f) = l.flatMap fun a => restrict physicalCores (f a) := by
  simp only [restrict, List.filter_flatMap, List.map_flatMap]

/-- Decisions that stand on core `core`. -/
theorem restrict_core {physicalCores core : ℕ} {ds : List Decision}
    (h : ∀ d ∈ ds, d.targetCpu / 2 = core) :
    restrict physicalCores ds =
      if core < physicalCores then ds.map (onCores physicalCores) else [] := by
  unfold restrict
  split_ifs with hc
  · rw [List.filter_eq_self.mpr fun d hd => by have := h d hd; simp; omega]
  · rw [List.filter_eq_nil_iff.mpr fun d hd => by have := h d hd; simp; omega, List.map_nil]

/-- A plan laid out core by core is cut after the cores there are. -/
theorem restrict_layout {α : Type*} (physicalCores : ℕ) {f f' : α × ℕ → List Decision}
    (hcore : ∀ p, ∀ d ∈ f p, d.targetCpu / 2 = p.2)
    (hload : ∀ p, (f p).map (onCores physicalCores) = f' p) : ∀ (xs : List α) (k : ℕ),
    restrict physicalCores ((xs.zipIdx k).flatMap f) =
      ((xs.take (physicalCores - k)).zipIdx k).flatMap f'
  | [], k => by simp [restrict]
  | x :: xs, k => by
    rw [List.zipIdx_cons, List.flatMap_cons, restrict_append, restrict_core (hcore (x, k)),
      restrict_layout physicalCores hcore hload xs (k + 1)]
    by_cases hk : k < physicalCores
    · obtain ⟨n, hn⟩ : ∃ n, physicalCores - k = n + 1 := ⟨physicalCores - k - 1, by omega⟩
      have hn' : physicalCores - (k + 1) = n := by omega
      rw [if_pos hk, hload, hn, hn', List.take_succ_cons, List.zipIdx_cons, List.flatMap_cons]
    · rw [if_neg hk, Nat.sub_eq_zero_of_le (by omega), Nat.sub_eq_zero_of_le (by omega)]
      simp

theorem restrict_placed (physicalCores : ℕ) (rho : ℚ) (nRun : ℕ) (es : List Edge) :
    restrict physicalCores (placed rho nRun es 0) =
      placed (nRun / (max physicalCores 1 : ℕ)) nRun (es.take physicalCores) 0 := by
  refine restrict_layout physicalCores (fun p d hd => ?_) (fun p => rfl) es 0
  simp only [pairDecisions, List.mem_cons, List.not_mem_nil, or_false] at hd
  rcases hd with rfl | rfl <;> simp only [spDecision, cpuForCore] <;> omega

theorem restrict_spread (physicalCores : ℕ) (rho : ℚ) (nRun : ℕ) (rows : List Row) :
    restrict physicalCores (spread rho nRun rows 0) =
      spread (nRun / (max physicalCores 1 : ℕ)) nRun (rows.take physicalCores) 0 := by
  simp only [spread, List.map_eq_flatMap]
  refine restrict_layout physicalCores (fun p d hd => ?_) (fun p => rfl) rows 0
  rw [List.mem_singleton.mp hd]
  simp only [ceDecision, cpuForCore]
  omega

/-! ### One window -/

/-- `s` sums up a window on `cores` cores, `s'` the same window on `cores'`, at least as many. -/
structure Continues (cores cores' : ℕ) (s s' : Summary) : Prop where
  ce : s.mode = .CE → s'.mode = .CE
  mode : s.mode = s'.mode ↔ s.nRun ≤ max cores 1 ∨ max cores' 1 < s.nRun
  pairs : s.mode = s'.mode → s.pairs = min cores s'.pairs
  bound : s.boundThreads ≤ s'.boundThreads

/-- A decision of a window with the same mode on `cores` and on `cores'` cores. -/
def sameMode (cores cores' : ℕ) (d : Decision) : Bool :=
  d.nRun ≤ max cores 1 ∨ max cores' 1 < d.nRun

section Window
variable {sortValues : IntensitySort} {subdf : List Row} {cores cores' : ℕ} {theta : ℚ} {topK : ℕ}

theorem chosen_eq_take (h : cores ≤ cores') (cand : List Row) :
    chosen cand cores theta = (chosen cand cores' theta).take cores :=
  greedy_eq_take _ _ h _ _

/-- The pairs of a plan are pairs of different rows. -/
theorem two_mul_length_chosen_le (sortValues : IntensitySort) (subdf : List Row) (cores : ℕ)
    (theta : ℚ) (topK : ℕ) :
    2 * (chosen (candidates sortValues subdf topK) cores theta).length ≤ subdf.length :=
  calc 2 * (chosen (candidates sortValues subdf topK) cores theta).length
      ≤ (candidates sortValues subdf topK).length :=
        two_mul_length_greedy_le Row.threadKey Edge.a Edge.b cores []
          fun _ he => sublist_of_mem_pairs (mem_edges.mp he).1
    _ ≤ (sortValues.run subdf).length := candidates_sublist.length_le
    _ = subdf.length := sortValues.length_run subdf

theorem scheduleWindow_nRun : ∀ d ∈ (scheduleWindow sortValues subdf cores theta topK).1,
    d.nRun = subdf.length := by
  intro d hd
  rcases Nat.lt_or_ge (max cores 1) subdf.length with h | h
  · rw [scheduleWindow_placed h] at hd
    obtain ⟨i, hi, rfl | rfl⟩ := mem_placed.mp hd <;> rfl
  · rw [scheduleWindow_spread h] at hd
    obtain ⟨i, hi, rfl⟩ := mem_spread.mp hd
    rfl

theorem scheduleWindow_bound : (scheduleWindow sortValues subdf cores theta topK).2.boundThreads =
    (scheduleWindow sortValues subdf cores theta topK).1.length := by
  rcases Nat.lt_or_ge (max cores 1) subdf.length with h | h
  · rw [scheduleWindow_placed h, length_placed]
  · rw [scheduleWindow_spread h, length_spread, List.length_take, sortValues.length_run]

/-- **More cores bind no fewer threads** of a window, and as many pairs as there are cores for. -/
theorem scheduleWindow_continues (h : cores ≤ cores') :
    Continues cores cores' (scheduleWindow sortValues subdf cores theta topK).2
      (scheduleWindow sortValues subdf cores' theta topK).2 := by
  have hsp : Mode.SP ≠ Mode.CE := by decide
  have hmax : max cores 1 ≤ max cores' 1 := max_le_max_right 1 h
  rcases Nat.lt_or_ge (max cores 1) subdf.length with hn | hn
  · rw [scheduleWindow_placed hn]
    rcases Nat.lt_or_ge (max cores' 1) subdf.length with hn' | hn'
    · rw [scheduleWindow_placed hn', chosen_eq_take h]
      exact {
        ce := fun he => absurd he hsp
        mode := iff_of_true rfl (Or.inr hn')
        pairs := fun _ => List.length_take
        bound := Nat.mul_le_mul_left 2 (List.length_take_le' _ _) }
    · -- The mode changes to `CE`: the rows of the pairs are among those that get a core.
      rw [scheduleWindow_spread hn']
      have hlen := two_mul_length_chosen_le sortValues subdf cores theta topK
      exact {
        ce := fun he => absurd he hsp
        mode := iff_of_false hsp (by dsimp only; omega)
        pairs := fun he => absurd he hsp
        bound := hlen.trans (by dsimp only; omega) }
  · rw [scheduleWindow_spread hn, scheduleWindow_spread (hn.trans hmax)]
    exact {
      ce := fun _ => rfl
      mode := iff_of_true rfl (Or.inl hn)
      pairs := fun _ => (Nat.min_zero cores).symm
      bound := min_le_min_right _ h }

/-- **A window that keeps its mode keeps its plan** on the cores there were. -/
theorem scheduleWindow_decisions (h : cores ≤ cores')
    (hmode : subdf.length ≤ max cores 1 ∨ max cores' 1 < subdf.length) :
    (scheduleWindow sortValues subdf cores theta topK).1 =
      restrict cores (scheduleWindow sortValues subdf cores' theta topK).1 := by
  have hmax : max cores 1 ≤ max cores' 1 := max_le_max_right 1 h
  rcases hmode with hn | hn
  · rw [scheduleWindow_spread hn, scheduleWindow_spread (hn.trans hmax), restrict_spread,
      List.take_take, Nat.min_eq_left h]
  · rw [scheduleWindow_placed (hmax.trans_lt hn), scheduleWindow_placed hn, restrict_placed,
      chosen_eq_take h]

theorem scheduleWindow_sameMode (h : cores ≤ cores') :
    (scheduleWindow sortValues subdf cores theta topK).1.filter (sameMode cores cores') =
      restrict cores ((scheduleWindow sortValues subdf cores' theta topK).1.filter
        (sameMode cores cores')) := by
  by_cases hmode : subdf.length ≤ max cores 1 ∨ max cores' 1 < subdf.length
  · have hall : ∀ n, ∀ d ∈ (scheduleWindow sortValues subdf n theta topK).1,
        sameMode cores cores' d = true := fun n d hd =>
      decide_eq_true (by rw [scheduleWindow_nRun d hd]; exact hmode)
    rw [List.filter_eq_self.mpr (hall cores), List.filter_eq_self.mpr (hall cores')]
    exact scheduleWindow_decisions h hmode
  · have hnone : ∀ n, ∀ d ∈ (scheduleWindow sortValues subdf n theta topK).1,
        ¬ sameMode cores cores' d = true := fun n d hd hs =>
      hmode (by rw [← scheduleWindow_nRun d hd]; exact of_decide_eq_true hs)
    rw [List.filter_eq_nil_iff.mpr (hnone cores), List.filter_eq_nil_iff.mpr (hnone cores')]
    rfl

end Window

/-! ### All windows -/

/-- The plan `p'` continues the plan `p` on at least as many cores: the same windows in the same
order, and the decisions of the windows with the same mode are those of `p'` on the cores of `p`. -/
structure PlanContinues (cores cores' : ℕ) (p p' : List Decision × List (Summary × Text ×ₗ ℤ)) :
    Prop where
  windows : List.Forall₂ (fun s s' => s.2 = s'.2 ∧ Continues cores cores' s.1 s'.1) p.2 p'.2
  decisions : p.1.filter (sameMode cores cores') =
    restrict cores (p'.1.filter (sameMode cores cores'))
  length : p.1.length ≤ p'.1.length

/-- **The plan of a file on more cores continues its plan on fewer.** -/
theorem scheduleAll_cores (sortValues : IntensitySort) (df : List Row) (theta : ℚ) (topK : ℕ)
    {cores cores' : ℕ} (h : cores ≤ cores') :
    PlanContinues cores cores' (scheduleAll sortValues df cores theta topK)
      (scheduleAll sortValues df cores' theta topK) where
  windows := by
    simp only [scheduleAll, List.map_map]
    refine List.forall₂_map_left_iff.mpr (List.forall₂_map_right_iff.mpr ?_)
    exact List.forall₂_same.mpr fun g _ => ⟨rfl, scheduleWindow_continues h⟩
  decisions := by
    simp only [scheduleAll, List.flatMap_map, List.filter_flatMap, restrict_flatMap]
    exact List.flatMap_congr fun g _ => scheduleWindow_sameMode h
  length := by
    simp only [scheduleAll, List.flatMap_map, List.length_flatMap]
    refine List.sum_le_sum fun g _ => ?_
    rw [← scheduleWindow_bound, ← scheduleWindow_bound]
    exact (scheduleWindow_continues h).bound

theorem scheduleAll_cores_threeRows :
    PlanContinues 1 2 (scheduleAll intensitySort threeRows 1 (3 / 5) 32)
      (scheduleAll intensitySort threeRows 2 (3 / 5) 32) :=
  scheduleAll_cores intensitySort threeRows (3 / 5) 32 (by decide)

end Magm.Planner.Cores
