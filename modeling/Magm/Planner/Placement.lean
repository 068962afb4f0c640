import Magm.Planner.Schedule
import Mathlib.Algebra.Order.Field.Basic
import Mathlib.Tactic.Linarith
import Mathlib.Tactic.Ring

/-! # The planner's placement is valid

The matching loop takes the edges that the greedy matching of `Lib.Greedy` takes with a budget of
one edge per core (`scanEdges_eq`), so its decisions are those of the taken edges, core by core.
From this `scheduleWindow_valid`: no CPU and no thread is used twice, and every used core holds a
pair that was scored as one. -/

namespace Magm.Planner.Placement

open Magm.Table.Cells Magm.Lib.Sorting Magm.Lib.Greedy Magm.Planner.Score Magm.Planner.Schedule

/-! ### The edges -/

theorem sublist_of_mem_pairs {α : Type*} : ∀ {l : List α} {p : α × α}, p ∈ pairs l →
    [p.1, p.2].Sublist l
  | [], p, hp => by simp [pairs] at hp
  | a :: l, p, hp => by
    simp only [pairs, List.mem_append, List.mem_map] at hp
    rcases hp with ⟨b, hb, rfl⟩ | hp
    · exact (List.singleton_sublist.mpr hb).cons_cons a
    · exact (sublist_of_mem_pairs hp).cons a

theorem mem_of_mem_pairs {α : Type*} {l : List α} {p : α × α} (hp : p ∈ pairs l) :
    p.1 ∈ l ∧ p.2 ∈ l :=
  have hsub := (sublist_of_mem_pairs hp).subset
  ⟨hsub (by simp), hsub (by simp)⟩

theorem pairs_pairwise {α : Type*} {R : α → α → Prop} {l : List α} (h : l.Pairwise R) :
    ∀ p ∈ pairs l, R p.1 p.2 := fun _ hp =>
  List.pairwise_pair.mp (h.sublist (sublist_of_mem_pairs hp))

theorem mem_edges {candidates : List Row} {theta : ℚ} {e : Edge} :
    e ∈ edges candidates theta ↔ (e.a, e.b) ∈ pairs candidates ∧
      e.score = complementarityScore e.a e.b theta ∧ 0 ≤ e.score := by
  simp only [edges, List.mem_insertionSort, rawEdges, List.mem_filterMap]
  constructor
  · rintro ⟨p, hp, he⟩
    split_ifs at he with h
    cases he
    exact ⟨hp, rfl, h⟩
  · rintro ⟨hp, hs, h⟩
    refine ⟨(e.a, e.b), hp, ?_⟩
    rw [← hs, if_pos h]

/-! ### The loop takes the greedy matching -/

/-- The edges the matching loop takes. -/
def chosen (candidates : List Row) (physicalCores : ℕ) (theta : ℚ) : List Edge :=
  greedy (fun e : Edge => e.a.threadKey) (fun e => e.b.threadKey) physicalCores []
    (edges candidates theta)

/-- The decisions for a list of taken edges, the first on core `k`. -/
def placed (rho : ℚ) (nRun : ℕ) (es : List Edge) (k : ℕ) : List Decision :=
  (es.zipIdx k).flatMap fun p => pairDecisions rho nRun p.1 p.2

@[simp] theorem placed_nil (rho : ℚ) (nRun k : ℕ) : placed rho nRun [] k = [] := rfl

theorem placed_cons (rho : ℚ) (nRun k : ℕ) (e : Edge) (es : List Edge) :
    placed rho nRun (e :: es) k = pairDecisions rho nRun e k ++ placed rho nRun es (k + 1) := by
  simp [placed]

/-- **The loop**: from any state it appends the decisions of the edges the greedy matching takes
with the budget that is left. -/
theorem scanEdges_eq (physicalCores : ℕ) (rho : ℚ) (nRun : ℕ) : ∀ (es : List Edge) (s : Scan),
    (scanEdges physicalCores rho nRun es s).decisions = s.decisions ++ placed rho nRun
        (greedy (fun e : Edge => e.a.threadKey) (fun e => e.b.threadKey)
          (physicalCores - s.coreIdx) s.usedThreads es) s.coreIdx ∧
      (scanEdges physicalCores rho nRun es s).pairCount = s.pairCount +
        (greedy (fun e : Edge => e.a.threadKey) (fun e => e.b.threadKey)
          (physicalCores - s.coreIdx) s.usedThreads es).length
  | [], s => by cases h : physicalCores - s.coreIdx <;> simp [scanEdges, greedy]
  | e :: es, s => by
    unfold scanEdges
    split_ifs with hc hu
    · rw [Nat.sub_eq_zero_of_le hc]; simp
    · obtain ⟨h1, h2⟩ := scanEdges_eq physicalCores rho nRun es s
      obtain ⟨n, hn⟩ : ∃ n, physicalCores - s.coreIdx = n + 1 :=
        ⟨physicalCores - s.coreIdx - 1, by omega⟩
      rw [h1, h2, hn]
      simp only [greedy, if_pos hu, and_self]
    · obtain ⟨h1, h2⟩ := scanEdges_eq physicalCores rho nRun es
        { coreIdx := s.coreIdx + 1
          pairCount := s.pairCount + 1
          usedThreads := e.a.threadKey :: e.b.threadKey :: s.usedThreads
          decisions := s.decisions ++ pairDecisions rho nRun e s.coreIdx }
      obtain ⟨n, hn⟩ : ∃ n, physicalCores - s.coreIdx = n + 1 :=
        ⟨physicalCores - s.coreIdx - 1, by omega⟩
      have hn' : physicalCores - (s.coreIdx + 1) = n := by omega
      rw [h1, h2, hn]
      simp only [hn', greedy, if_neg hu, placed_cons, List.append_assoc, List.length_cons, true_and]
      omega

section Chosen
variable {candidates : List Row} {physicalCores : ℕ} {theta : ℚ}

theorem chosen_mem {e : Edge} (he : e ∈ chosen candidates physicalCores theta) :
    (e.a, e.b) ∈ pairs candidates ∧ e.score = complementarityScore e.a e.b theta ∧ 0 ≤ e.score :=
  mem_edges.mp (mem_of_mem_greedy _ _ he)

theorem length_chosen_le : (chosen candidates physicalCores theta).length ≤ physicalCores :=
  length_greedy_le _ _ _ _ _

/-- With distinct thread keys no thread is an end of two taken edges. -/
theorem nodup_ends_chosen (hk : (candidates.map (·.threadKey)).Nodup) :
    (ends (fun e : Edge => e.a.threadKey) (fun e => e.b.threadKey)
      (chosen candidates physicalCores theta)).Nodup := by
  refine nodup_ends_greedy _ _ _ _ _ fun e he => ?_
  have hp : candidates.Pairwise fun r r' => r.threadKey ≠ r'.threadKey := List.pairwise_map.mp hk
  exact pairs_pairwise hp _ (mem_edges.mp he).1

end Chosen

/-! ### The decisions of the taken edges -/

section Placed
variable {rho : ℚ} {nRun : ℕ}

theorem mem_placed {es : List Edge} {k : ℕ} {d : Decision} : d ∈ placed rho nRun es k ↔
    ∃ i, ∃ h : i < es.length, d = spDecision rho nRun es[i].score es[i].a es[i].b (k + i) 0 ∨
      d = spDecision rho nRun es[i].score es[i].b es[i].a (k + i) 1 := by
  simp only [placed, pairDecisions, List.mem_flatMap, List.mem_cons, List.not_mem_nil, or_false]
  constructor
  · rintro ⟨⟨e, c⟩, hp, hd⟩
    obtain ⟨i, hi, he⟩ := List.getElem_of_mem hp
    rw [List.getElem_zipIdx, Prod.mk.injEq] at he
    obtain ⟨rfl, rfl⟩ := he
    exact ⟨i, by simpa using hi, hd⟩
  · rintro ⟨i, hi, hd⟩
    refine ⟨(es[i], k + i), ?_, hd⟩
    rw [List.mem_iff_getElem]
    exact ⟨i, by simpa using hi, by simp⟩

theorem length_placed : ∀ (es : List Edge) (k : ℕ), (placed rho nRun es k).length = 2 * es.length
  | [], k => rfl
  | e :: es, k => by
    rw [placed_cons, List.length_append, length_placed es (k + 1)]
    simp only [pairDecisions, List.length_cons, List.length_nil]; omega

/-- The CPUs are handed out in order, without gaps. -/
theorem placed_cpus : ∀ (es : List Edge) (k : ℕ),
    (placed rho nRun es k).map (·.targetCpu) = List.range' (2 * k) (2 * es.length)
  | [], k => rfl
  | e :: es, k => by
    have h2 : 2 * (e :: es).length = 2 * es.length + 1 + 1 := by simp; ring
    rw [placed_cons, List.map_append, placed_cpus es (k + 1), h2, List.range'_succ,
      List.range'_succ]
    simp only [pairDecisions, spDecision, cpuForCore, List.map_cons, List.map_nil, List.cons_append,
      List.nil_append, show k * 2 + 0 = 2 * k by ring, show k * 2 + 1 = 2 * k + 1 by ring]
    rfl

theorem placed_keys : ∀ (es : List Edge) (k : ℕ), (placed rho nRun es k).map (·.threadKey) =
    ends (fun e : Edge => e.a.threadKey) (fun e => e.b.threadKey) es
  | [], k => rfl
  | e :: es, k => by
    rw [placed_cons, List.map_append, placed_keys es (k + 1)]; rfl

/-- The decisions on core `c` are the two of the edge taken for it. -/
theorem placed_core : ∀ (es : List Edge) (k i : ℕ) (hi : i < es.length),
    (placed rho nRun es k).filter (fun d => d.targetCpu / 2 = k + i) =
      pairDecisions rho nRun es[i] (k + i)
  | e :: es, k, i, hi => by
    have hpair : ∀ d ∈ pairDecisions rho nRun e k, d.targetCpu / 2 = k := by
      simp only [pairDecisions, List.mem_cons, List.not_mem_nil, or_false]
      rintro d (rfl | rfl) <;> simp only [spDecision, cpuForCore] <;> omega
    have hrest : ∀ d ∈ placed rho nRun es (k + 1), k < d.targetCpu / 2 := by
      intro d hd
      obtain ⟨j, hj, rfl | rfl⟩ := mem_placed.mp hd <;> simp only [spDecision, cpuForCore] <;> omega
    rw [placed_cons, List.filter_append]
    rcases i with _ | i
    · rw [List.filter_eq_self.mpr fun d hd => by simpa using hpair d hd,
        List.filter_eq_nil_iff.mpr fun d hd => by have := hrest d hd; simp; omega]
      simp
    · have hi' : i < es.length := by simpa using hi
      have ih := placed_core es (k + 1) i hi'
      rw [show k + 1 + i = k + (i + 1) by ring] at ih
      rw [List.filter_eq_nil_iff.mpr fun d hd => by have := hpair d hd; simp; omega, ih]
      simp

end Placed

/-! ### The decisions of mode `CE` -/

/-- The decisions for `rows`, one core each, the first on core `k`. -/
def spread (rho : ℚ) (nRun : ℕ) (rows : List Row) (k : ℕ) : List Decision :=
  (rows.zipIdx k).map fun p => ceDecision rho nRun p.1 p.2

/-- The decision carries the data of the row `r`. -/
def Carries (d : Decision) (r : Row) : Prop :=
  d.threadKey = r.threadKey ∧ d.thread = r.thread ∧ d.pid = r.pid ∧ d.loadType = r.loadType ∧
    d.windowId = r.windowId

theorem ceDecision_carries (rho : ℚ) (nRun : ℕ) (r : Row) (c : ℕ) :
    Carries (ceDecision rho nRun r c) r := ⟨rfl, rfl, rfl, rfl, rfl⟩

theorem spDecision_carries (rho : ℚ) (nRun : ℕ) (s : ℚ) (r r' : Row) (c i : ℕ) :
    Carries (spDecision rho nRun s r r' c i) r := ⟨rfl, rfl, rfl, rfl, rfl⟩

section Spread
variable {rho : ℚ} {nRun : ℕ}

theorem mem_spread {rows : List Row} {k : ℕ} {d : Decision} : d ∈ spread rho nRun rows k ↔
    ∃ i, ∃ h : i < rows.length, d = ceDecision rho nRun rows[i] (k + i) := by
  simp only [spread, List.mem_map]
  constructor
  · rintro ⟨⟨r, c⟩, hp, rfl⟩
    obtain ⟨i, hi, he⟩ := List.getElem_of_mem hp
    rw [List.getElem_zipIdx, Prod.mk.injEq] at he
    obtain ⟨rfl, rfl⟩ := he
    exact ⟨i, by simpa using hi, rfl⟩
  · rintro ⟨i, hi, rfl⟩
    exact ⟨(rows[i], k + i), List.mem_iff_getElem.mpr ⟨i, by simpa using hi, by simp⟩, rfl⟩

theorem spread_carries : ∀ (rows : List Row) (k : ℕ),
    List.Forall₂ Carries (spread rho nRun rows k) rows
  | [], _ => .nil
  | r :: rows, k => .cons (ceDecision_carries rho nRun r k) (spread_carries rows (k + 1))

theorem spread_cpus : ∀ (rows : List Row) (k : ℕ), (spread rho nRun rows k).map (·.targetCpu) =
    (List.range' k rows.length).map fun i => cpuForCore i 0
  | [], _ => rfl
  | r :: rows, k => by
    rw [List.length_cons, List.range'_succ, List.map_cons, ← spread_cpus rows (k + 1)]; rfl

theorem spread_keys : ∀ (rows : List Row) (k : ℕ),
    (spread rho nRun rows k).map (·.threadKey) = rows.map (·.threadKey)
  | [], _ => rfl
  | r :: rows, k => by rw [List.map_cons, ← spread_keys rows (k + 1)]; rfl

theorem length_spread (rows : List Row) (k : ℕ) :
    (spread rho nRun rows k).length = rows.length := by
  simp [spread]

end Spread

/-! ### The two modes -/

section Modes
variable {sortValues : IntensitySort} {subdf : List Row} {physicalCores : ℕ} {theta : ℚ} {topK : ℕ}

/-- The rows the matching may use: the `topK` most intense ones. -/
def candidates (sortValues : IntensitySort) (subdf : List Row) (topK : ℕ) : List Row :=
  (sortValues.run subdf).take (min topK (sortValues.run subdf).length)

theorem candidates_sublist :
    (candidates sortValues subdf topK).Sublist (sortValues.run subdf) := List.take_sublist _ _

theorem mem_of_mem_candidates {r : Row} (h : r ∈ candidates sortValues subdf topK) : r ∈ subdf :=
  (sortValues.mem_run).mp (candidates_sublist.subset h)

theorem nodup_candidates (hk : (subdf.map (·.threadKey)).Nodup) :
    ((candidates sortValues subdf topK).map (·.threadKey)).Nodup := by
  refine (candidates_sublist.map _).nodup ?_
  exact (((sortValues.perm subdf).map _).nodup_iff).mpr hk

/-- The load `rho` is at most one exactly when there are no more threads than cores. -/
theorem rho_le_one_iff (h : 1 ≤ physicalCores) (n : ℕ) :
    ((n : ℚ) / physicalCores ≤ 1) ↔ n ≤ physicalCores := by
  have h1 : (1 : ℚ) ≤ physicalCores := by exact_mod_cast h
  rw [div_le_one (by linarith)]
  exact_mod_cast Iff.rfl

/-- The plan of a window in mode `CE`. -/
theorem scheduleWindow_spread (h : subdf.length ≤ max physicalCores 1) :
    scheduleWindow sortValues subdf physicalCores theta topK =
      (spread (subdf.length / (max physicalCores 1 : ℕ)) subdf.length
          ((sortValues.run subdf).take physicalCores) 0,
        ⟨.CE, subdf.length / (max physicalCores 1 : ℕ), subdf.length, 0,
          min physicalCores subdf.length⟩) := by
  have hr := (rho_le_one_iff (le_max_right physicalCores 1) subdf.length).mpr h
  unfold scheduleWindow
  simp only [Sorter.length_run, if_pos hr, List.length_map, List.length_zipIdx, List.length_take]
  rfl

/-- The plan of a window in mode `SP`. -/
theorem scheduleWindow_placed (h : max physicalCores 1 < subdf.length) :
    scheduleWindow sortValues subdf physicalCores theta topK =
      (placed (subdf.length / (max physicalCores 1 : ℕ)) subdf.length
          (chosen (candidates sortValues subdf topK) physicalCores theta) 0,
        ⟨.SP, subdf.length / (max physicalCores 1 : ℕ), subdf.length,
          (chosen (candidates sortValues subdf topK) physicalCores theta).length,
          2 * (chosen (candidates sortValues subdf topK) physicalCores theta).length⟩) := by
  have hr : ¬ ((subdf.length : ℚ) / (max physicalCores 1 : ℕ) ≤ 1) := by
    rw [rho_le_one_iff (le_max_right physicalCores 1)]; omega
  obtain ⟨hd, hp⟩ := scanEdges_eq physicalCores ((subdf.length : ℚ) / (max physicalCores 1 : ℕ))
    subdf.length (edges (candidates sortValues subdf topK) theta) ⟨0, 0, [], []⟩
  simp only [List.nil_append, Nat.sub_zero, Nat.zero_add] at hd hp
  have hc : (sortValues.run subdf).take (min topK subdf.length) =
      candidates sortValues subdf topK := by rw [candidates, Sorter.length_run]
  unfold scheduleWindow
  simp only [Sorter.length_run, if_neg hr, hc, hd, hp, length_placed]
  rfl

theorem scheduleWindow_ce (h1 : 1 ≤ physicalCores) (h : subdf.length ≤ physicalCores) :
    scheduleWindow sortValues subdf physicalCores theta topK =
      (spread (subdf.length / physicalCores) subdf.length (sortValues.run subdf) 0,
        ⟨.CE, subdf.length / physicalCores, subdf.length, 0, subdf.length⟩) := by
  rw [scheduleWindow_spread (h.trans (le_max_left _ _)), Nat.max_eq_left h1, Nat.min_eq_right h,
    List.take_of_length_le (by rw [Sorter.length_run]; exact h)]

theorem scheduleWindow_sp (h1 : 1 ≤ physicalCores) (h : physicalCores < subdf.length) :
    scheduleWindow sortValues subdf physicalCores theta topK =
      (placed (subdf.length / physicalCores) subdf.length
          (chosen (candidates sortValues subdf topK) physicalCores theta) 0,
        ⟨.SP, subdf.length / physicalCores, subdf.length,
          (chosen (candidates sortValues subdf topK) physicalCores theta).length,
          2 * (chosen (candidates sortValues subdf topK) physicalCores theta).length⟩) := by
  rw [scheduleWindow_placed (by rwa [Nat.max_eq_left h1]), Nat.max_eq_left h1]

end Modes

/-! ### The placement -/

/-- Every thread on a core of its own, the most intense first. -/
structure CePlacement (subdf : List Row) (ds : List Decision) (sm : Summary) : Prop where
  mode : sm.mode = .CE
  order : ∃ rows : List Row, rows.Perm subdf ∧
    rows.Pairwise (fun r r' => predictedIntensity r' ≤ predictedIntensity r) ∧
    List.Forall₂ Carries ds rows
  cpus : ds.map (·.targetCpu) = (List.range subdf.length).map fun i => cpuForCore i 0
  alone : ∀ d ∈ ds, d.pairedWith = none ∧ d.score = none
  pairs : sm.pairs = 0

/-- The cores below `sm.pairs` hold a scored pair each, the others nothing. -/
structure SpPlacement (subdf : List Row) (theta : ℚ) (ds : List Decision) (sm : Summary) :
    Prop where
  mode : sm.mode = .SP
  cores : ∀ c, (∃ d ∈ ds, d.targetCpu / 2 = c) ↔ c < sm.pairs
  pair : ∀ c < sm.pairs, ∃ d0 d1, ds.filter (fun d => d.targetCpu / 2 = c) = [d0, d1] ∧
    d0.targetCpu = cpuForCore c 0 ∧ d1.targetCpu = cpuForCore c 1 ∧
    d0.pairedWith = some d1.threadKey ∧ d1.pairedWith = some d0.threadKey ∧
    ∃ a ∈ subdf, ∃ b ∈ subdf, Carries d0 a ∧ Carries d1 b ∧
      d0.score = some (complementarityScore a b theta) ∧
      d1.score = some (complementarityScore a b theta) ∧ 0 ≤ complementarityScore a b theta
  pairs : ds.length = 2 * sm.pairs

/-- A placement of the rows `subdf` on `physicalCores` cores. -/
structure CorePlacement (subdf : List Row) (physicalCores : ℕ) (theta : ℚ) (ds : List Decision)
    (sm : Summary) : Prop where
  cpu_nodup : (ds.map (·.targetCpu)).Nodup
  cpu_lt : ∀ d ∈ ds, d.targetCpu < 2 * physicalCores
  carries : ∀ d ∈ ds, ∃ r ∈ subdf, Carries d r
  ce : subdf.length ≤ physicalCores → CePlacement subdf ds sm
  sp : physicalCores < subdf.length → SpPlacement subdf theta ds sm
  bound : sm.boundThreads = ds.length
  run : sm.nRun = subdf.length ∧ sm.rho = subdf.length / physicalCores
  same : ∀ d ∈ ds, d.mode = sm.mode ∧ d.rho = sm.rho ∧ d.nRun = sm.nRun

/-- **A valid SMT placement**: no thread is placed twice either. -/
structure ValidPlacement (subdf : List Row) (physicalCores : ℕ) (theta : ℚ) (ds : List Decision)
    (sm : Summary) : Prop extends CorePlacement subdf physicalCores theta ds sm where
  key_nodup : (ds.map (·.threadKey)).Nodup

section Valid
variable {sortValues : IntensitySort} {subdf : List Row} {physicalCores : ℕ}

theorem cpuForCore_inj {c c' i i' : ℕ} (hi : i < 2) (hi' : i' < 2)
    (h : cpuForCore c i = cpuForCore c' i') : c = c' ∧ i = i' := by
  unfold cpuForCore at h; omega

theorem placement_spread (h : subdf.length ≤ physicalCores) (theta : ℚ) :
    CorePlacement subdf physicalCores theta
      (spread (subdf.length / physicalCores) subdf.length (sortValues.run subdf) 0)
      ⟨.CE, subdf.length / physicalCores, subdf.length, 0, subdf.length⟩ where
  cpu_nodup := by
    rw [spread_cpus]
    refine (List.nodup_range').map fun i j hij => ?_
    exact (cpuForCore_inj (by decide) (by decide) hij).1
  cpu_lt d hd := by
    obtain ⟨i, hi, rfl⟩ := mem_spread.mp hd
    rw [Sorter.length_run] at hi
    simp only [ceDecision, cpuForCore]; omega
  carries d hd := by
    obtain ⟨i, hi, rfl⟩ := mem_spread.mp hd
    exact ⟨_, (sortValues.mem_run).mp (List.getElem_mem hi), ceDecision_carries _ _ _ _⟩
  ce _ := {
    mode := rfl
    order := ⟨_, sortValues.perm subdf, sortValues.sorted subdf, spread_carries _ _⟩
    cpus := by rw [spread_cpus, Sorter.length_run, List.range_eq_range']
    alone := fun d hd => by
      obtain ⟨i, hi, rfl⟩ := mem_spread.mp hd
      exact ⟨rfl, rfl⟩
    pairs := rfl }
  sp h' := absurd h (by omega)
  bound := by rw [length_spread, Sorter.length_run]
  run := ⟨rfl, rfl⟩
  same d hd := by
    obtain ⟨i, hi, rfl⟩ := mem_spread.mp hd
    exact ⟨rfl, rfl, rfl⟩

theorem mem_of_chosen {theta : ℚ} {topK : ℕ} {e : Edge}
    (he : e ∈ chosen (candidates sortValues subdf topK) physicalCores theta) :
    e.a ∈ subdf ∧ e.b ∈ subdf :=
  have hp := mem_of_mem_pairs (chosen_mem he).1
  ⟨mem_of_mem_candidates hp.1, mem_of_mem_candidates hp.2⟩

/-- The cores of the chosen edges, and what is on them. -/
theorem spPlacement_placed {theta : ℚ} {topK : ℕ} {es : List Edge}
    (hes : es = chosen (candidates sortValues subdf topK) physicalCores theta) (rho : ℚ)
    (nRun bound : ℕ) :
    SpPlacement subdf theta (placed rho nRun es 0) ⟨.SP, rho, nRun, es.length, bound⟩ where
  mode := rfl
  cores c := by
    constructor
    · rintro ⟨d, hd, rfl⟩
      obtain ⟨i, hi, rfl | rfl⟩ := mem_placed.mp hd <;> simp only [spDecision, cpuForCore] <;> omega
    · intro hc
      refine ⟨_, mem_placed.mpr ⟨c, hc, Or.inl rfl⟩, ?_⟩
      simp only [spDecision, cpuForCore]; omega
  pair c hc := by
    have hc' : c < es.length := hc
    have hcore : (placed rho nRun es 0).filter (fun d => d.targetCpu / 2 = 0 + c) =
        pairDecisions rho nRun es[c] (0 + c) := placed_core es 0 c hc'
    rw [Nat.zero_add] at hcore
    have he : es[c] ∈ chosen (candidates sortValues subdf topK) physicalCores theta :=
      hes ▸ List.getElem_mem hc'
    obtain ⟨ha, hb⟩ := mem_of_chosen he
    obtain ⟨-, hs, h0⟩ := chosen_mem he
    refine ⟨_, _, hcore, rfl, rfl, rfl, rfl, _, ha, _, hb, spDecision_carries _ _ _ _ _ _ _,
      spDecision_carries _ _ _ _ _ _ _, ?_, ?_, ?_⟩
    · rw [← hs]; rfl
    · rw [← hs]; rfl
    · rw [← hs]; exact h0
  pairs := length_placed _ _

theorem placement_placed (h : physicalCores < subdf.length) (theta : ℚ) (topK : ℕ) :
    CorePlacement subdf physicalCores theta
      (placed (subdf.length / physicalCores) subdf.length
        (chosen (candidates sortValues subdf topK) physicalCores theta) 0)
      ⟨.SP, subdf.length / physicalCores, subdf.length,
        (chosen (candidates sortValues subdf topK) physicalCores theta).length,
        2 * (chosen (candidates sortValues subdf topK) physicalCores theta).length⟩ := by
  set es := chosen (candidates sortValues subdf topK) physicalCores theta with hes
  have hlen : es.length ≤ physicalCores := length_chosen_le
  refine
    { cpu_nodup := ?_
      cpu_lt := fun d hd => ?_
      carries := fun d hd => ?_
      ce := fun h' => absurd h' (by omega)
      sp := fun _ => spPlacement_placed hes _ _ _
      bound := by rw [length_placed]
      run := ⟨rfl, rfl⟩
      same := fun d hd => ?_ }
  · rw [placed_cpus]; exact List.nodup_range'
  · obtain ⟨i, hi, rfl | rfl⟩ := mem_placed.mp hd <;> simp only [spDecision, cpuForCore] <;> omega
  · obtain ⟨i, hi, rfl | rfl⟩ := mem_placed.mp hd
    · exact ⟨_, (mem_of_chosen (List.getElem_mem hi)).1, spDecision_carries _ _ _ _ _ _ _⟩
    · exact ⟨_, (mem_of_chosen (List.getElem_mem hi)).2, spDecision_carries _ _ _ _ _ _ _⟩
  · obtain ⟨i, hi, rfl | rfl⟩ := mem_placed.mp hd <;> exact ⟨rfl, rfl, rfl⟩

end Valid

theorem scheduleWindow_placement (sortValues : IntensitySort) (subdf : List Row)
    (physicalCores : ℕ) (theta : ℚ) (topK : ℕ) (h1 : 1 ≤ physicalCores) :
    CorePlacement subdf physicalCores theta
      (scheduleWindow sortValues subdf physicalCores theta topK).1
      (scheduleWindow sortValues subdf physicalCores theta topK).2 := by
  rcases Nat.lt_or_ge physicalCores subdf.length with h | h
  · rw [scheduleWindow_sp h1 h]; exact placement_placed h theta topK
  · rw [scheduleWindow_ce h1 h]; exact placement_spread h theta

/-- The CPUs of one window are handed out in ascending order. -/
theorem scheduleWindow_ascending (sortValues : IntensitySort) (subdf : List Row)
    (physicalCores : ℕ) (theta : ℚ) (topK : ℕ) (h1 : 1 ≤ physicalCores) :
    (scheduleWindow sortValues subdf physicalCores theta topK).1.Pairwise
      fun d d' => d.targetCpu < d'.targetCpu := by
  rw [← List.pairwise_map (f := Decision.targetCpu) (R := (· < ·))]
  rcases Nat.lt_or_ge physicalCores subdf.length with h | h
  · rw [scheduleWindow_sp h1 h, placed_cpus]
    exact List.pairwise_lt_range'
  · rw [scheduleWindow_ce h1 h, spread_cpus, List.pairwise_map]
    have hrange : (List.range' 0 (sortValues.run subdf).length).Pairwise (· < ·) :=
      List.pairwise_lt_range'
    refine hrange.imp fun {i j} hij => ?_
    unfold cpuForCore
    omega

/-- No more cores are used than there are rows. -/
theorem scheduleWindow_cpu_lt (sortValues : IntensitySort) (subdf : List Row) (physicalCores : ℕ)
    (theta : ℚ) (topK : ℕ) (h1 : 1 ≤ physicalCores) :
    ∀ d ∈ (scheduleWindow sortValues subdf physicalCores theta topK).1,
      d.targetCpu < 2 * subdf.length := by
  intro d hd
  rcases Nat.lt_or_ge physicalCores subdf.length with h | h
  · have hcpu := (scheduleWindow_placement sortValues subdf physicalCores theta topK h1).cpu_lt d hd
    omega
  · rw [scheduleWindow_ce h1 h] at hd
    obtain ⟨i, hi, rfl⟩ := mem_spread.mp hd
    rw [sortValues.length_run] at hi
    simp only [ceDecision, cpuForCore]
    omega

/-- A partner is a row of the window. -/
theorem scheduleWindow_pairedWith (sortValues : IntensitySort) (subdf : List Row)
    (physicalCores : ℕ) (theta : ℚ) (topK : ℕ) (h1 : 1 ≤ physicalCores) :
    ∀ d ∈ (scheduleWindow sortValues subdf physicalCores theta topK).1,
      d.pairedWith = none ∨ ∃ r ∈ subdf, d.pairedWith = some r.threadKey := by
  intro d hd
  rcases Nat.lt_or_ge physicalCores subdf.length with h | h
  · rw [scheduleWindow_sp h1 h] at hd
    obtain ⟨i, hi, hd⟩ := mem_placed.mp hd
    have hp := mem_of_mem_pairs (chosen_mem (List.getElem_mem hi)).1
    rcases hd with rfl | rfl
    · exact Or.inr ⟨_, mem_of_mem_candidates hp.2, rfl⟩
    · exact Or.inr ⟨_, mem_of_mem_candidates hp.1, rfl⟩
  · rw [scheduleWindow_ce h1 h] at hd
    obtain ⟨i, -, rfl⟩ := mem_spread.mp hd
    exact Or.inl rfl

theorem scheduleWindow_key_nodup (sortValues : IntensitySort) (subdf : List Row)
    (physicalCores : ℕ) (theta : ℚ) (topK : ℕ) (h1 : 1 ≤ physicalCores)
    (hk : (subdf.map (·.threadKey)).Nodup) :
    ((scheduleWindow sortValues subdf physicalCores theta topK).1.map (·.threadKey)).Nodup := by
  rcases Nat.lt_or_ge physicalCores subdf.length with h | h
  · rw [scheduleWindow_sp h1 h, placed_keys]
    exact nodup_ends_chosen (nodup_candidates hk)
  · rw [scheduleWindow_ce h1 h, spread_keys]
    exact (((sortValues.perm subdf).map _).nodup_iff).mpr hk

/-- **Every placement of the planner is valid.** -/
theorem scheduleWindow_valid (sortValues : IntensitySort) (subdf : List Row) (physicalCores : ℕ)
    (theta : ℚ) (topK : ℕ) (h1 : 1 ≤ physicalCores) (hk : (subdf.map (·.threadKey)).Nodup) :
    ValidPlacement subdf physicalCores theta
      (scheduleWindow sortValues subdf physicalCores theta topK).1
      (scheduleWindow sortValues subdf physicalCores theta topK).2 :=
  ⟨scheduleWindow_placement sortValues subdf physicalCores theta topK h1,
    scheduleWindow_key_nodup sortValues subdf physicalCores theta topK h1 hk⟩

/-- A window of three threads: one with a high IPC, one that misses a lot, one idle. -/
def threeRows : List Row :=
  let row (key : String) (pid : ℤ) (ipc llc br : ℚ) : Row :=
    ⟨Cell.ofCsv "cpu".toList, Cell.ofCsv key.toList, Cell.ofCsv "w".toList, pid, 7,
      fun | .IPC => ipc | .MPKI_LLC => llc | .BrMPKI => br | _ => 0⟩
  [row "cpu:pid=11:w" 11 1 0 0, row "cpu:pid=12:w" 12 0 (1 / 2) (1 / 2),
    row "cpu:pid=13:w" 13 0 0 0]

theorem scheduleWindow_valid_threeRows : ValidPlacement threeRows 1 (3 / 5)
    (scheduleWindow intensitySort threeRows 1 (3 / 5) 32).1
    (scheduleWindow intensitySort threeRows 1 (3 / 5) 32).2 :=
  scheduleWindow_valid intensitySort threeRows 1 (3 / 5) 32 (by decide) (by decide)

end Magm.Planner.Placement
