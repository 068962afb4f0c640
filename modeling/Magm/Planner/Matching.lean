import Magm.Planner.Placement

/-! # The pairs the planner chooses

In mode `SP` the pairs that share a physical core (`chosenPairs`) are a greedy matching of the
candidates by `complementarity_score`. Two consequences of the greedy scan:

* `scheduleWindow_half_optimal`: the chosen pairs score at least half as much as any other disjoint
  pairs of candidates that fit on the cores.
* `scheduleWindow_stable`: no two candidates would both gain from sharing a core instead. -/

namespace Magm.Planner.Matching

open Magm.Table.Cells Magm.Lib.Sorting Magm.Lib.Greedy Magm.Planner.Score Magm.Planner.Schedule
open Magm.Planner.Placement

/-! ### Reading the pairs off the decisions -/

/-- The row of `rows` whose thread is placed on `cpu`. -/
def rowOn (rows : List Row) (ds : List Decision) (cpu : ℕ) : Option Row :=
  (ds.find? fun d => d.targetCpu = cpu).bind fun d => rows.find? fun r => r.threadKey = d.threadKey

/-- The rows that share a physical core, core by core. -/
def chosenPairs (rows : List Row) (ds : List Decision) (physicalCores : ℕ) : List (Row × Row) :=
  (List.range physicalCores).filterMap fun c =>
    (rowOn rows ds (cpuForCore c 0)).bind fun a =>
      (rowOn rows ds (cpuForCore c 1)).map fun b => (a, b)

/-- The score of a pair. -/
def pairScore (theta : ℚ) (p : Row × Row) : ℚ := complementarityScore p.1 p.2 theta

theorem pairScore_swap (theta : ℚ) (a b : Row) : pairScore theta (a, b) = pairScore theta (b, a) :=
  complementarityScore_comm a b theta

theorem find?_key {α κ : Type*} [DecidableEq κ] (key : α → κ) {a : α} : ∀ {l : List α},
    (l.map key).Nodup → a ∈ l → l.find? (fun b => key b = key a) = some a
  | b :: l, hn, ha => by
    rw [List.map_cons, List.nodup_cons] at hn
    rcases List.mem_cons.mp ha with rfl | ha
    · exact List.find?_cons_of_pos (decide_eq_true rfl)
    · have hne : key b ≠ key a := fun h => hn.1 (h ▸ List.mem_map_of_mem ha)
      rw [List.find?_cons_of_neg (by simpa using hne)]
      exact find?_key key hn.2 ha

section RowOn
variable {rows : List Row} {ds : List Decision}

theorem rowOn_eq_some (hk : (rows.map (·.threadKey)).Nodup) (hc : (ds.map (·.targetCpu)).Nodup)
    {d : Decision} {r : Row} (hd : d ∈ ds) (hr : r ∈ rows) (h : d.threadKey = r.threadKey) :
    rowOn rows ds d.targetCpu = some r := by
  unfold rowOn
  rw [find?_key Decision.targetCpu hc hd, Option.bind_some, h]
  exact find?_key Row.threadKey hk hr

theorem rowOn_eq_none {cpu : ℕ} (h : ∀ d ∈ ds, d.targetCpu ≠ cpu) : rowOn rows ds cpu = none := by
  unfold rowOn
  rw [List.find?_eq_none.mpr fun d hd => by simpa using h d hd]
  rfl

end RowOn

theorem filterMap_range_getElem? {α β : Type*} (f : α → β) : ∀ (n : ℕ) (l : List α),
    l.length ≤ n → (List.range n).filterMap (fun i => l[i]?.map f) = l.map f
  | n, [], _ => by simp
  | n + 1, a :: l, h => by
    have ih := filterMap_range_getElem? f n l (by simpa using h)
    rw [List.range_succ_eq_map, List.filterMap_cons, List.filterMap_map]
    exact congrArg (f a :: ·) ih

/-- The pairs read off the decisions for a list of edges are the edges. -/
theorem chosenPairs_placed {rows : List Row} (hk : (rows.map (·.threadKey)).Nodup) (rho : ℚ)
    (nRun : ℕ) {es : List Edge} (hes : ∀ e ∈ es, e.a ∈ rows ∧ e.b ∈ rows) {physicalCores : ℕ}
    (hlen : es.length ≤ physicalCores) :
    chosenPairs rows (placed rho nRun es 0) physicalCores = es.map fun e => (e.a, e.b) := by
  have hc : ((placed rho nRun es 0).map (·.targetCpu)).Nodup := by
    rw [placed_cpus]; exact List.nodup_range'
  rw [← filterMap_range_getElem? (fun e : Edge => (e.a, e.b)) physicalCores es hlen]
  refine List.filterMap_congr fun c _ => ?_
  rcases Nat.lt_or_ge c es.length with h | h
  · obtain ⟨ha, hb⟩ := hes _ (List.getElem_mem h)
    have h0 : rowOn rows (placed rho nRun es 0) (cpuForCore c 0) = some es[c].a :=
      rowOn_eq_some hk hc (mem_placed.mpr ⟨c, h, Or.inl (by rw [Nat.zero_add])⟩) ha rfl
    have h1 : rowOn rows (placed rho nRun es 0) (cpuForCore c 1) = some es[c].b :=
      rowOn_eq_some hk hc (mem_placed.mpr ⟨c, h, Or.inr (by rw [Nat.zero_add])⟩) hb rfl
    rw [h0, h1, List.getElem?_eq_getElem h]
    rfl
  · have hnone : rowOn rows (placed rho nRun es 0) (cpuForCore c 0) = none :=
      rowOn_eq_none fun d hd => by
        obtain ⟨i, hi, rfl | rfl⟩ := mem_placed.mp hd <;> simp only [spDecision, cpuForCore] <;>
          omega
    rw [hnone, List.getElem?_eq_none h]
    rfl

section Window
variable {sortValues : IntensitySort} {subdf : List Row} {physicalCores : ℕ} {theta : ℚ} {topK : ℕ}

/-- **The chosen pairs are the edges of the greedy matching.** -/
theorem scheduleWindow_chosenPairs (h1 : 1 ≤ physicalCores) (hn : physicalCores < subdf.length)
    (hk : (subdf.map (·.threadKey)).Nodup) :
    chosenPairs subdf (scheduleWindow sortValues subdf physicalCores theta topK).1 physicalCores =
      (chosen (candidates sortValues subdf topK) physicalCores theta).map fun e => (e.a, e.b) := by
  rw [scheduleWindow_sp h1 hn]
  refine chosenPairs_placed hk _ _ (fun e he => ?_) length_chosen_le
  have hp := mem_of_mem_pairs (chosen_mem he).1
  exact ⟨mem_of_mem_candidates hp.1, mem_of_mem_candidates hp.2⟩

end Window

/-! ### The edges of two candidates -/

theorem mem_pairs_or {α : Type*} {a b : α} : ∀ {l : List α}, a ∈ l → b ∈ l → a ≠ b →
    (a, b) ∈ pairs l ∨ (b, a) ∈ pairs l
  | c :: l, ha, hb, hne => by
    simp only [pairs, List.mem_append, List.mem_map, Prod.mk.injEq]
    rcases List.mem_cons.mp ha with rfl | ha'
    · exact Or.inl (Or.inl ⟨b, (List.mem_cons.mp hb).resolve_left hne.symm, rfl, rfl⟩)
    · rcases List.mem_cons.mp hb with rfl | hb'
      · exact Or.inr (Or.inl ⟨a, ha', rfl, rfl⟩)
      · exact (mem_pairs_or ha' hb' hne).imp Or.inr Or.inr

/-- The edge of a pair. -/
def pairEdge (theta : ℚ) (p : Row × Row) : Edge := ⟨pairScore theta p, p.1, p.2⟩

/-- Two candidates with a score `≥ 0` have an edge, in one of the two orders. -/
theorem exists_edge {candidates : List Row} {theta : ℚ} {a b : Row} (ha : a ∈ candidates)
    (hb : b ∈ candidates) (hne : a ≠ b) (h0 : 0 ≤ pairScore theta (a, b)) :
    pairEdge theta (a, b) ∈ edges candidates theta ∨
      pairEdge theta (b, a) ∈ edges candidates theta := by
  refine (mem_pairs_or ha hb hne).imp (fun h => ?_) fun h => ?_
  · exact mem_edges.mpr ⟨h, rfl, h0⟩
  · rw [pairScore_swap] at h0
    exact mem_edges.mpr ⟨h, rfl, h0⟩

theorem edges_descending (candidates : List Row) (theta : ℚ) :
    (edges candidates theta).Pairwise fun e f => f.score ≤ e.score :=
  List.pairwise_insertionSort EdgeGe _

/-! ### Half of the best matching -/

/-- The scan covers every pair of candidates: its score is negative, or it has an edge. -/
theorem covered_edges {candidates : List Row} {theta : ℚ} {a b : Row} (ha : a ∈ candidates)
    (hb : b ∈ candidates) (hne : a ≠ b) :
    Covered (fun e : Edge => e.a.threadKey) (fun e => e.b.threadKey) Edge.score
      (edges candidates theta) (pairEdge theta (a, b)) := by
  rcases lt_or_ge (pairScore theta (a, b)) 0 with h0 | h0
  · exact Or.inl h0.le
  · rcases exists_edge ha hb hne h0 with h | h
    · exact Or.inr ⟨_, h, le_rfl, by simp [ends], by simp [ends]⟩
    · refine Or.inr ⟨_, h, (pairScore_swap theta a b).le, ?_, ?_⟩ <;> simp [ends, pairEdge]

theorem chosen_scores (candidates : List Row) (physicalCores : ℕ) (theta : ℚ) :
    ((chosen candidates physicalCores theta).map fun e => (e.a, e.b)).map (pairScore theta) =
      (chosen candidates physicalCores theta).map (·.score) := by
  rw [List.map_map]
  exact List.map_congr_left fun e he => (chosen_mem he).2.1.symm

/-- **The greedy pairing is at least half optimal**: disjoint pairs of candidates that fit on the
cores score at most twice as much as the chosen pairs. -/
theorem scheduleWindow_half_optimal (sortValues : IntensitySort) (subdf : List Row)
    (physicalCores : ℕ) (theta : ℚ) (topK : ℕ) (h1 : 1 ≤ physicalCores)
    (hn : physicalCores < subdf.length) (hk : (subdf.map (·.threadKey)).Nodup)
    (M : List (Row × Row))
    (hM : ∀ p ∈ M, p.1 ∈ candidates sortValues subdf topK ∧ p.2 ∈ candidates sortValues subdf topK)
    (hd : (M.flatMap fun p => [p.1.threadKey, p.2.threadKey]).Nodup)
    (hlen : M.length ≤ physicalCores) :
    (M.map (pairScore theta)).sum / 2 ≤
      ((chosenPairs subdf (scheduleWindow sortValues subdf physicalCores theta topK).1
        physicalCores).map (pairScore theta)).sum := by
  have hne : ∀ p ∈ M, p.1 ≠ p.2 := fun p hp h => by
    have hpair := (List.Sublist.flatMap (List.singleton_sublist.mpr hp) _).nodup hd
    simp [h] at hpair
  have hends : ends (fun e : Edge => e.a.threadKey) (fun e => e.b.threadKey)
      (M.map (pairEdge theta)) = M.flatMap fun p => [p.1.threadKey, p.2.threadKey] :=
    List.flatMap_map _ _ M
  have hsum := sum_le_two_mul_greedy (fun e : Edge => e.a.threadKey) (fun e => e.b.threadKey)
    Edge.score physicalCores [] _ (edges_descending _ theta) (fun e he => (mem_edges.mp he).2.2)
    (M.map (pairEdge theta))
    (List.forall_mem_map.mpr fun p hp => covered_edges (hM p hp).1 (hM p hp).2 (hne p hp))
    (hends ▸ hd) (fun _ _ => List.not_mem_nil) (by rwa [List.length_map])
  rw [scheduleWindow_chosenPairs h1 hn hk, chosen_scores, div_le_iff₀ two_pos, mul_comm]
  rw [List.map_map] at hsum
  exact hsum

theorem scheduleWindow_half_optimal_threeRows :
    ([(threeRows[0], threeRows[1])].map (pairScore (3 / 5))).sum / 2 ≤
      ((chosenPairs threeRows (scheduleWindow intensitySort threeRows 1 (3 / 5) 32).1 1).map
        (pairScore (3 / 5))).sum := by
  have hmem : ∀ r ∈ threeRows, r ∈ candidates intensitySort threeRows 32 := fun r hr => by
    unfold candidates
    rw [List.take_of_length_le (by simp [threeRows])]
    exact intensitySort.mem_run.mpr hr
  refine scheduleWindow_half_optimal intensitySort threeRows 1 (3 / 5) 32 (by decide) (by decide)
    (by decide) [(threeRows[0], threeRows[1])] (fun p hp => ?_) (by decide) (by decide)
  rw [List.mem_singleton.mp hp]
  exact ⟨hmem _ (List.getElem_mem _), hmem _ (List.getElem_mem _)⟩

/-! ### No blocking pair -/

/-- The two rows share a physical core. -/
def CoLocated (P : List (Row × Row)) (a b : Row) : Prop := (a, b) ∈ P ∨ (b, a) ∈ P

/-- `a` shares a core with a candidate other than `b`, in a pair that scores at least `s`. -/
def Prefers (candidates : List Row) (theta : ℚ) (P : List (Row × Row)) (s : ℚ) (a b : Row) : Prop :=
  ∃ c ∈ candidates, c ≠ b ∧ CoLocated P a c ∧ s ≤ pairScore theta (a, c)

/-- **No blocking pair** among the candidates: two that do not share a core have a pair of at least
their score each on its way, or all cores hold such pairs. -/
structure Stable (candidates : List Row) (physicalCores : ℕ) (theta : ℚ) (P : List (Row × Row)) :
    Prop where
  blocked : ∀ a ∈ candidates, ∀ b ∈ candidates, a ≠ b → 0 ≤ pairScore theta (a, b) →
    ¬ CoLocated P a b →
      Prefers candidates theta P (pairScore theta (a, b)) a b ∨
      Prefers candidates theta P (pairScore theta (a, b)) b a ∨
      (P.length = physicalCores ∧ ∀ p ∈ P, pairScore theta (a, b) ≤ pairScore theta p)
  descending : P.Pairwise fun p q => pairScore theta q ≤ pairScore theta p
  candidate : ∀ p ∈ P, p.1 ∈ candidates ∧ p.2 ∈ candidates

section Stable
variable {candidates : List Row} {physicalCores : ℕ} {theta : ℚ}

theorem CoLocated.symm {P : List (Row × Row)} {a b : Row} (h : CoLocated P a b) :
    CoLocated P b a := Or.symm h

/-- An edge that is not taken lost an end to a pair of at least its score, or came too late. -/
theorem chosen_blocked {e : Edge} (he : e ∈ edges candidates theta)
    (hne : e ∉ chosen candidates physicalCores theta) :
    (∃ f ∈ chosen candidates physicalCores theta, e.score ≤ f.score ∧
      (e.a.threadKey ∈ [f.a.threadKey, f.b.threadKey] ∨
        e.b.threadKey ∈ [f.a.threadKey, f.b.threadKey])) ∨
    ((chosen candidates physicalCores theta).length = physicalCores ∧
      ∀ f ∈ chosen candidates physicalCores theta, e.score ≤ f.score) := by
  rcases greedy_blocked (fun e : Edge => e.a.threadKey) (fun e => e.b.threadKey) Edge.score
    physicalCores [] _ (edges_descending candidates theta) e he hne with hu | h
  · exact absurd hu (by simp)
  · exact h

/-- A candidate with an end in a chosen pair of score `≥ s` prefers it. -/
theorem prefers_of_end (hk : (candidates.map (·.threadKey)).Nodup) {f : Edge}
    (hf : f ∈ chosen candidates physicalCores theta) {a b : Row} (ha : a ∈ candidates)
    (hend : a.threadKey ∈ [f.a.threadKey, f.b.threadKey]) {s : ℚ} (hs : s ≤ f.score)
    (hnot : ¬ CoLocated ((chosen candidates physicalCores theta).map fun e => (e.a, e.b)) a b) :
    Prefers candidates theta ((chosen candidates physicalCores theta).map fun e => (e.a, e.b))
      s a b := by
  obtain ⟨hp, hscore, -⟩ := chosen_mem hf
  obtain ⟨hfa, hfb⟩ := mem_of_mem_pairs hp
  have hmem : (f.a, f.b) ∈ (chosen candidates physicalCores theta).map fun e => (e.a, e.b) :=
    List.mem_map.mpr ⟨f, hf, rfl⟩
  rw [hscore] at hs
  simp only [List.mem_cons, List.not_mem_nil, or_false] at hend
  rcases hend with hend | hend
  · obtain rfl : a = f.a := List.inj_on_of_nodup_map hk ha hfa hend
    refine ⟨f.b, hfb, ?_, Or.inl hmem, hs⟩
    rintro rfl
    exact hnot (Or.inl hmem)
  · obtain rfl : a = f.b := List.inj_on_of_nodup_map hk ha hfb hend
    refine ⟨f.a, hfa, ?_, Or.inr hmem, by rw [pairScore_swap]; exact hs⟩
    rintro rfl
    exact hnot (Or.inr hmem)

/-- Two candidates without a common core have an edge that is not taken. -/
theorem exists_edge_not_chosen {a b : Row} (ha : a ∈ candidates) (hb : b ∈ candidates)
    (hne : a ≠ b) (h0 : 0 ≤ pairScore theta (a, b))
    (hnot : ¬ CoLocated ((chosen candidates physicalCores theta).map fun e => (e.a, e.b)) a b) :
    ∃ e ∈ edges candidates theta, e ∉ chosen candidates physicalCores theta ∧
      e.score = pairScore theta (a, b) ∧ (e.a = a ∧ e.b = b ∨ e.a = b ∧ e.b = a) := by
  rw [CoLocated, not_or] at hnot
  rcases exists_edge ha hb hne h0 with h | h
  · exact ⟨_, h, fun hc => hnot.1 (List.mem_map.mpr ⟨_, hc, rfl⟩), rfl, Or.inl ⟨rfl, rfl⟩⟩
  · exact ⟨_, h, fun hc => hnot.2 (List.mem_map.mpr ⟨_, hc, rfl⟩), pairScore_swap theta b a,
      Or.inr ⟨rfl, rfl⟩⟩

/-- The greedy matching has no blocking pair. -/
theorem chosen_stable (hk : (candidates.map (·.threadKey)).Nodup) :
    Stable candidates physicalCores theta
      ((chosen candidates physicalCores theta).map fun e => (e.a, e.b)) where
  blocked a ha b hb hne h0 hnot := by
    obtain ⟨e, he, hec, hscore, hab⟩ := exists_edge_not_chosen ha hb hne h0 hnot
    rcases chosen_blocked he hec with ⟨f, hf, hle, hend⟩ | ⟨hlen, hall⟩
    · rw [hscore] at hle
      have hend' : a.threadKey ∈ [f.a.threadKey, f.b.threadKey] ∨
          b.threadKey ∈ [f.a.threadKey, f.b.threadKey] := by
        rcases hab with ⟨rfl, rfl⟩ | ⟨rfl, rfl⟩
        · exact hend
        · exact hend.symm
      rcases hend' with hend | hend
      · exact Or.inl (prefers_of_end hk hf ha hend hle hnot)
      · exact Or.inr (Or.inl (prefers_of_end hk hf hb hend hle fun h => hnot h.symm))
    · refine Or.inr (Or.inr ⟨by rw [List.length_map, hlen], List.forall_mem_map.mpr fun f hf => ?_⟩)
      have hf' : f.score = pairScore theta (f.a, f.b) := (chosen_mem hf).2.1
      rw [← hscore, ← hf']
      exact hall f hf
  descending := by
    have hd : (chosen candidates physicalCores theta).Pairwise fun e f => f.score ≤ e.score :=
      (edges_descending candidates theta).sublist (greedy_sublist _ _ _ _ _)
    rw [← List.pairwise_map (f := pairScore theta) (R := fun s t => t ≤ s), chosen_scores,
      List.pairwise_map]
    exact hd
  candidate := List.forall_mem_map.mpr fun e he => mem_of_mem_pairs (chosen_mem he).1

end Stable

/-- **No blocking pair**, the best pair on the first core, and only candidates on any core. -/
theorem scheduleWindow_stable (sortValues : IntensitySort) (subdf : List Row)
    (physicalCores : ℕ) (theta : ℚ) (topK : ℕ) (h1 : 1 ≤ physicalCores)
    (hn : physicalCores < subdf.length) (hk : (subdf.map (·.threadKey)).Nodup) :
    Stable (candidates sortValues subdf topK) physicalCores theta
      (chosenPairs subdf (scheduleWindow sortValues subdf physicalCores theta topK).1
        physicalCores) ∧
    ∀ d ∈ (scheduleWindow sortValues subdf physicalCores theta topK).1,
      ∃ r ∈ candidates sortValues subdf topK, Carries d r := by
  rw [scheduleWindow_chosenPairs h1 hn hk, scheduleWindow_sp h1 hn]
  refine ⟨chosen_stable (nodup_candidates hk), fun d hd => ?_⟩
  obtain ⟨i, hi, hd⟩ := mem_placed.mp hd
  obtain ⟨ha, hb⟩ := mem_of_mem_pairs (chosen_mem (List.getElem_mem hi)).1
  rcases hd with rfl | rfl
  · exact ⟨_, ha, spDecision_carries _ _ _ _ _ _ _⟩
  · exact ⟨_, hb, spDecision_carries _ _ _ _ _ _ _⟩

theorem scheduleWindow_stable_threeRows :
    Stable (candidates intensitySort threeRows 32) 1 (3 / 5)
      (chosenPairs threeRows (scheduleWindow intensitySort threeRows 1 (3 / 5) 32).1 1) ∧
    ∀ d ∈ (scheduleWindow intensitySort threeRows 1 (3 / 5) 32).1,
      ∃ r ∈ candidates intensitySort threeRows 32, Carries d r :=
  scheduleWindow_stable intensitySort threeRows 1 (3 / 5) 32 (by decide) (by decide) (by decide)

end Magm.Planner.Matching
