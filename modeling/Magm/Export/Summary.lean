import Magm.Export.Lossless
import Magm.Export.PlanFile
import Mathlib.Algebra.BigOperators.Ring.List

/-! # The summary of the selection

`export_cpu_selection.py` also counts what it exports: `cpu_selection_summary.csv` has a row for
every load type and mode with the number of windows, of threads and of cores and the means of `rho`
and `score`, all computed from the rows of the selection. The planner has counted the same run
window by window in `magm_window_summary.csv`, and `final_core_pairs.csv` has a row for every core.
`recounted` computes the summary from these two tables instead, and `summary_scheduleAll` says that
nothing differs: a window is missing from the selection exactly when it binds no thread. -/

namespace Magm.Export.Summary

open Magm.Lib.Chars Magm.Lib.Sorting Magm.Lib.GroupBy Magm.Table.Cells
open Magm.Planner.Score Magm.Planner.Schedule Magm.Planner.Placement Magm.Planner.Windows
open Magm.Export.Selection Magm.Export.Lossless Magm.Export.PlanFile

/-- A row of `cpu_selection_summary.csv`; a mean is `none` where pandas has `NaN`. -/
structure SummaryRow where
  loadType : Text
  mode : Text
  windows : ℕ
  selectedThreads : ℕ
  physicalCoresUsed : ℕ
  avgRho : Option ℚ
  avgScore : Option ℚ
  deriving DecidableEq

/-- The mean of the values of a column that are not missing. -/
def mean (xs : List ℚ) : Option ℚ := if xs = [] then none else some (xs.sum / xs.length)

/-- The columns the summary is grouped by. -/
def loadModeKey (r : SelectionRow) : Option (Text ×ₗ Text) :=
  r.loadType.val.map fun t => toLex (t, modeText r.mode)

/-- The row for one group: `nunique` of the windows and the cores, `count` of the thread keys. -/
def summaryRow (k : Text ×ₗ Text) (grp : List SelectionRow) : SummaryRow where
  loadType := (ofLex k).1
  mode := (ofLex k).2
  windows := (grp.map SelectionRow.windowId).dedup.length
  selectedThreads := (grp.filterMap fun r => r.threadKey.val).length
  physicalCoresUsed := (grp.map SelectionRow.physicalCore).dedup.length
  avgRho := mean (grp.map SelectionRow.rho)
  avgScore := mean (grp.filterMap SelectionRow.score)

/-- The columns the summary is sorted by. -/
def summaryKey (r : SummaryRow) : Text ×ₗ Text := toLex (r.loadType, r.mode)

/-- `summary` of the exporter. -/
def cpuSelectionSummary (selection : List SelectionRow) : List SummaryRow :=
  sortBy summaryKey ((groupBy loadModeKey selection).map fun g => summaryRow g.1 g.2)

/-! ### The same counts from the other tables -/

/-- The load type and the mode of a window that binds a thread. -/
def boundKey (w : Summary × Text ×ₗ ℤ) : Option (Text ×ₗ Text) :=
  if w.1.boundThreads = 0 then none else some (toLex ((ofLex w.2).1, modeText w.1.mode))

/-- The cores a window uses, from `0` on. -/
def coresUsed (s : Summary) : ℕ :=
  match s.mode with
  | .CE => s.boundThreads
  | .SP => s.pairs

/-- The load type and the mode of a core. -/
def pairLoadMode (p : CorePair) : Text ×ₗ Text := toLex (p.loadType, modeText p.mode)

/-- The summary of the windows `ws`: the widest window has all the cores, every thread weighs its
window's `rho` once, and a core its score once. -/
def recount (corePairs : List CorePair) (k : Text ×ₗ Text) (ws : List (Summary × Text ×ₗ ℤ)) :
    SummaryRow where
  loadType := (ofLex k).1
  mode := (ofLex k).2
  windows := ws.length
  selectedThreads := (ws.map fun w => w.1.boundThreads).sum
  physicalCoresUsed := (ws.map fun w => coresUsed w.1).foldr max 0
  avgRho := some ((ws.map fun w => (w.1.boundThreads : ℚ) * w.1.rho).sum /
    ((ws.map fun w => w.1.boundThreads).sum : ℕ))
  avgScore := mean ((corePairs.filter fun p => pairLoadMode p = k).filterMap CorePair.score)

def recounted (summaries : List (Summary × Text ×ₗ ℤ)) (corePairs : List CorePair) :
    List SummaryRow :=
  (groupBy boundKey summaries).map fun g => recount corePairs g.1 g.2

/-! ### The order of the rows of the selection -/

theorem mean_eq_of_perm {xs ys : List ℚ} (h : xs.Perm ys) : mean xs = mean ys := by
  have hnil : xs = [] ↔ ys = [] := by
    rw [← List.length_eq_zero_iff, ← List.length_eq_zero_iff, h.length_eq]
  rw [mean, mean, h.sum_eq, h.length_eq]
  simp only [hnil]

theorem summaryRow_eq_of_perm (k : Text ×ₗ Text) {grp grp' : List SelectionRow}
    (h : grp.Perm grp') : summaryRow k grp = summaryRow k grp' := by
  simp only [summaryRow, (h.map _).dedup.length_eq, (h.filterMap _).length_eq,
    mean_eq_of_perm (h.map _), mean_eq_of_perm (h.filterMap _)]

theorem rowsOf_selectionOf (ds : List Decision) (κ : Text ×ₗ Text) :
    (rowsOf loadModeKey (selectionOf ds) κ).Perm (rowsOf loadModeKey (ds.map shown) κ) :=
  (sortBy_perm selectionKey (ds.map shown)).filter _

/-- **The summary is that of the decisions**, in whatever order, and its last sort does nothing. -/
theorem cpuSelectionSummary_selectionOf (ds : List Decision) :
    cpuSelectionSummary (selectionOf ds) = (groupKeys loadModeKey (ds.map shown)).map fun k =>
      summaryRow k (rowsOf loadModeKey (ds.map shown) k) := by
  have hrow : ∀ k, summaryRow k (rowsOf loadModeKey (selectionOf ds) k) =
      summaryRow k (rowsOf loadModeKey (ds.map shown) k) := fun k =>
    summaryRow_eq_of_perm k (rowsOf_selectionOf ds k)
  have hkeys : groupKeys loadModeKey (selectionOf ds) = groupKeys loadModeKey (ds.map shown) :=
    groupKeys_eq_of_perm (sortBy_perm selectionKey (ds.map shown))
  rw [cpuSelectionSummary, groupBy, List.map_map, hkeys]
  simp only [Function.comp_def, hrow]
  refine sortBy_eq_self _ (List.pairwise_map.mpr ?_)
  exact (ascending_groupKeys loadModeKey (ds.map shown)).imp fun h => le_of_lt h

/-! ### The windows behind a group -/

/-- What the summary depends on: the decisions of the windows `keys`, window by window. -/
structure Counted (keys : List (Text ×ₗ ℤ)) (plan : Text ×ₗ ℤ → List Decision × Summary) :
    Prop where
  nodup : keys.Nodup
  window : ∀ k, ∀ d ∈ (plan k).1, d.loadType.val = some (ofLex k).1 ∧ d.windowId = (ofLex k).2
  same : ∀ k, ∀ d ∈ (plan k).1, d.mode = (plan k).2.mode ∧ d.rho = (plan k).2.rho
  named : ∀ k, ∀ d ∈ (plan k).1, d.threadKey ≠ Cell.missing
  bound : ∀ k, (plan k).2.boundThreads = (plan k).1.length
  cores : ∀ k c, (∃ d ∈ (plan k).1, d.targetCpu / 2 = c) ↔ c < coresUsed (plan k).2

theorem load_of_boundKey {w : Summary × Text ×ₗ ℤ} {κ : Text ×ₗ Text} (h : boundKey w = some κ) :
    (ofLex w.2).1 = (ofLex κ).1 := by
  unfold boundKey at h
  split_ifs at h
  rw [← Option.some.inj h]
  rfl

theorem lt_foldr_max {c : ℕ} : ∀ {l : List ℕ}, c < l.foldr max 0 ↔ ∃ x ∈ l, c < x
  | [] => by simp
  | x :: l => by
    rw [List.foldr_cons, lt_max_iff, lt_foldr_max, List.exists_mem_cons_iff]

section Counted
variable {keys : List (Text ×ₗ ℤ)} {plan : Text ×ₗ ℤ → List Decision × Summary}
  (h : Counted keys plan)
include h

theorem loadModeKey_eq_boundKey {k : Text ×ₗ ℤ} {r : SelectionRow}
    (hr : r ∈ (plan k).1.map shown) : loadModeKey r = boundKey ((plan k).2, k) := by
  obtain ⟨d, hd, rfl⟩ := List.mem_map.mp hr
  have hne : (plan k).2.boundThreads ≠ 0 := by
    rw [h.bound]; exact (List.length_pos_of_mem hd).ne'
  rw [boundKey, if_neg hne, loadModeKey]
  simp only [shown, (h.window k d hd).1, (h.same k d hd).1, Option.map_some]

theorem exists_decision {k : Text ×ₗ ℤ} {κ : Text ×ₗ Text}
    (hk : boundKey ((plan k).2, k) = some κ) : ∃ d, d ∈ (plan k).1 := by
  refine List.exists_mem_of_ne_nil _ fun hnil => ?_
  rw [boundKey, if_pos (by rw [h.bound, hnil]; rfl)] at hk
  cases hk

/-- **The rows of a group** are the decisions of its windows. -/
theorem rowsOf_decisions (κ : Text ×ₗ Text) :
    rowsOf loadModeKey ((keys.flatMap fun k => (plan k).1).map shown) κ =
      (rowsOf (fun k => boundKey ((plan k).2, k)) keys κ).flatMap
        fun k => (plan k).1.map shown := by
  rw [List.map_flatMap, rowsOf, rowsOf]
  refine filter_flatMap fun k _ r hr => ?_
  rw [loadModeKey_eq_boundKey h hr]

/-- **The groups are the same.** -/
theorem groupKeys_decisions :
    groupKeys loadModeKey ((keys.flatMap fun k => (plan k).1).map shown) =
      groupKeys boundKey (keys.map fun k => ((plan k).2, k)) := by
  refine eq_of_ascending id (ascending_groupKeys _ _) (ascending_groupKeys _ _) fun κ => ?_
  rw [mem_groupKeys, mem_groupKeys, List.map_flatMap]
  simp only [List.mem_flatMap, List.mem_map]
  constructor
  · rintro ⟨r, ⟨k, hk, d, hd, rfl⟩, hκ⟩
    refine ⟨_, ⟨k, hk, rfl⟩, ?_⟩
    rw [← loadModeKey_eq_boundKey h (List.mem_map_of_mem hd), hκ]
  · rintro ⟨_, ⟨k, hk, rfl⟩, hκ⟩
    obtain ⟨d, hd⟩ := exists_decision h hκ
    refine ⟨shown d, ⟨k, hk, d, hd, rfl⟩, ?_⟩
    rw [loadModeKey_eq_boundKey h (List.mem_map_of_mem hd), hκ]

/-! ### Counting the rows of some windows -/

theorem length_rows (ks : List (Text ×ₗ ℤ)) :
    (ks.flatMap fun k => (plan k).1.map shown).length =
      (ks.map fun k => (plan k).2.boundThreads).sum := by
  rw [List.length_flatMap]
  simp only [List.length_map, h.bound]

theorem length_threadKeys (ks : List (Text ×ₗ ℤ)) :
    ((ks.flatMap fun k => (plan k).1.map shown).filterMap fun r => r.threadKey.val).length =
      (ks.map fun k => (plan k).2.boundThreads).sum := by
  rw [List.filterMap_length_eq_length.mpr, length_rows h]
  intro r hr
  obtain ⟨k, -, hr⟩ := List.mem_flatMap.mp hr
  obtain ⟨d, hd, rfl⟩ := List.mem_map.mp hr
  rw [Option.isSome_iff_ne_none]
  exact fun hnone => h.named k d hd (by ext1; exact hnone)

/-- **The windows use the first cores**, so `nunique` counts those of the widest window. -/
theorem length_cores (ks : List (Text ×ₗ ℤ)) :
    (((ks.flatMap fun k => (plan k).1.map shown).map SelectionRow.physicalCore).dedup).length =
      (ks.map fun k => coresUsed (plan k).2).foldr max 0 := by
  have hp := (List.perm_ext_iff_of_nodup (List.nodup_dedup
    ((ks.flatMap fun k => (plan k).1.map shown).map SelectionRow.physicalCore))
    (List.nodup_range (n := (ks.map fun k => coresUsed (plan k).2).foldr max 0))).mpr fun c => ?_
  · rw [hp.length_eq, List.length_range]
  · rw [List.mem_dedup, List.mem_range, lt_foldr_max, List.map_flatMap]
    simp only [List.mem_flatMap, List.mem_map]
    constructor
    · rintro ⟨k, hk, _, ⟨d, hd, rfl⟩, rfl⟩
      exact ⟨_, ⟨k, hk, rfl⟩, (h.cores k _).mp ⟨d, hd, rfl⟩⟩
    · rintro ⟨_, ⟨k, hk, rfl⟩, hc⟩
      obtain ⟨d, hd, hd'⟩ := (h.cores k c).mpr hc
      exact ⟨k, hk, _, ⟨d, hd, rfl⟩, hd'⟩

theorem sum_rho (ks : List (Text ×ₗ ℤ)) :
    ((ks.flatMap fun k => (plan k).1.map shown).map SelectionRow.rho).sum =
      (ks.map fun k => ((plan k).2.boundThreads : ℚ) * (plan k).2.rho).sum := by
  rw [List.map_flatMap, List.flatMap_def, List.sum_flatten, List.map_map]
  congr 1
  refine List.map_congr_left fun k _ => ?_
  rw [Function.comp_apply, List.map_map, h.bound,
    List.sum_eq_card_nsmul _ (plan k).2.rho, List.length_map, nsmul_eq_mul]
  intro x hx
  obtain ⟨d, hd, rfl⟩ := List.mem_map.mp hx
  exact (h.same k d hd).2

section Group
variable {κ : Text ×ₗ Text} {ks : List (Text ×ₗ ℤ)}
  (hks : ∀ k ∈ ks, boundKey ((plan k).2, k) = some κ)
include hks

/-- Every window of a group has a row, so `nunique` counts the windows. -/
theorem length_windows (hn : ks.Nodup) :
    (((ks.flatMap fun k => (plan k).1.map shown).map SelectionRow.windowId).dedup).length =
      ks.length := by
  have hinj : (ks.map fun k => (ofLex k).2).Nodup := by
    refine List.Nodup.map_on (fun k hk k' hk' he => ?_) hn
    have hload := (load_of_boundKey (hks k hk)).trans (load_of_boundKey (hks k' hk')).symm
    exact ofLex_inj.mp (Prod.ext hload he)
  have hp := (List.perm_ext_iff_of_nodup (List.nodup_dedup
    ((ks.flatMap fun k => (plan k).1.map shown).map SelectionRow.windowId)) hinj).mpr fun w => ?_
  · rw [hp.length_eq, List.length_map]
  · rw [List.mem_dedup, List.map_flatMap]
    simp only [List.mem_flatMap, List.mem_map]
    constructor
    · rintro ⟨k, hk, _, ⟨d, hd, rfl⟩, rfl⟩
      exact ⟨k, hk, (h.window k d hd).2.symm⟩
    · rintro ⟨k, hk, rfl⟩
      obtain ⟨d, hd⟩ := exists_decision h (hks k hk)
      exact ⟨k, hk, _, ⟨d, hd, rfl⟩, (h.window k d hd).2⟩

theorem mean_rho (hne : ks ≠ []) :
    mean ((ks.flatMap fun k => (plan k).1.map shown).map SelectionRow.rho) =
      some ((ks.map fun k => ((plan k).2.boundThreads : ℚ) * (plan k).2.rho).sum /
        ((ks.map fun k => (plan k).2.boundThreads).sum : ℕ)) := by
  obtain ⟨k, hk⟩ := List.exists_mem_of_ne_nil _ hne
  obtain ⟨d, hd⟩ := exists_decision h (hks k hk)
  have hrows : (ks.flatMap fun k => (plan k).1.map shown).map SelectionRow.rho ≠ [] :=
    List.ne_nil_of_mem (List.mem_map_of_mem
      (List.mem_flatMap.mpr ⟨k, hk, List.mem_map_of_mem hd⟩))
  rw [mean, if_neg hrows, sum_rho h, List.length_map, length_rows h]

end Group

end Counted

/-! ### The scores of the cores -/

section Scores
variable {ds : List Decision} {ps : List CorePair} (hp : Planned ds) (h : PairsOf ds ps)

/-- The key of the rows a core is made of. -/
def rowsKey (p : CorePair) : Text ×ₗ ℤ ×ₗ ℕ :=
  toLex (p.loadType, toLex (p.windowId, p.physicalCore))

include h in
theorem nodup_rowsKey : (ps.map rowsKey).Nodup := by
  have hn := nodup_fst_groupBy coreKey (selectionOf ds)
  rwa [map_fst_groups h] at hn

include h in
theorem rowOf_rowsKey {p : CorePair} (hps : p ∈ ps) :
    RowOf ds p (rowsOf coreKey (selectionOf ds) (rowsKey p)) := by
  obtain ⟨k, -, hk⟩ := (mem_pairs_iff h).mp hps
  have hr := rowOf_corePair hk
  rwa [corePair_key hk] at hr

include hp

theorem nodup_selectionOf : (selectionOf ds).Nodup := by
  refine (sortBy_perm selectionKey (ds.map shown)).nodup_iff.mpr ?_
  refine List.Nodup.of_map (fun r => ((r.loadType, r.windowId), r.targetCpu)) ?_
  have haddress := hp.address_nodup
  rwa [List.map_map]

include h

theorem mode_of_window {p : CorePair} (hps : p ∈ ps) {d : Decision} (hd : d ∈ ds)
    (hL : d.loadType.val = some p.loadType) (hw : d.windowId = p.windowId) : d.mode = p.mode := by
  obtain ⟨d', hd', hL', hw', -, hm⟩ := (rowOf_rowsKey h hps).first
  rw [hm]
  exact (hp.mode d hd d' hd' (window_eq hL hw hL' hw')).1

/-- **The two threads of a core carry its score**, a thread on its own none. -/
theorem scores_core {p : CorePair} (hps : p ∈ ps) :
    ((rowsOf coreKey (selectionOf ds) (rowsKey p)).filterMap SelectionRow.score).Perm
      (p.score.toList ++ p.score.toList) := by
  have hr := rowOf_rowsKey h hps
  rcases hm : p.mode with _ | _
  · have hscore := (ce_row hp hr hm).2
    rw [hr.score, List.head?_eq_none_iff] at hscore
    rw [hr.score, hscore]
    exact List.Perm.refl _
  · obtain ⟨d0, hd0, d1, hd1, hat0, hat1, -, -, s, hs0, hs1, hs⟩ := sp_row hp hr hm
    have hne : shown d0 ≠ shown d1 := fun he => by
      have hcpu : d0.targetCpu = d1.targetCpu := congrArg SelectionRow.targetCpu he
      rw [hat0.cpu, hat1.cpu, cpuForCore, cpuForCore] at hcpu
      omega
    have hrows : (rowsOf coreKey (selectionOf ds) (rowsKey p)).Perm [shown d0, shown d1] := by
      refine (List.perm_ext_iff_of_nodup ((nodup_selectionOf hp).filter _)
        (by simpa using hne)).mpr fun r => ?_
      refine (hr.mem r).trans ?_
      simp only [List.mem_cons, List.not_mem_nil, or_false]
      constructor
      · rintro ⟨d, hd, rfl, hL, hw, hc⟩
        have hat := at_mod hL hw hc
        rcases Nat.mod_two_eq_zero_or_one d.targetCpu with h2 | h2 <;> rw [h2] at hat
        · exact Or.inl (congrArg shown (eq_of_at hp hd hd0 hat hat0))
        · exact Or.inr (congrArg shown (eq_of_at hp hd hd1 hat hat1))
      · rintro (rfl | rfl)
        · exact ⟨d0, hd0, rfl, hat0.load, hat0.window,
            ((cpuForCore_div_mod (by decide)).mp hat0.cpu).1⟩
        · exact ⟨d1, hd1, rfl, hat1.load, hat1.window,
            ((cpuForCore_div_mod (by decide)).mp hat1.cpu).1⟩
    rw [hs]
    refine (hrows.filterMap _).trans ?_
    have hshown : [shown d0, shown d1].filterMap SelectionRow.score = [s, s] := by
      simp [shown, hs0, hs1]
    rw [hshown]
    exact List.Perm.refl _

/-- The rows of a load type and a mode are those of its cores. -/
theorem loadModeKey_iff {κ : Text ×ₗ Text} {r : SelectionRow} (hr : r ∈ selectionOf ds) :
    loadModeKey r = some κ ↔
      ∃ k, coreKey r = some k ∧ k ∈ (ps.filter fun p => pairLoadMode p = κ).map rowsKey := by
  obtain ⟨d, hd, rfl⟩ := mem_selectionOf.mp hr
  obtain ⟨L, hL⟩ : ∃ L, d.loadType.val = some L :=
    Option.ne_none_iff_exists'.mp fun hnone => hp.load d hd (by ext1; exact hnone)
  obtain ⟨p, hps, hkey⟩ := (pairs_used_iff h).mpr ⟨d, hd, hL, rfl, rfl⟩
  simp only [pairKey, Prod.mk.injEq] at hkey
  obtain ⟨hpL, hpw, hpc⟩ := hkey
  have hcore : coreKey (shown d) = some (rowsKey p) :=
    coreKey_shown.mpr ⟨by rw [hpL]; exact hL, hpw.symm, hpc.symm⟩
  have hmode : loadModeKey (shown d) = some (pairLoadMode p) := by
    have hm := mode_of_window hp h hps hd (by rw [hpL]; exact hL) hpw.symm
    simp only [loadModeKey, shown, hL, Option.map_some, pairLoadMode, hpL, hm]
  rw [hmode, hcore, Option.some_inj]
  constructor
  · exact fun hκ => ⟨_, rfl, List.mem_map_of_mem (List.mem_filter.mpr ⟨hps, decide_eq_true hκ⟩)⟩
  · rintro ⟨k, hk, hmem⟩
    rw [← Option.some.inj hk] at hmem
    obtain ⟨p', hp', he⟩ := List.mem_map.mp hmem
    obtain ⟨hps', hκ⟩ := List.mem_filter.mp hp'
    rw [← List.inj_on_of_nodup_map (nodup_rowsKey h) hps' hps he]
    exact of_decide_eq_true hκ

/-- **Every score of a core is counted twice.** -/
theorem sum_scores (f : ℚ → ℚ) (κ : Text ×ₗ Text) :
    (((rowsOf loadModeKey (selectionOf ds) κ).filterMap SelectionRow.score).map f).sum =
      2 * (((ps.filter fun p => pairLoadMode p = κ).filterMap CorePair.score).map f).sum := by
  have hn : ((ps.filter fun p => pairLoadMode p = κ).map rowsKey).Nodup :=
    (List.filter_sublist.map _).nodup (nodup_rowsKey h)
  rw [sum_map_filterMap, sum_map_filterMap, sum_rowsOf _ hn fun r hr => loadModeKey_iff hp h hr,
    List.map_map, ← List.sum_map_mul_left]
  refine congrArg List.sum (List.map_congr_left fun p hmem => ?_)
  have hscores := ((scores_core hp h (List.mem_of_mem_filter hmem)).map f).sum_eq
  rw [sum_map_filterMap] at hscores
  refine hscores.trans ?_
  rcases p.score with _ | s
  · simp
  · simp [two_mul]

/-- **The mean score of the threads is that of the cores.** -/
theorem mean_scores (κ : Text ×ₗ Text) :
    mean ((rowsOf loadModeKey (selectionOf ds) κ).filterMap SelectionRow.score) =
      mean ((ps.filter fun p => pairLoadMode p = κ).filterMap CorePair.score) := by
  have hsum := sum_scores hp h id κ
  have hlen := sum_scores hp h (fun _ => 1) κ
  simp only [List.map_id, List.map_const', List.sum_replicate, nsmul_eq_mul, mul_one] at hsum hlen
  have hnil : (rowsOf loadModeKey (selectionOf ds) κ).filterMap SelectionRow.score = [] ↔
      (ps.filter fun p => pairLoadMode p = κ).filterMap CorePair.score = [] := by
    rw [← List.length_eq_zero_iff, ← List.length_eq_zero_iff, ← Nat.cast_eq_zero (R := ℚ), hlen]
    simp
  rw [mean, mean, hsum, hlen, mul_div_mul_left _ _ two_ne_zero]
  simp only [hnil]

end Scores

/-! ### The summary of a plan -/

section Plan
variable {sortValues : IntensitySort} {df : List Row} {physicalCores : ℕ} {theta : ℚ} {topK : ℕ}

/-- The cores of a window are handed out from `0` on. -/
theorem coresUsed_iff {subdf : List Row} {ds : List Decision} {sm : Summary}
    (h : CorePlacement subdf physicalCores theta ds sm) (c : ℕ) :
    (∃ d ∈ ds, d.targetCpu / 2 = c) ↔ c < coresUsed sm := by
  rcases hm : sm.mode with _ | _
  · have hcpus := (ce_of_mode h hm).cpus
    have hlen : sm.boundThreads = subdf.length := by
      have hl := congrArg List.length hcpus
      rw [List.length_map, List.length_map, List.length_range] at hl
      rw [h.bound, hl]
    have hcpu : ∀ n, n ∈ ds.map (·.targetCpu) ↔ ∃ i < sm.boundThreads, cpuForCore i 0 = n := by
      intro n
      simp only [hcpus, hlen, List.mem_map, List.mem_range]
    have hused : coresUsed sm = sm.boundThreads := by rw [coresUsed, hm]
    rw [hused]
    constructor
    · rintro ⟨d, hd, rfl⟩
      obtain ⟨i, hi, he⟩ := (hcpu _).mp (List.mem_map_of_mem hd)
      rw [← he, cpuForCore]; omega
    · intro hc
      obtain ⟨d, hd, he⟩ := List.mem_map.mp ((hcpu _).mpr ⟨c, hc, rfl⟩)
      exact ⟨d, hd, by rw [he, cpuForCore]; omega⟩
  · rw [(sp_of_mode h hm).cores c, coresUsed, hm]

/-- **The plan, window by window.** -/
theorem counted_scheduleWindow (h1 : 1 ≤ physicalCores)
    (hkeys : ∀ r ∈ df, r.threadKey ≠ Cell.missing) :
    Counted (groupKeys windowKey df) fun k =>
      scheduleWindow sortValues (rowsOf windowKey df k) physicalCores theta topK := by
  have hpl := fun k =>
    scheduleWindow_placement sortValues (rowsOf windowKey df k) physicalCores theta topK h1
  refine
    { nodup := nodup_groupKeys windowKey df
      window := fun k d hd => window_of_mem h1 hd
      same := fun k d hd => ⟨((hpl k).same d hd).1, ((hpl k).same d hd).2.1⟩
      named := fun k d hd => ?_
      bound := fun k => (hpl k).bound
      cores := fun k => coresUsed_iff (hpl k) }
  obtain ⟨r, hr, hkey, -⟩ := (hpl k).carries d hd
  rw [hkey]
  exact hkeys r (mem_rowsOf.mp hr).1

/-- The row of a group is the one counted from the windows and the cores of its key. -/
theorem summaryRow_eq_recount {keys : List (Text ×ₗ ℤ)}
    {plan : Text ×ₗ ℤ → List Decision × Summary} (h : Counted keys plan) {κ : Text ×ₗ Text}
    {ks : List (Text ×ₗ ℤ)} (hks : ∀ k ∈ ks, boundKey ((plan k).2, k) = some κ) (hn : ks.Nodup)
    (hne : ks ≠ []) {corePairs : List CorePair}
    (hscores : mean ((ks.flatMap fun k => (plan k).1.map shown).filterMap SelectionRow.score) =
      mean ((corePairs.filter fun p => pairLoadMode p = κ).filterMap CorePair.score)) :
    summaryRow κ (ks.flatMap fun k => (plan k).1.map shown) =
      recount corePairs κ (ks.map fun k => ((plan k).2, k)) := by
  simp only [summaryRow, recount, List.length_map, List.map_map, Function.comp_def,
    length_windows h hks hn, length_threadKeys h, length_cores h, mean_rho h hks hne, hscores]

/-- **The summary of counted windows.** -/
theorem cpuSelectionSummary_counted {keys : List (Text ×ₗ ℤ)}
    {plan : Text ×ₗ ℤ → List Decision × Summary} (h : Counted keys plan) {ds : List Decision}
    {ps : List CorePair} (hds : ds = keys.flatMap fun k => (plan k).1) (hp : Planned ds)
    (hps : PairsOf ds ps) :
    cpuSelectionSummary (selectionOf ds) =
      recounted (keys.map fun k => ((plan k).2, k)) ps := by
  rw [cpuSelectionSummary_selectionOf, recounted, groupBy, List.map_map, hds,
    groupKeys_decisions h]
  refine List.map_congr_left fun κ hκ => ?_
  obtain ⟨_, hw, hκ⟩ := mem_groupKeys.mp hκ
  obtain ⟨k, hk, rfl⟩ := List.mem_map.mp hw
  have hsums : rowsOf boundKey (keys.map fun k => ((plan k).2, k)) κ =
      (rowsOf (fun k => boundKey ((plan k).2, k)) keys κ).map fun k => ((plan k).2, k) :=
    List.filter_map
  have hscores := mean_scores hp hps κ
  rw [mean_eq_of_perm ((rowsOf_selectionOf ds κ).filterMap _), hds, rowsOf_decisions h] at hscores
  rw [Function.comp_apply, rowsOf_decisions h, hsums]
  exact summaryRow_eq_recount h (fun k hk => (mem_rowsOf.mp hk).2) (h.nodup.filter _)
    (List.ne_nil_of_mem (mem_rowsOf.mpr ⟨hk, hκ⟩)) hscores

end Plan

/-- **The exporter and the planner count the same**: the summary of the selection is the one
recounted from the summaries of the windows that bind a thread and from the core pairs. -/
theorem summary_scheduleAll (sortValues : IntensitySort) (df : List Row) (physicalCores : ℕ)
    (theta : ℚ) (topK : ℕ) (h1 : 1 ≤ physicalCores)
    (hkeys : ∀ r ∈ df, r.threadKey ≠ Cell.missing)
    (hne : (scheduleAll sortValues df physicalCores theta topK).1 ≠ []) :
    ∃ t, exportCpuSelection (scheduleAll sortValues df physicalCores theta topK).1 = some t ∧
      cpuSelectionSummary t.selection =
        recounted (scheduleAll sortValues df physicalCores theta topK).2 t.corePairs := by
  obtain ⟨ps, hexp, hps⟩ := exportCpuSelection_eq hne
  refine ⟨_, hexp, ?_⟩
  have hcounted : Counted (groupKeys windowKey df) fun k =>
      scheduleWindow sortValues (rowsOf windowKey df k) physicalCores theta topK :=
    counted_scheduleWindow h1 hkeys
  have hds : (scheduleAll sortValues df physicalCores theta topK).1 =
      (groupKeys windowKey df).flatMap fun k =>
        (scheduleWindow sortValues (rowsOf windowKey df k) physicalCores theta topK).1 := by
    simp only [scheduleAll, groupBy, List.map_map, List.flatMap_map, Function.comp_apply]
  have hsums : (scheduleAll sortValues df physicalCores theta topK).2 =
      (groupKeys windowKey df).map fun k =>
        ((scheduleWindow sortValues (rowsOf windowKey df k) physicalCores theta topK).2, k) := by
    simp only [scheduleAll, groupBy, List.map_map, Function.comp_def]
  rw [hsums]
  exact cpuSelectionSummary_counted hcounted hds
    (planned_scheduleAll sortValues df physicalCores theta topK h1) hps

theorem summary_scheduleAll_threeRows :
    ∃ t, exportCpuSelection (scheduleAll intensitySort threeRows 1 (3 / 5) 32).1 = some t ∧
      cpuSelectionSummary t.selection =
        recounted (scheduleAll intensitySort threeRows 1 (3 / 5) 32).2 t.corePairs :=
  summary_scheduleAll intensitySort threeRows 1 (3 / 5) 32 (by decide) (by decide)
    (List.ne_nil_of_length_pos (by decide +kernel))

end Magm.Export.Summary
