import Magm.Groups.Greedy
import Magm.Lib.GroupBy

/-! # When group selection is reproducible

Python goes through the set of the remaining threads in an order that changes from one process to
the next. Where two threads are equally good to add, this order decides which one is, and with it
what can be added later. The score is the same in all orders exactly when these choices make no
difference (`reproducible_iff`): always up to three threads, but not in general. -/

namespace Magm.Groups.Reproducible

open Magm.Lib.Chars Magm.Lib.BestChoice Magm.Lib.GroupBy Magm.Table.Cells
open Magm.Groups.Complementarity Magm.Groups.Greedy

/-! ### Every path is taken in some order -/

section Path
variable {τ : Type*} [DecidableEq τ] {score : List τ → Option ℚ} {F : Finset τ → ℚ}
  {U : Finset τ}

/-- Behind the first thread that remains come those that remain without it. -/
theorem filter_concat {l : List τ} (hl : l.Nodup) {group ts : List τ} {t : τ}
    (heq : l.filter (fun a => a ∈ U \ group.toFinset) = t :: ts) :
    l.filter (fun a => a ∈ U \ (group ++ [t]).toFinset) = ts := by
  have hnodup : (t :: ts).Nodup := heq ▸ hl.filter _
  have hsplit : l.filter (fun a => a ∈ U \ (group ++ [t]).toFinset) =
      (l.filter fun a => a ∈ U \ group.toFinset).filter fun a => a ≠ t := by
    rw [List.filter_filter]
    refine List.filter_congr fun a _ => ?_
    rw [← sdiff_concat]
    simp only [Finset.mem_erase, Bool.decide_and]
  rw [hsplit, heq, List.filter_cons_of_neg (by simp), List.filter_eq_self.mpr]
  intro a ha
  rw [decide_eq_true_eq]
  rintro rfl
  exact (List.nodup_cons.mp hnodup).1 ha

/-- In the order of a list the loop takes the path that comes first. -/
theorem extendGroup_path (h : Scored score F U) {l : List τ} (hl : l.Nodup)
    (hU : ∀ t, t ∈ l ↔ t ∈ U) : ∀ {ts rest group : List τ}, group.Nodup → group.toFinset ⊆ U →
      l.filter (fun t => t ∈ U \ group.toFinset) = ts ++ rest →
        BestPath F U group.toFinset ts →
          extendGroup (fun s => l.filter fun t => t ∈ s) score ts.length group
            (U \ group.toFinset) = some (group ++ ts)
  | [], _, group, _, _, _, _ => by rw [List.append_nil]; rfl
  | t :: ts, rest, group, hn, hin, heq, ⟨hnext, hpath⟩ => by
    have hmem : ∀ a, a ∈ t :: (ts ++ rest) ↔ a ∈ U \ group.toFinset := by
      intro a
      rw [← List.cons_append, ← heq, List.mem_filter, decide_eq_true_eq, hU, Finset.mem_sdiff]
      tauto
    have hne : U \ group.toFinset ≠ ∅ :=
      Finset.ne_empty_of_mem (Finset.mem_sdiff.mpr ⟨hnext.mem, hnext.notMem⟩)
    obtain ⟨t', harg, hfirst, -⟩ := h.argmax_next hn hin hmem (List.cons_ne_nil _ _)
    obtain rfl : t' = t := hfirst.eq_head fun a ha => by
      obtain ⟨haU, haS⟩ := Finset.mem_sdiff.mp ((hmem a).mp (List.mem_cons_of_mem _ ha))
      exact hnext.best a haU haS
    have hrest := filter_concat hl (heq.trans (List.cons_append ..))
    have hsub : (group ++ [t']).toFinset ⊆ U := by
      rw [toFinset_concat]
      exact Finset.insert_subset hnext.mem hin
    rw [← toFinset_concat] at hpath
    have hext := extendGroup_path h hl hU (nodup_concat hn hnext.notMem) hsub hrest hpath
    rw [List.length_cons, extendGroup, if_neg hne, heq, List.cons_append, harg, Option.bind_some,
      sdiff_concat, hext, List.append_assoc]
    rfl

/-- The order that takes a path. -/
theorem exists_order (h : Scored score F U) {candidates : List τ} (hn : candidates.Nodup)
    (hU : candidates.toFinset = U) {a b : τ} {ts : List τ} (hpp : PairPath F candidates a b ts) :
    ∃ o : SetOrder U, extendGroup o.enum score ts.length [a, b] (U \ {a, b}) =
      some (a :: b :: ts) := by
  subst hU
  have hts : ∀ t ∈ ts, t ∈ candidates := fun t ht => List.mem_toFinset.mp (hpp.path.mem t ht).1
  have hl : (ts ++ candidates.filter fun t => t ∉ ts).Nodup := by
    refine List.nodup_append.mpr ⟨hpp.path.nodup, hn.filter _, ?_⟩
    rintro t ht t' ht' rfl
    exact of_decide_eq_true (List.mem_filter.mp ht').2 ht
  have hmem : ∀ t, t ∈ ts ++ candidates.filter (fun t => t ∉ ts) ↔ t ∈ candidates.toFinset := by
    intro t
    rw [List.mem_append, List.mem_filter, decide_eq_true_eq, List.mem_toFinset]
    exact ⟨fun h => h.elim (hts t) fun h => h.1, fun h => by tauto⟩
  have hset : [a, b].toFinset = ({a, b} : Finset τ) := by simp
  refine ⟨SetOrder.ofList _ hl (Finset.ext fun t => by rw [List.mem_toFinset, hmem]), ?_⟩
  have hfirst : (ts ++ candidates.filter fun t => t ∉ ts).filter
      (fun t => t ∈ candidates.toFinset \ [a, b].toFinset) =
        ts ++ (candidates.filter fun t => t ∉ ts).filter
          fun t => t ∈ candidates.toFinset \ [a, b].toFinset := by
    rw [List.filter_append, List.filter_eq_self.mpr]
    intro t ht
    rw [decide_eq_true_eq, hset]
    exact Finset.mem_sdiff.mpr (hpp.path.mem t ht)
  rw [← hset]
  exact extendGroup_path h hl hmem (by simpa using hpp.ne)
    (fun t ht => List.mem_toFinset.mpr (hpp.subset (by simp at ht ⊢; tauto))) hfirst
    (hset ▸ hpp.path)

end Path

/-! ### One window -/

section Window
variable {τ κ : Type*} [DecidableEq τ]

/-- The score of the group does not depend on the order of the remaining threads. -/
def SameScore (dfWindow : List (NormRow τ κ)) (k : ℕ) (resourceCols : List κ)
    (alpha beta : ℚ) : Prop :=
  ∀ o o' : SetOrder (dfWindow.map NormRow.thread).toFinset,
    (greedySelectNorm o.enum dfWindow (dfWindow.map NormRow.thread) k resourceCols alpha
      beta).map Prod.snd =
    (greedySelectNorm o'.enum dfWindow (dfWindow.map NormRow.thread) k resourceCols alpha
      beta).map Prod.snd

/-- **Ties make no difference**: whichever of the best threads is added to the best pair, `k - 2`
times, the group has one score. -/
def TiesAgree (dfWindow : List (NormRow τ κ)) (k : ℕ) (resourceCols : List κ)
    (alpha beta : ℚ) : Prop :=
  ∀ a b, bestPair (fun group => computeGroupComplementarityNorm dfWindow group resourceCols alpha
      beta) (dfWindow.map NormRow.thread) = some (a, b) →
    ∀ ts ts', ts.length = k - 2 → ts'.length = k - 2 →
      BestPath (groupScore dfWindow resourceCols alpha beta)
        (dfWindow.map NormRow.thread).toFinset {a, b} ts →
      BestPath (groupScore dfWindow resourceCols alpha beta)
        (dfWindow.map NormRow.thread).toFinset {a, b} ts' →
      groupScore dfWindow resourceCols alpha beta ({a, b} ∪ ts.toFinset) =
        groupScore dfWindow resourceCols alpha beta ({a, b} ∪ ts'.toFinset)

variable {dfWindow : List (NormRow τ κ)} {resourceCols : List κ} {alpha beta : ℚ}
  (halpha : 0 ≤ alpha) (hbeta : 0 ≤ beta) (hthreads : (dfWindow.map NormRow.thread).Nodup)
include halpha hbeta hthreads

/-- What the function returns in the order that takes a path. -/
theorem exists_order_path {k : ℕ} (hk : 2 ≤ k) (hkn : k ≤ dfWindow.length) {a b : τ}
    (hbest : bestPair (fun group => computeGroupComplementarityNorm dfWindow group resourceCols
      alpha beta) (dfWindow.map NormRow.thread) = some (a, b)) {ts : List τ}
    (hlen : ts.length = k - 2) (hpath : BestPath (groupScore dfWindow resourceCols alpha beta)
      (dfWindow.map NormRow.thread).toFinset {a, b} ts) :
    ∃ o : SetOrder (dfWindow.map NormRow.thread).toFinset,
      (greedySelectNorm o.enum dfWindow (dfWindow.map NormRow.thread) k resourceCols alpha
        beta).map Prod.snd =
      some (some (groupScore dfWindow resourceCols alpha beta ({a, b} ∪ ts.toFinset))) := by
  have hscored := scored_window dfWindow resourceCols halpha hbeta
  have hpp : PairPath (groupScore dfWindow resourceCols alpha beta) (dfWindow.map NormRow.thread)
      a b ts := by
    obtain ⟨o⟩ : Nonempty (SetOrder (dfWindow.map NormRow.thread).toFinset) :=
      ⟨SetOrder.ofList _ hthreads rfl⟩
    obtain ⟨a', b', ts', hbest', -, -, hpp⟩ :=
      greedySelectNorm_eq resourceCols halpha hbeta hthreads o hk hkn
    obtain ⟨rfl, rfl⟩ := Prod.mk.inj (Option.some.inj (hbest.symm.trans hbest'))
    exact ⟨hpp.left, hpp.right, hpp.ne, hpp.best, hpath⟩
  obtain ⟨o, hext⟩ := exists_order hscored hthreads rfl hpp
  have hsub : (a :: b :: ts).toFinset ⊆ (dfWindow.map NormRow.thread).toFinset :=
    toFinset_subset hpp.subset
  refine ⟨o, ?_⟩
  unfold greedySelectNorm
  simp only
  rw [hbest, Option.bind_some, ← hlen, hext, Option.map_some, Option.map_some,
    hscored.eq _ hpp.nodup (List.cons_ne_nil _ _) hsub, PairPath.toFinset_eq]

variable (resourceCols) in
/-- **Which windows are reproducible.** -/
theorem sameScore_iff {k : ℕ} (hk : 2 ≤ k) (hkn : k ≤ dfWindow.length) :
    SameScore dfWindow k resourceCols alpha beta ↔
      TiesAgree dfWindow k resourceCols alpha beta := by
  constructor
  · intro hrep a b hbest ts ts' hlen hlen' hpath hpath'
    obtain ⟨o, ho⟩ := exists_order_path halpha hbeta hthreads hk hkn hbest hlen hpath
    obtain ⟨o', ho'⟩ := exists_order_path halpha hbeta hthreads hk hkn hbest hlen' hpath'
    exact Option.some.inj (Option.some.inj (ho.symm.trans ((hrep o o').trans ho')))
  · intro hties o o'
    obtain ⟨a, b, ts, hbest, heq, hlen, hpp⟩ :=
      greedySelectNorm_eq resourceCols halpha hbeta hthreads o hk hkn
    obtain ⟨a', b', ts', hbest', heq', hlen', hpp'⟩ :=
      greedySelectNorm_eq resourceCols halpha hbeta hthreads o' hk hkn
    obtain ⟨rfl, rfl⟩ := Prod.mk.inj (Option.some.inj (hbest.symm.trans hbest'))
    rw [heq, heq', Option.map_some, Option.map_some,
      hties a b hbest ts ts' hlen hlen' hpp.path hpp'.path]

omit halpha hbeta hthreads in
/-- Ties in the last step make no difference. -/
theorem tiesAgree_of_unique {k : ℕ}
    (hunique : ∀ a b, bestPair (fun group => computeGroupComplementarityNorm dfWindow group
        resourceCols alpha beta) (dfWindow.map NormRow.thread) = some (a, b) →
      ∀ us t t', us.length + 3 < k →
        BestPath (groupScore dfWindow resourceCols alpha beta)
          (dfWindow.map NormRow.thread).toFinset {a, b} us →
        BestNext (groupScore dfWindow resourceCols alpha beta)
          (dfWindow.map NormRow.thread).toFinset ({a, b} ∪ us.toFinset) t →
        BestNext (groupScore dfWindow resourceCols alpha beta)
          (dfWindow.map NormRow.thread).toFinset ({a, b} ∪ us.toFinset) t' → t = t') :
    TiesAgree dfWindow k resourceCols alpha beta := by
  intro a b hbest ts ts' hlen hlen' hpath hpath'
  refine hpath.score_eq_of_unique hpath' (hlen.trans hlen'.symm) fun us t t' hus hpus ht ht' => ?_
  exact hunique a b hbest us t t' (by omega) hpus ht ht'

end Window

/-! ### All windows -/

section Windows
variable {τ κ : Type*} [DecidableEq τ]

/-- A row of `df_norm_all` with its window. -/
structure AggRow (τ κ : Type*) extends NormRow τ κ where
  windowId : ℤ

/-- The rows of a window. -/
def windowRows (dfNormAll : List (AggRow τ κ)) (win : ℤ) : List (NormRow τ κ) :=
  (rowsOf (fun r => some r.windowId) dfNormAll win).map AggRow.toNormRow

/-- An order for the threads of every window. -/
abbrev WindowOrders (dfNormAll : List (AggRow τ κ)) :=
  ∀ win, SetOrder ((windowRows dfNormAll win).map NormRow.thread).toFinset

/-- A row of the result: the group of a window and its score. -/
structure BestGroup (τ : Type*) where
  windowId : ℤ
  bestGroup : List τ
  cGroup : Option ℚ

/-- The windows with at least `k` threads. -/
def largeWindows (dfNormAll : List (AggRow τ κ)) (k : ℕ) : List ℤ :=
  (groupKeys (fun r => some r.windowId) dfNormAll).filter fun win =>
    k ≤ (windowRows dfNormAll win).length

/-- The main loop; `compare_k.py` and `compare_alpha_beta.py` run it for several `k`, `alpha` and
`beta` and keep the scores. -/
def bestGroups (dfNormAll : List (AggRow τ κ)) (o : WindowOrders dfNormAll) (k : ℕ)
    (resourceCols : List κ) (alpha beta : ℚ) : Option (List (BestGroup τ)) :=
  (largeWindows dfNormAll k).mapM fun win =>
    (greedySelectNorm (o win).enum (windowRows dfNormAll win)
      ((windowRows dfNormAll win).map NormRow.thread) k resourceCols alpha beta).map
        fun r => ⟨win, r.1, r.2⟩

/-- The scores a run reports. -/
def reported (results : Option (List (BestGroup τ))) : Option (List (ℤ × Option ℚ)) :=
  results.map fun rs => rs.map fun r => (r.windowId, r.cGroup)

variable {dfNormAll : List (AggRow τ κ)} {resourceCols : List κ} {alpha beta : ℚ}
  (halpha : 0 ≤ alpha) (hbeta : 0 ≤ beta)
  (hthreads : ∀ win, ((windowRows dfNormAll win).map NormRow.thread).Nodup)
include halpha hbeta hthreads

variable (resourceCols) in
/-- What a run reports, window by window. -/
theorem exists_reported (o : WindowOrders dfNormAll) {k : ℕ} (hk : 2 ≤ k) : ∀ {wins : List ℤ},
    (∀ win ∈ wins, k ≤ (windowRows dfNormAll win).length) → ∃ rs : List (BestGroup τ),
      wins.mapM (fun win => (greedySelectNorm (o win).enum (windowRows dfNormAll win)
        ((windowRows dfNormAll win).map NormRow.thread) k resourceCols alpha beta).map
          fun r => (⟨win, r.1, r.2⟩ : BestGroup τ)) = some rs ∧
      rs.map (fun r => (r.windowId, some r.cGroup)) = wins.map fun win =>
        (win, (greedySelectNorm (o win).enum (windowRows dfNormAll win)
          ((windowRows dfNormAll win).map NormRow.thread) k resourceCols alpha beta).map Prod.snd)
  | [], _ => ⟨[], rfl, rfl⟩
  | win :: wins, h => by
    obtain ⟨group, cGroup, heq, -⟩ := exists_selected resourceCols halpha hbeta
      (hthreads win) (o win) hk (h win List.mem_cons_self)
    obtain ⟨rs, hrs, hmap⟩ := exists_reported o hk fun w hw => h w (List.mem_cons_of_mem _ hw)
    refine ⟨⟨win, group, cGroup⟩ :: rs, ?_, ?_⟩
    · rw [List.mapM_cons, heq, hrs]
      rfl
    · rw [List.map_cons, List.map_cons, hmap, heq]
      rfl

omit [DecidableEq τ] halpha hbeta hthreads in
theorem map_score_iff (l l' : List (BestGroup τ)) :
    (l.map fun r => (r.windowId, r.cGroup)) = l'.map (fun r => (r.windowId, r.cGroup)) ↔
      (l.map fun r => (r.windowId, some r.cGroup)) =
        l'.map fun r => (r.windowId, some r.cGroup) := by
  have hinj : Function.Injective fun p : ℤ × Option ℚ => (p.1, some p.2) := by
    rintro ⟨w, c⟩ ⟨w', c'⟩ hp
    simpa using hp
  have hcomp : ∀ l : List (BestGroup τ), (l.map fun r => (r.windowId, some r.cGroup)) =
      (l.map fun r => (r.windowId, r.cGroup)).map fun p => (p.1, some p.2) := by
    intro l
    rw [List.map_map]
    rfl
  rw [hcomp, hcomp, (List.map_injective_iff.mpr hinj).eq_iff]

theorem reported_eq_iff (o o' : WindowOrders dfNormAll) {k : ℕ} (hk : 2 ≤ k) :
    reported (bestGroups dfNormAll o k resourceCols alpha beta) =
        reported (bestGroups dfNormAll o' k resourceCols alpha beta) ↔
      ∀ win ∈ largeWindows dfNormAll k,
        (greedySelectNorm (o win).enum (windowRows dfNormAll win)
          ((windowRows dfNormAll win).map NormRow.thread) k resourceCols alpha beta).map Prod.snd =
        (greedySelectNorm (o' win).enum (windowRows dfNormAll win)
          ((windowRows dfNormAll win).map NormRow.thread) k resourceCols alpha beta).map
            Prod.snd := by
  have hlarge : ∀ win ∈ largeWindows dfNormAll k, k ≤ (windowRows dfNormAll win).length :=
    fun win hwin => of_decide_eq_true (List.mem_filter.mp hwin).2
  obtain ⟨rs, hrs, hmap⟩ := exists_reported resourceCols halpha hbeta hthreads o
    hk hlarge
  obtain ⟨rs', hrs', hmap'⟩ := exists_reported resourceCols halpha hbeta hthreads
    o' hk hlarge
  have hrep : reported (bestGroups dfNormAll o k resourceCols alpha beta) =
      some (rs.map fun r => (r.windowId, r.cGroup)) := by
    rw [bestGroups, hrs]
    rfl
  have hrep' : reported (bestGroups dfNormAll o' k resourceCols alpha beta) =
      some (rs'.map fun r => (r.windowId, r.cGroup)) := by
    rw [bestGroups, hrs']
    rfl
  rw [hrep, hrep', Option.some_inj, map_score_iff, hmap, hmap', List.map_inj_left]
  simp only [Prod.mk.injEq, true_and]

/-- Two runs report the same scores for a large window only if they do so whatever its orders. -/
theorem runs_agree_iff {k : ℕ} (hk : 2 ≤ k) :
    (∀ o o' : WindowOrders dfNormAll, reported (bestGroups dfNormAll o k resourceCols alpha beta) =
        reported (bestGroups dfNormAll o' k resourceCols alpha beta)) ↔
      ∀ win ∈ largeWindows dfNormAll k,
        TiesAgree (windowRows dfNormAll win) k resourceCols alpha beta := by
  have hlarge : ∀ win ∈ largeWindows dfNormAll k, k ≤ (windowRows dfNormAll win).length :=
    fun win hwin => of_decide_eq_true (List.mem_filter.mp hwin).2
  constructor
  · intro hruns win hwin
    rw [← sameScore_iff resourceCols halpha hbeta (hthreads win) hk (hlarge win hwin)]
    intro o o'
    let base : WindowOrders dfNormAll := fun w => SetOrder.ofList _ (hthreads w) rfl
    have hboth := (reported_eq_iff halpha hbeta hthreads (Function.update base win o)
      (Function.update base win o') hk).mp (hruns _ _) win hwin
    rwa [Function.update_self, Function.update_self] at hboth
  · intro hties o o'
    refine (reported_eq_iff halpha hbeta hthreads o o' hk).mpr fun win hwin => ?_
    have hiff := sameScore_iff resourceCols halpha hbeta (hthreads win) hk (hlarge win hwin)
    exact hiff.mpr (hties win hwin) _ _

end Windows

/-- The threads `mysqld` and `nginx` tie for the third place, and `sshd` fits to `mysqld` only. -/
def mysqldFirst : List Text :=
  ["mysqld", "nginx", "sshd", "kswapd0", "kworker/0:1"].map String.toList
def nginxFirst : List Text :=
  ["nginx", "mysqld", "sshd", "kswapd0", "kworker/0:1"].map String.toList

end Magm.Groups.Reproducible
