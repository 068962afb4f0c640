import Magm.Collect.Attribution
import Magm.Groups.Complementarity
import Magm.Lib.BestChoice
import Magm.Planner.Matching

/-! # Choosing a group of threads: `greedy_select_norm`

The best pair of a window is extended by one thread after the other, each time the one with the
highest score of the extended group. The threads that remain are a Python set, so the order in which
the loop goes through them is a parameter (`SetOrder`).

The function always finds its group, whatever the order is (`greedySelectNorm_selected`). -/

namespace Magm.Groups.Greedy

open Magm.Lib.Chars Magm.Lib.BestChoice Magm.Collect.Attribution Magm.Planner.Schedule
open Magm.Planner.Placement Magm.Planner.Matching Magm.Groups.Complementarity

/-- `resource_cols_norm`. -/
def resourceColsNorm : List Event :=
  [.cpuCycles, .instructions, .cacheMisses, .branchInstrs, .branchMisses, .l1IcacheMiss,
    .l1DcacheMiss, .itlbMisses, .l2CacheMiss, .dtlbMisses]

/-! ### The two phases -/

section Phases
variable {τ : Type*} [DecidableEq τ]

/-- The first phase: the best pair `(i, j)` with `i < j`. -/
def bestPair (score : List τ → Option ℚ) (candidates : List τ) : Option (τ × τ) :=
  argmax (fun p => score [p.1, p.2]) (-1) (pairs candidates)

/-- The second phase, which runs while `missing = k - len(group)` is positive and lowers it by one
each time. `none` is the `KeyError` of `remaining.remove(None)`. -/
def extendGroup (enum : Finset τ → List τ) (score : List τ → Option ℚ) :
    ℕ → List τ → Finset τ → Option (List τ)
  | 0, group, _ => some group
  | missing + 1, group, remaining =>
    if remaining = ∅ then some group
    else (argmax (fun t => score (group ++ [t])) (-1) (enum remaining)).bind fun bestNext =>
      extendGroup enum score missing (group ++ [bestNext]) (remaining.erase bestNext)

variable {κ : Type*}

/-- `greedy_select_norm`: the group and its score. Without a best pair `best_pair.copy()` raises. -/
def greedySelectNorm (enum : Finset τ → List τ) (dfWindow : List (NormRow τ κ))
    (candidates : List τ) (k : ℕ) (resourceCols : List κ) (alpha beta : ℚ) :
    Option (List τ × Option ℚ) :=
  let score := fun group =>
    computeGroupComplementarityNorm dfWindow group resourceCols alpha beta
  (bestPair score candidates).bind fun pair =>
    (extendGroup enum score (k - 2) [pair.1, pair.2]
      (candidates.toFinset \ {pair.1, pair.2})).map fun group => (group, score group)

end Phases

/-! ### A score of sets -/

section Scored
variable {τ : Type*} [DecidableEq τ]

/-- Up to `U` the score of a group is that of the set of its threads, and above `-1`. -/
structure Scored (score : List τ → Option ℚ) (F : Finset τ → ℚ) (U : Finset τ) : Prop where
  eq : ∀ group : List τ, group.Nodup → group ≠ [] → group.toFinset ⊆ U →
    score group = some (F group.toFinset)
  gt : ∀ S ⊆ U, S.Nonempty → -1 < F S

theorem toFinset_subset {group group' : List τ} (hsub : group ⊆ group') :
    group.toFinset ⊆ group'.toFinset := fun _ ht =>
  List.mem_toFinset.mpr (hsub (List.mem_toFinset.mp ht))

theorem toFinset_concat (group : List τ) (t : τ) :
    (group ++ [t]).toFinset = insert t group.toFinset := by
  rw [List.toFinset_append, Finset.union_comm]
  rfl

theorem nodup_concat {group : List τ} (hn : group.Nodup) {t : τ} (ht : t ∉ group.toFinset) :
    (group ++ [t]).Nodup := by
  rw [← List.concat_eq_append]
  exact List.Nodup.concat (mt List.mem_toFinset.mpr ht) hn

theorem sdiff_concat (U : Finset τ) (group : List τ) (t : τ) :
    (U \ group.toFinset).erase t = U \ (group ++ [t]).toFinset := by
  rw [toFinset_concat, Finset.sdiff_insert]

variable {score : List τ → Option ℚ} {F : Finset τ → ℚ} {U : Finset τ}

theorem Scored.concat (h : Scored score F U) {group : List τ} (hn : group.Nodup)
    (hin : group.toFinset ⊆ U) {t : τ} (ht : t ∈ U \ group.toFinset) :
    score (group ++ [t]) = some (F (insert t group.toFinset)) ∧
      -1 < F (insert t group.toFinset) := by
  obtain ⟨htU, hnot⟩ := Finset.mem_sdiff.mp ht
  have hsub : (group ++ [t]).toFinset ⊆ U := by
    rw [toFinset_concat]
    exact Finset.insert_subset htU hin
  rw [← toFinset_concat]
  exact ⟨h.eq _ (nodup_concat hn hnot) (by simp) hsub, h.gt _ hsub (by simp)⟩

theorem Scored.pair (h : Scored score F U) {a b : τ} (ha : a ∈ U) (hb : b ∈ U) (hne : a ≠ b) :
    score [a, b] = some (F {a, b}) ∧ -1 < F {a, b} := by
  have hset : [a, b].toFinset = ({a, b} : Finset τ) := by simp
  have hsub : ({a, b} : Finset τ) ⊆ U :=
    Finset.insert_subset ha (Finset.singleton_subset_iff.mpr hb)
  have heq := h.eq [a, b] (by simpa using hne) (by simp) (hset ▸ hsub)
  exact ⟨hset ▸ heq, h.gt _ hsub (Finset.insert_nonempty _ _)⟩

/-- The scan over the threads that remain picks a best one, the first in the order. -/
theorem Scored.argmax_next (h : Scored score F U) {group : List τ} (hn : group.Nodup)
    (hin : group.toFinset ⊆ U) {ts : List τ} (hts : ∀ t, t ∈ ts ↔ t ∈ U \ group.toFinset)
    (hne : ts ≠ []) :
    ∃ t, argmax (fun t => score (group ++ [t])) (-1) ts = some t ∧
      FirstBest (fun t => F (insert t group.toFinset)) ts t ∧ BestNext F U group.toFinset t := by
  obtain ⟨t, harg, hfirst⟩ : ∃ t, argmax (fun t => score (group ++ [t])) (-1) ts = some t ∧
      FirstBest (fun t => F (insert t group.toFinset)) ts t :=
    argmax_eq_some (fun t ht => (h.concat hn hin ((hts t).mp ht)).1)
      (fun t ht => (h.concat hn hin ((hts t).mp ht)).2) hne
  have hmem := Finset.mem_sdiff.mp ((hts t).mp hfirst.mem)
  exact ⟨t, harg, hfirst, hmem.1, hmem.2, fun t' hU hS =>
    hfirst.le ((hts t').mpr (Finset.mem_sdiff.mpr ⟨hU, hS⟩))⟩

/-- **The loop takes a greedy path**, as long as there are threads left. -/
theorem extendGroup_eq (h : Scored score F U) (o : SetOrder U) : ∀ (missing : ℕ) {group : List τ},
    group.Nodup → group.toFinset ⊆ U → group.length + missing ≤ U.card →
      ∃ ts, extendGroup o.enum score missing group (U \ group.toFinset) = some (group ++ ts) ∧
        ts.length = missing ∧ BestPath F U group.toFinset ts
  | 0, group, _, _, _ => ⟨[], by rw [List.append_nil]; rfl, rfl, trivial⟩
  | missing + 1, group, hn, hin, hcard => by
    have hne : U \ group.toFinset ≠ ∅ := by
      rw [Ne, Finset.sdiff_eq_empty_iff_subset]
      intro hsub
      have hle := Finset.card_le_card hsub
      rw [List.toFinset_card_of_nodup hn] at hle
      omega
    have hrem : U \ group.toFinset ⊆ U := Finset.sdiff_subset
    obtain ⟨t, harg, -, hnext⟩ :=
      h.argmax_next hn hin (o.mem _ hrem) (o.enum_ne_nil hrem hne)
    obtain ⟨ts, hext, hlen, hpath⟩ := extendGroup_eq h o missing (nodup_concat hn hnext.notMem)
      (by rw [toFinset_concat]; exact Finset.insert_subset hnext.mem hin)
      (by rw [List.length_append, List.length_singleton]; omega)
    refine ⟨t :: ts, ?_, by rw [List.length_cons, hlen], hnext, ?_⟩
    · rw [extendGroup, if_neg hne, harg, Option.bind_some, sdiff_concat, hext, List.append_assoc]
      rfl
    · rw [toFinset_concat] at hpath
      exact hpath

/-- With `k + 1` threads to find the loop first does what it does with `k`. -/
theorem extendGroup_append {enum : Finset τ → List τ} : ∀ {missing : ℕ} {group group' : List τ}
    {remaining : Finset τ}, extendGroup enum score missing group remaining = some group' →
      group <+: group'
  | 0, group, group', _, heq => by
    obtain rfl := Option.some.inj heq
    exact List.prefix_rfl
  | missing + 1, group, group', remaining, heq => by
    rw [extendGroup] at heq
    split_ifs at heq with hrem
    · obtain rfl := Option.some.inj heq
      exact List.prefix_rfl
    · obtain ⟨t, -, hext⟩ := Option.bind_eq_some_iff.mp heq
      exact (List.prefix_append _ _).trans (extendGroup_append hext)

theorem extendGroup_prefix {enum : Finset τ → List τ} : ∀ {missing : ℕ} {group group' : List τ}
    {remaining : Finset τ}, extendGroup enum score (missing + 1) group remaining = some group' →
      ∃ group'', extendGroup enum score missing group remaining = some group'' ∧
        group'' <+: group'
  | 0, group, group', _, heq => ⟨group, rfl, extendGroup_append heq⟩
  | missing + 1, group, group', remaining, heq => by
    rw [extendGroup] at heq
    rw [extendGroup]
    split_ifs at heq ⊢ with hrem
    · exact ⟨group, rfl, by rw [Option.some.inj heq]⟩
    · obtain ⟨t, harg, hext⟩ := Option.bind_eq_some_iff.mp heq
      rw [harg, Option.bind_some]
      exact extendGroup_prefix hext

/-- **The first phase finds a best pair.** -/
theorem bestPair_eq (h : Scored score F U) {candidates : List τ} (hn : candidates.Nodup)
    (hU : candidates.toFinset = U) (hlen : 2 ≤ candidates.length) :
    ∃ a b, bestPair score candidates = some (a, b) ∧ a ∈ U ∧ b ∈ U ∧ a ≠ b ∧
      ∀ a' ∈ U, ∀ b' ∈ U, a' ≠ b' → F {a', b'} ≤ F {a, b} := by
  have hpair : ∀ p ∈ pairs candidates, p.1 ∈ U ∧ p.2 ∈ U ∧ p.1 ≠ p.2 := by
    intro p hp
    obtain ⟨h1, h2⟩ := mem_of_mem_pairs hp
    rw [← hU, List.mem_toFinset, List.mem_toFinset]
    exact ⟨h1, h2, pairs_pairwise hn p hp⟩
  have hscore : ∀ p ∈ pairs candidates, score [p.1, p.2] = some (F {p.1, p.2}) ∧
      -1 < F {p.1, p.2} := fun p hp => h.pair (hpair p hp).1 (hpair p hp).2.1 (hpair p hp).2.2
  have hnil : pairs candidates ≠ [] := by
    obtain ⟨a, b, l, rfl⟩ : ∃ a b l, candidates = a :: b :: l := by
      match candidates, hlen with
      | a :: b :: l, _ => exact ⟨a, b, l, rfl⟩
    exact List.cons_ne_nil _ _
  obtain ⟨p, harg, hfirst⟩ : ∃ p : τ × τ,
      argmax (fun p : τ × τ => score [p.1, p.2]) (-1) (pairs candidates) = some p ∧
        FirstBest (fun p : τ × τ => F {p.1, p.2}) (pairs candidates) p :=
    argmax_eq_some (fun p hp => (hscore p hp).1) (fun p hp => (hscore p hp).2) hnil
  obtain ⟨h1, h2, hne⟩ := hpair p hfirst.mem
  refine ⟨p.1, p.2, harg, h1, h2, hne, fun a' ha' b' hb' hne' => ?_⟩
  rw [← hU, List.mem_toFinset] at ha' hb'
  rcases mem_pairs_or ha' hb' hne' with hmem | hmem
  · exact hfirst.le hmem
  · rw [Finset.pair_comm a' b']
    exact hfirst.le hmem

/-- The score of `group'` is no higher than that of `group`. -/
def ScoreLe (score : List τ → Option ℚ) (group' group : List τ) : Prop :=
  ∃ s' s, score group' = some s' ∧ score group = some s ∧ s' ≤ s

theorem Scored.scoreLe (h : Scored score F U) {group' group : List τ} (hn' : group'.Nodup)
    (hne' : group' ≠ []) (hin' : group'.toFinset ⊆ U) (hn : group.Nodup) (hne : group ≠ [])
    (hin : group.toFinset ⊆ U) (hle : F group'.toFinset ≤ F group.toFinset) :
    ScoreLe score group' group :=
  ⟨_, _, h.eq _ hn' hne' hin', h.eq _ hn hne hin, hle⟩

theorem Scored.scoreLe_next (h : Scored score F U) {group : List τ} (hn : group.Nodup)
    (hin : group.toFinset ⊆ U) {t t' : τ} (hnext : BestNext F U group.toFinset t') (ht : t ∈ U)
    (hnot : t ∉ group) : ScoreLe score (group ++ [t]) (group ++ [t']) := by
  have hnot' : t ∉ group.toFinset := mt List.mem_toFinset.mp hnot
  refine ⟨_, _, (h.concat hn hin ?_).1, (h.concat hn hin ?_).1, hnext.best t ht hnot'⟩
  · exact Finset.mem_sdiff.mpr ⟨ht, hnot'⟩
  · exact Finset.mem_sdiff.mpr ⟨hnext.mem, hnext.notMem⟩

end Scored

/-! ### A best pair and a greedy path from it -/

/-- The threads `ts` are found from the pair `a`, `b`. -/
structure PairPath {τ : Type*} [DecidableEq τ] (F : Finset τ → ℚ) (candidates : List τ) (a b : τ)
    (ts : List τ) : Prop where
  left : a ∈ candidates
  right : b ∈ candidates
  ne : a ≠ b
  best : ∀ a' ∈ candidates, ∀ b' ∈ candidates, a' ≠ b' → F {a', b'} ≤ F {a, b}
  path : BestPath F candidates.toFinset {a, b} ts

namespace PairPath

variable {τ : Type*} [DecidableEq τ] {F : Finset τ → ℚ} {candidates : List τ} {a b : τ}
  {ts : List τ} (h : PairPath F candidates a b ts)
include h

theorem nodup : (a :: b :: ts).Nodup := by
  have hmem := h.path.mem
  rw [List.nodup_cons, List.nodup_cons, List.mem_cons]
  refine ⟨?_, fun hb => (hmem b hb).2 (by simp), h.path.nodup⟩
  rintro (heq | ha)
  · exact h.ne heq
  · exact (hmem a ha).2 (by simp)

theorem subset : a :: b :: ts ⊆ candidates := by
  intro t ht
  rcases List.mem_cons.mp ht with rfl | ht
  · exact h.left
  · rcases List.mem_cons.mp ht with rfl | ht
    · exact h.right
    · exact List.mem_toFinset.mp (h.path.mem t ht).1

omit h in
theorem toFinset_eq (a b : τ) (ts : List τ) :
    (a :: b :: ts).toFinset = {a, b} ∪ ts.toFinset := by
  rw [List.toFinset_cons, List.toFinset_cons, Finset.insert_union]
  rfl

/-- Every thread behind the pair is a best one next to those in front of it. -/
theorem next {i : ℕ} (hi : 2 ≤ i) (hlt : i < (a :: b :: ts).length) :
    ∃ t, (a :: b :: ts).take (i + 1) = (a :: b :: ts).take i ++ [t] ∧
      BestNext F candidates.toFinset ((a :: b :: ts).take i).toFinset t := by
  obtain ⟨j, rfl⟩ := Nat.exists_eq_add_of_le' hi
  have hj : j < ts.length := by
    rw [List.length_cons, List.length_cons] at hlt
    omega
  have hsplit : ts = ts.take j ++ ts[j] :: ts.drop (j + 1) := by
    rw [List.cons_getElem_drop_succ, List.take_append_drop]
  refine ⟨ts[j], List.take_succ_eq_append_getElem hlt, ?_⟩
  have hgroup : ((a :: b :: ts).take (j + 2)).toFinset = {a, b} ∪ (ts.take j).toFinset :=
    toFinset_eq a b (ts.take j)
  rw [hgroup]
  exact h.path.next hsplit

variable {score : List τ → Option ℚ} (hscored : Scored score F candidates.toFinset)
include hscored

/-- No pair scores higher than the two threads in front. -/
theorem scoreLe_pair {a' b' : τ} (ha' : a' ∈ candidates) (hb' : b' ∈ candidates)
    (hne' : a' ≠ b') : ScoreLe score [a', b'] [a, b] := by
  have hother := hscored.pair (List.mem_toFinset.mpr ha') (List.mem_toFinset.mpr hb') hne'
  have hfirst := hscored.pair (List.mem_toFinset.mpr h.left) (List.mem_toFinset.mpr h.right) h.ne
  exact ⟨_, _, hother.1, hfirst.1, h.best a' ha' b' hb' hne'⟩

/-- No thread scores higher next to those in front than the one that follows them. -/
theorem scoreLe_next {i : ℕ} (hi : 2 ≤ i) (hlt : i < (a :: b :: ts).length) {t : τ}
    (ht : t ∈ candidates) (hnot : t ∉ (a :: b :: ts).take i) :
    ScoreLe score ((a :: b :: ts).take i ++ [t]) ((a :: b :: ts).take (i + 1)) := by
  obtain ⟨t', htake, hnext⟩ := h.next hi hlt
  have hsub : (a :: b :: ts).take i ⊆ candidates := fun x hx =>
    h.subset (List.mem_of_mem_take hx)
  rw [htake]
  exact hscored.scoreLe_next (h.nodup.sublist (List.take_sublist _ _)) (toFinset_subset hsub)
    hnext (List.mem_toFinset.mpr ht) hnot

end PairPath

/-! ### The chosen group -/

/-- A group of `k` threads chosen greedily: a best pair, then each time a best thread, with a score
that never rises and stays above 0. -/
structure Selected {τ : Type*} (score : List τ → Option ℚ) (candidates : List τ) (k : ℕ)
    (group : List τ) (cGroup : Option ℚ) : Prop where
  length : group.length = k
  nodup : group.Nodup
  subset : group ⊆ candidates
  scored : cGroup = score group
  pair : ∀ a ∈ candidates, ∀ b ∈ candidates, a ≠ b → ScoreLe score [a, b] (group.take 2)
  next : ∀ i, 2 ≤ i → i < k → ∀ t ∈ candidates, t ∉ group.take i →
    ScoreLe score (group.take i ++ [t]) (group.take (i + 1))
  falling : ∀ i j, 2 ≤ i → i ≤ j → j ≤ k → ScoreLe score (group.take j) (group.take i)
  unit : ∃ s, cGroup = some s ∧ 0 < s ∧ s ≤ 1

section Window
variable {τ κ : Type*} [DecidableEq τ] {dfWindow : List (NormRow τ κ)} {resourceCols : List κ}
  {alpha beta : ℚ} (halpha : 0 ≤ alpha) (hbeta : 0 ≤ beta)
include halpha hbeta

variable (dfWindow resourceCols) in
theorem scored_window :
    Scored (fun group => computeGroupComplementarityNorm dfWindow group resourceCols alpha beta)
      (groupScore dfWindow resourceCols alpha beta) (dfWindow.map NormRow.thread).toFinset where
  eq group hn hne hin := compute_eq hn hne fun t ht =>
    List.mem_toFinset.mp (hin (List.mem_toFinset.mpr ht))
  gt S hin hS := (by norm_num : (-1 : ℚ) < 0).trans (groupScore_pos halpha hbeta hS hin)

/-- The score of a group is no higher than that of a part of it. -/
theorem scoreLe_of_subset {group group' : List τ} (hne : group ≠ []) (hn : group.Nodup)
    (hn' : group'.Nodup) (hsub : group ⊆ group') (hin : group' ⊆ dfWindow.map NormRow.thread) :
    ScoreLe (fun group => computeGroupComplementarityNorm dfWindow group resourceCols alpha beta)
      group' group := by
  have hne' : group' ≠ [] := by
    rintro rfl
    exact hne (List.subset_nil.mp hsub)
  have hU : group'.toFinset ⊆ (dfWindow.map NormRow.thread).toFinset := toFinset_subset hin
  have hsub' : group.toFinset ⊆ group'.toFinset := toFinset_subset hsub
  refine (scored_window _ _ halpha hbeta).scoreLe hn' hne' hU hn hne
    (Finset.Subset.trans hsub' hU) ?_
  exact groupScore_anti halpha hbeta ((List.toFinset_nonempty_iff group).mpr hne) hsub' hU

/-- The score only falls along a group that grows. -/
theorem scoreLe_take {group : List τ} (hn : group.Nodup)
    (hin : group ⊆ dfWindow.map NormRow.thread) {i j : ℕ} (hi : 0 < i) (hij : i ≤ j)
    (hne : group ≠ []) :
    ScoreLe (fun group => computeGroupComplementarityNorm dfWindow group resourceCols alpha beta)
      (group.take j) (group.take i) := by
  have htake : group.take i ≠ [] := by
    rw [Ne, List.take_eq_nil_iff]
    rintro (hzero | hnil)
    · exact hi.ne' hzero
    · exact hne hnil
  exact scoreLe_of_subset halpha hbeta htake (hn.sublist (List.take_sublist _ _))
    (hn.sublist (List.take_sublist _ _)) (List.take_prefix_take_left hij).subset
    fun x hx => hin (List.mem_of_mem_take hx)

variable (hthreads : (dfWindow.map NormRow.thread).Nodup)
  (o : SetOrder (dfWindow.map NormRow.thread).toFinset)
include hthreads

variable (resourceCols) in
/-- **What the function computes**: a best pair and a greedy path from it. -/
theorem greedySelectNorm_eq {k : ℕ} (hk : 2 ≤ k) (hkn : k ≤ dfWindow.length) :
    ∃ a b ts, bestPair (fun group => computeGroupComplementarityNorm dfWindow group resourceCols
        alpha beta) (dfWindow.map NormRow.thread) = some (a, b) ∧
      greedySelectNorm o.enum dfWindow (dfWindow.map NormRow.thread) k resourceCols alpha beta =
        some (a :: b :: ts,
          some (groupScore dfWindow resourceCols alpha beta ({a, b} ∪ ts.toFinset))) ∧
      ts.length = k - 2 ∧
      PairPath (groupScore dfWindow resourceCols alpha beta) (dfWindow.map NormRow.thread) a b
        ts := by
  have hscored := scored_window dfWindow resourceCols halpha hbeta
  have hlen : (dfWindow.map NormRow.thread).length = dfWindow.length := List.length_map _
  obtain ⟨a, b, hbest, ha, hb, hne, hpair⟩ :=
    bestPair_eq hscored hthreads rfl (by rw [hlen]; omega)
  have hset : [a, b].toFinset = ({a, b} : Finset τ) := by simp
  have hin : [a, b].toFinset ⊆ (dfWindow.map NormRow.thread).toFinset := by
    rw [hset]
    exact Finset.insert_subset ha (Finset.singleton_subset_iff.mpr hb)
  obtain ⟨ts, hext, hts, hpath⟩ := extendGroup_eq hscored o (k - 2)
    (by simpa using hne) hin (by
      rw [List.toFinset_card_of_nodup hthreads, hlen, List.length_cons, List.length_singleton]
      omega)
  rw [hset] at hext hpath
  have hpp : PairPath (groupScore dfWindow resourceCols alpha beta)
      (dfWindow.map NormRow.thread) a b ts :=
    ⟨List.mem_toFinset.mp ha, List.mem_toFinset.mp hb, hne, fun a' ha' b' hb' =>
      hpair a' (List.mem_toFinset.mpr ha') b' (List.mem_toFinset.mpr hb'), hpath⟩
  have hsub : (a :: b :: ts).toFinset ⊆ (dfWindow.map NormRow.thread).toFinset :=
    toFinset_subset hpp.subset
  refine ⟨a, b, ts, hbest, ?_, hts, hpp⟩
  unfold greedySelectNorm
  simp only
  rw [hbest, Option.bind_some, hext, Option.map_some, List.cons_append, List.cons_append,
    List.nil_append, ← PairPath.toFinset_eq, hscored.eq _ hpp.nodup (List.cons_ne_nil _ _) hsub]

variable (resourceCols) in
/-- **Every group is chosen greedily.** -/
theorem exists_selected {k : ℕ} (hk : 2 ≤ k) (hkn : k ≤ dfWindow.length) :
    ∃ group cGroup, greedySelectNorm o.enum dfWindow (dfWindow.map NormRow.thread) k resourceCols
        alpha beta = some (group, cGroup) ∧
      Selected (fun group => computeGroupComplementarityNorm dfWindow group resourceCols alpha beta)
        (dfWindow.map NormRow.thread) k group cGroup := by
  obtain ⟨a, b, ts, -, heq, hts, hpp⟩ :=
    greedySelectNorm_eq resourceCols halpha hbeta hthreads o hk hkn
  have hscored := scored_window dfWindow resourceCols halpha hbeta
  have hlength : (a :: b :: ts).length = k := by
    rw [List.length_cons, List.length_cons, hts]
    omega
  have hnonempty : ({a, b} ∪ ts.toFinset : Finset τ).Nonempty :=
    ⟨a, Finset.mem_union_left _ (Finset.mem_insert_self a _)⟩
  have hin : ({a, b} ∪ ts.toFinset : Finset τ) ⊆ (dfWindow.map NormRow.thread).toFinset := by
    rw [← PairPath.toFinset_eq]
    exact toFinset_subset hpp.subset
  have heqScore := hscored.eq _ hpp.nodup (List.cons_ne_nil _ _) (toFinset_subset hpp.subset)
  rw [PairPath.toFinset_eq] at heqScore
  refine ⟨_, _, heq, hlength, hpp.nodup, hpp.subset, heqScore.symm, ?_, ?_, ?_, _, rfl,
    groupScore_pos halpha hbeta hnonempty hin, groupScore_le_one halpha hbeta hnonempty hin⟩
  · exact fun a' ha' b' hb' hne' => hpp.scoreLe_pair hscored ha' hb' hne'
  · exact fun i hi hik t ht hnot => hpp.scoreLe_next hscored hi (hlength ▸ hik) ht hnot
  · exact fun i j hi hij _ => scoreLe_take halpha hbeta hpp.nodup hpp.subset
      (Nat.lt_of_lt_of_le Nat.zero_lt_two hi) hij (List.cons_ne_nil _ _)

/-- With one thread more the group is extended, and does not score higher. -/
theorem prefix_of_succ {k : ℕ} (hk : 2 ≤ k) (hkn : k + 1 ≤ dfWindow.length)
    {group group' : List τ} {cGroup cGroup' : Option ℚ}
    (h : greedySelectNorm o.enum dfWindow (dfWindow.map NormRow.thread) k resourceCols alpha beta =
      some (group, cGroup))
    (h' : greedySelectNorm o.enum dfWindow (dfWindow.map NormRow.thread) (k + 1) resourceCols alpha
      beta = some (group', cGroup')) :
    group = group'.take k ∧ ∃ s' s, cGroup' = some s' ∧ cGroup = some s ∧ s' ≤ s := by
  obtain ⟨g, c, hg, hsel⟩ := exists_selected resourceCols halpha hbeta hthreads o
    hk (by omega)
  obtain ⟨g', c', hg', hsel'⟩ := exists_selected resourceCols halpha hbeta
    hthreads o (k := k + 1) (by omega) hkn
  obtain ⟨rfl, rfl⟩ := Prod.mk.inj (Option.some.inj (hg.symm.trans h))
  obtain ⟨rfl, rfl⟩ := Prod.mk.inj (Option.some.inj (hg'.symm.trans h'))
  have hprefix : g <+: g' := by
    unfold greedySelectNorm at h h'
    simp only at h h'
    obtain ⟨pair, hpair, hext⟩ := Option.bind_eq_some_iff.mp h
    obtain ⟨pair', hpair', hext'⟩ := Option.bind_eq_some_iff.mp h'
    obtain rfl := Option.some.inj (hpair.symm.trans hpair')
    obtain ⟨g₁, hg₁, heq⟩ := Option.map_eq_some_iff.mp hext
    obtain ⟨g₂, hg₂, heq'⟩ := Option.map_eq_some_iff.mp hext'
    rw [Prod.mk.injEq] at heq heq'
    rw [show k + 1 - 2 = k - 2 + 1 by omega] at hg₂
    obtain ⟨g₃, hg₃, hpre⟩ := extendGroup_prefix hg₂
    rw [← heq.1, ← heq'.1, Option.some.inj (hg₁.symm.trans hg₃)]
    exact hpre
  have htake : g = g'.take k := by
    rw [← hsel.length]
    exact List.prefix_iff_eq_take.mp hprefix
  have hfall := hsel'.falling k (k + 1) hk (Nat.le_succ k) le_rfl
  rw [← htake, List.take_of_length_le hsel'.length.le] at hfall
  rw [hsel.scored, hsel'.scored]
  exact ⟨htake, hfall⟩

/-- **Greedy selection is well formed, and its score only falls with `k`.** -/
theorem greedySelectNorm_selected :
    (∀ group group', group ≠ [] → group.Nodup → group'.Nodup → group ⊆ group' →
      group' ⊆ dfWindow.map NormRow.thread → ScoreLe (fun group =>
        computeGroupComplementarityNorm dfWindow group resourceCols alpha beta) group' group) ∧
    (∀ k, 2 ≤ k → k ≤ dfWindow.length → ∃ group cGroup, greedySelectNorm o.enum dfWindow
        (dfWindow.map NormRow.thread) k resourceCols alpha beta = some (group, cGroup) ∧
      Selected (fun group => computeGroupComplementarityNorm dfWindow group resourceCols alpha beta)
        (dfWindow.map NormRow.thread) k group cGroup) ∧
    ∀ k, 2 ≤ k → k + 1 ≤ dfWindow.length → ∀ group cGroup group' cGroup',
      greedySelectNorm o.enum dfWindow (dfWindow.map NormRow.thread) k resourceCols alpha beta =
          some (group, cGroup) →
        greedySelectNorm o.enum dfWindow (dfWindow.map NormRow.thread) (k + 1) resourceCols alpha
            beta = some (group', cGroup') →
          group = group'.take k ∧ ∃ s' s, cGroup' = some s' ∧ cGroup = some s ∧ s' ≤ s :=
  ⟨fun _ _ hne hn hn' hsub hin => scoreLe_of_subset halpha hbeta hne hn hn' hsub hin,
    fun _ hk hkn => exists_selected resourceCols halpha hbeta hthreads o hk hkn,
    fun _ hk hkn _ _ _ _ h h' => prefix_of_succ halpha hbeta hthreads o hk hkn h h'⟩

end Window

/-- A thread that differs from others in its cycles only. -/
def threadAt (thread : String) (cycles : ℚ) : NormRow Text Event where
  thread := thread.toList
  ipcMean := 0
  value
    | .cpuCycles => cycles
    | _ => 0

/-- Two threads alike, one as far above them as the next is below, and one a little higher. -/
def fiveThreads : List (NormRow Text Event) :=
  [threadAt "kswapd0" (1 / 2), threadAt "kworker/0:1" (1 / 2), threadAt "mysqld" (3 / 4),
    threadAt "nginx" (1 / 4), threadAt "sshd" (7 / 8)]

theorem nodup_fiveThreads : (fiveThreads.map NormRow.thread).Nodup := by decide +kernel

/-- The set of its threads in the order of a list. -/
def fiveOrder (l : List Text) (hl : l.Nodup)
    (hU : l.toFinset = (fiveThreads.map NormRow.thread).toFinset) :
    SetOrder (fiveThreads.map NormRow.thread).toFinset := SetOrder.ofList l hl hU

theorem greedySelectNorm_selected_fiveThreads :
    ∃ group cGroup, greedySelectNorm
        (fiveOrder (fiveThreads.map NormRow.thread) nodup_fiveThreads rfl).enum fiveThreads
        (fiveThreads.map NormRow.thread) 4 resourceColsNorm 1 1 = some (group, cGroup) ∧
      Selected (fun group =>
          computeGroupComplementarityNorm fiveThreads group resourceColsNorm 1 1)
        (fiveThreads.map NormRow.thread) 4 group cGroup :=
  (greedySelectNorm_selected one_pos.le one_pos.le nodup_fiveThreads
    (fiveOrder (fiveThreads.map NormRow.thread) nodup_fiveThreads rfl)).2.1 4 (by decide)
      (by decide)

end Magm.Groups.Greedy
