import Mathlib.Algebra.Order.BigOperators.Group.List
import Mathlib.Algebra.Order.Ring.Defs
import Mathlib.Data.List.Nodup
import Mathlib.Data.List.Flatten
import Mathlib.Tactic.Linarith

/-! # Greedy matching with a budget

The edges of a graph are scanned in the order of a list. An edge is taken when neither of its ends
is taken yet, and the scan stops as soon as `n` edges are taken. The graph is given by the two end
functions `l r : ε → κ`, so several edges may have the same ends.

* `nodup_ends_greedy`: the edges taken are pairwise disjoint.
* `greedy_blocked`: in a list of descending weights, an edge is left out only for an edge that
  weighs at least as much, or because the budget is spent on such edges.
* `sum_le_two_mul_greedy`: no matching within the budget weighs more than twice as much.
* `greedy_eq_take`: a larger budget keeps the edges taken, and adds edges after them.
* `two_mul_length_greedy_le`: edges between the members of a list number at most half of them. -/

namespace Magm.Lib.Greedy

variable {ε κ : Type*} (l r : ε → κ)

/-- The ends of a list of edges, in order. -/
def ends (es : List ε) : List κ := es.flatMap fun e => [l e, r e]

theorem ends_cons (e : ε) (es : List ε) : ends l r (e :: es) = l e :: r e :: ends l r es := rfl

theorem mem_ends {k : κ} {es : List ε} : k ∈ ends l r es ↔ ∃ e ∈ es, k = l e ∨ k = r e := by
  simp [ends]

section Covered
variable {R : Type*} [Zero R] [Preorder R]

/-- An edge of weight at most `0`, or one that joins the ends of an edge of `es` that weighs at
least as much. -/
def Covered (w : ε → R) (es : List ε) (m : ε) : Prop :=
  w m ≤ 0 ∨ ∃ e ∈ es, w m ≤ w e ∧ l e ∈ ends l r [m] ∧ r e ∈ ends l r [m]

namespace Covered

variable {l r} {w : ε → R} {e₀ m : ε} {es : List ε}

theorem le {b : R} (h : Covered l r w es m) (hb : 0 ≤ b) (hw : ∀ e ∈ es, w e ≤ b) : w m ≤ b := by
  rcases h with h | ⟨e, he, hwe, -⟩
  · exact h.trans hb
  · exact hwe.trans (hw e he)

/-- An edge that does not join the ends of `e₀` is covered by the other edges. -/
theorem of_cons (h : Covered l r w (e₀ :: es) m)
    (hne : ¬ (l e₀ ∈ ends l r [m] ∧ r e₀ ∈ ends l r [m])) : Covered l r w es m := by
  rcases h with h | ⟨e, he, hwe, hends⟩
  · exact Or.inl h
  · rcases List.mem_cons.mp he with rfl | he
    · exact absurd hends hne
    · exact Or.inr ⟨e, he, hwe, hends⟩

end Covered

end Covered

/-! ### The scan -/

variable [DecidableEq κ]

/-- The edges taken: at most `n`, with no end in `used` and no end in common. -/
def greedy : ℕ → List κ → List ε → List ε
  | _, _, [] => []
  | 0, _, _ :: _ => []
  | n + 1, used, e :: es =>
    if l e ∈ used ∨ r e ∈ used then greedy (n + 1) used es
    else e :: greedy n (l e :: r e :: used) es

@[simp] theorem greedy_zero (used : List κ) (es : List ε) : greedy l r 0 used es = [] := by
  cases es <;> rfl

theorem greedy_sublist : ∀ (n : ℕ) (used : List κ) (es : List ε),
    (greedy l r n used es).Sublist es
  | n, used, [] => by cases n <;> exact List.Sublist.refl _
  | 0, used, e :: es => List.nil_sublist _
  | n + 1, used, e :: es => by
    unfold greedy
    split_ifs
    · exact (greedy_sublist (n + 1) used es).cons e
    · exact (greedy_sublist n _ es).cons_cons e

theorem mem_of_mem_greedy {n : ℕ} {used : List κ} {es : List ε} {e : ε}
    (h : e ∈ greedy l r n used es) : e ∈ es :=
  (greedy_sublist l r n used es).subset h

theorem length_greedy_le : ∀ (n : ℕ) (used : List κ) (es : List ε),
    (greedy l r n used es).length ≤ n
  | n, used, [] => by cases n <;> simp [greedy]
  | 0, used, e :: es => by simp
  | n + 1, used, e :: es => by
    unfold greedy
    split_ifs
    · exact length_greedy_le (n + 1) used es
    · have := length_greedy_le n (l e :: r e :: used) es
      simp only [List.length_cons]; omega

/-- No edge is taken that has an end in `used`. -/
theorem greedy_fresh : ∀ (n : ℕ) (used : List κ) (es : List ε),
    ∀ k ∈ ends l r (greedy l r n used es), k ∉ used
  | n, used, [] => by cases n <;> simp [greedy, ends]
  | 0, used, e :: es => by simp [ends]
  | n + 1, used, e :: es => by
    unfold greedy
    split_ifs with h
    · exact greedy_fresh (n + 1) used es
    · rw [not_or] at h
      intro k hk
      simp only [ends, List.flatMap_cons, List.mem_append, List.mem_cons, List.not_mem_nil,
        or_false] at hk
      rcases hk with (rfl | rfl) | hk
      · exact h.1
      · exact h.2
      · intro hu
        exact greedy_fresh n (l e :: r e :: used) es k hk (by simp [hu])

/-- **A larger budget keeps the edges taken**, and adds edges after them. -/
theorem greedy_eq_take : ∀ {n m : ℕ}, n ≤ m → ∀ (used : List κ) (es : List ε),
    greedy l r n used es = (greedy l r m used es).take n
  | n, m, _, used, [] => by cases n <;> cases m <;> simp [greedy]
  | 0, m, _, used, e :: es => by simp
  | n + 1, m + 1, h, used, e :: es => by
    unfold greedy
    split_ifs
    · exact greedy_eq_take h used es
    · rw [List.take_succ_cons, greedy_eq_take (Nat.le_of_succ_le_succ h) _ es]

/-- No end of an edge taken is an end of an earlier one. -/
theorem pairwise_greedy : ∀ (n : ℕ) (used : List κ) (es : List ε),
    (greedy l r n used es).Pairwise fun e f => ∀ k ∈ ends l r [f], k ∉ ends l r [e]
  | n, used, [] => by cases n <;> simp [greedy]
  | 0, used, e :: es => by simp
  | n + 1, used, e :: es => by
    unfold greedy
    split_ifs
    · exact pairwise_greedy (n + 1) used es
    · refine List.pairwise_cons.mpr ⟨fun f hf k hk he => ?_, pairwise_greedy n _ es⟩
      have hk' : k ∈ ends l r (greedy l r n (l e :: r e :: used) es) :=
        (List.Sublist.flatMap (List.singleton_sublist.mpr hf) _).subset hk
      have hu : k = l e ∨ k = r e := by simpa [ends] using he
      exact greedy_fresh l r n _ es k hk' (by rcases hu with rfl | rfl <;> simp)

/-- **The edges taken are pairwise disjoint**: when no edge is a loop, no end occurs twice. -/
theorem nodup_ends_greedy (n : ℕ) (used : List κ) (es : List ε) (hne : ∀ e ∈ es, l e ≠ r e) :
    (ends l r (greedy l r n used es)).Nodup := by
  refine List.nodup_flatMap.mpr ⟨fun e he => ?_, (pairwise_greedy l r n used es).imp fun hd => ?_⟩
  · simpa using hne e (mem_of_mem_greedy l r he)
  · exact fun k he hf => hd k hf he

section Members
variable {α : Type*} (key : α → κ) (a b : ε → α)

/-- Edges between two members each, none of which share a key, number at most half of the
members. -/
theorem two_mul_length_le : ∀ (es : List ε) (xs : List α),
    (∀ e ∈ es, [a e, b e].Sublist xs) →
    es.Pairwise (fun e f => ∀ k ∈ ends (fun e => key (a e)) (fun e => key (b e)) [f],
      k ∉ ends (fun e => key (a e)) (fun e => key (b e)) [e]) → 2 * es.length ≤ xs.length
  | [], xs, _, _ => by simp
  | e :: es, xs, hsub, hd => by
    rw [List.pairwise_cons] at hd
    -- The members with a key of `e` are split off; there are at least its two ends.
    set p : α → Bool := fun x => key x ∈ ends (fun e => key (a e)) (fun e => key (b e)) [e] with hp
    have hrest : ∀ f ∈ es, [a f, b f].Sublist (xs.filter fun x => !p x) := by
      intro f hf
      have hkeep : [a f, b f].filter (fun x => !p x) = [a f, b f] := by
        have ha := hd.1 f hf (key (a f)) (by simp [ends])
        have hb := hd.1 f hf (key (b f)) (by simp [ends])
        simp [hp, ha, hb]
      rw [← hkeep]
      exact (hsub f (List.mem_cons_of_mem _ hf)).filter _
    have htwo : 2 ≤ (xs.filter p).length := by
      have hkeep : [a e, b e].filter p = [a e, b e] := by simp [hp, ends]
      have hle := ((hsub e List.mem_cons_self).filter p).length_le
      rwa [hkeep] at hle
    have ih := two_mul_length_le es _ hrest hd.2
    have hlen := List.length_eq_length_filter_add (l := xs) p
    rw [List.length_cons]
    omega

/-- **A greedy matching between the members of a list** is at most half as long. -/
theorem two_mul_length_greedy_le (n : ℕ) (used : List κ) {es : List ε} {xs : List α}
    (hsub : ∀ e ∈ es, [a e, b e].Sublist xs) :
    2 * (greedy (fun e => key (a e)) (fun e => key (b e)) n used es).length ≤ xs.length :=
  two_mul_length_le key a b _ xs (fun e he => hsub e (mem_of_mem_greedy _ _ he))
    (pairwise_greedy _ _ n used es)

end Members

/-! ### Weights -/

section Weights
variable {R : Type*}

/-- **Why an edge is left out** of a scan in descending weight: one of its ends was in `used`, or
belongs to an edge taken that weighs as much, or only such edges are taken and they are `n`. -/
theorem greedy_blocked [LinearOrder R] (w : ε → R) : ∀ (n : ℕ) (used : List κ) (es : List ε),
    es.Pairwise (fun e f => w f ≤ w e) → ∀ e ∈ es, e ∉ greedy l r n used es →
      (l e ∈ used ∨ r e ∈ used) ∨
      (∃ f ∈ greedy l r n used es, w e ≤ w f ∧ (l e ∈ ends l r [f] ∨ r e ∈ ends l r [f])) ∨
      ((greedy l r n used es).length = n ∧ ∀ f ∈ greedy l r n used es, w e ≤ w f)
  | _, _, [], _, e, he, _ => absurd he List.not_mem_nil
  | 0, used, e₀ :: es, _, e, _, _ => Or.inr (Or.inr (by simp))
  | n + 1, used, e₀ :: es, hs, e, he, hne => by
    rw [List.pairwise_cons] at hs
    unfold greedy at hne ⊢
    split_ifs at hne ⊢ with h
    · rcases List.mem_cons.mp he with rfl | he
      · exact Or.inl h
      · exact greedy_blocked w (n + 1) used es hs.2 e he hne
    · rw [List.mem_cons, not_or] at hne
      have he' : e ∈ es := (List.mem_cons.mp he).resolve_left hne.1
      have hw : w e ≤ w e₀ := hs.1 e he'
      rcases greedy_blocked w n (l e₀ :: r e₀ :: used) es hs.2 e he' hne.2 with hu | hf | hfull
      · simp only [List.mem_cons] at hu
        by_cases hused : l e ∈ used ∨ r e ∈ used
        · exact Or.inl hused
        · refine Or.inr (Or.inl ⟨e₀, List.mem_cons_self, hw, ?_⟩)
          simp only [mem_ends, List.mem_singleton, exists_eq_left]
          tauto
      · obtain ⟨f, hf, hwf, hend⟩ := hf
        exact Or.inr (Or.inl ⟨f, List.mem_cons_of_mem _ hf, hwf, hend⟩)
      · obtain ⟨hlen, hall⟩ := hfull
        refine Or.inr (Or.inr ⟨by rw [List.length_cons, hlen], fun f hf => ?_⟩)
        rcases List.mem_cons.mp hf with rfl | hf
        · exact hw
        · exact hall f hf

variable [CommRing R] [LinearOrder R] [IsStrictOrderedRing R]

/-- The edges without the end `k`. -/
def avoid (k : κ) (es : List ε) : List ε := es.filter fun e => l e ≠ k ∧ r e ≠ k

theorem mem_avoid {k : κ} {es : List ε} {e : ε} :
    e ∈ avoid l r k es ↔ e ∈ es ∧ l e ≠ k ∧ r e ≠ k := by
  simp [avoid]

theorem ends_avoid_sublist (k : κ) (es : List ε) :
    (ends l r (avoid l r k es)).Sublist (ends l r es) :=
  List.filter_sublist.flatMap _

theorem avoid_eq_self {k : κ} {es : List ε} (h : k ∉ ends l r es) : avoid l r k es = es :=
  List.filter_eq_self.mpr fun e he => by
    rw [mem_ends] at h
    push Not at h
    exact decide_eq_true ⟨(h e he).1.symm, (h e he).2.symm⟩

/-- In a matching at most one edge has the end `k`. -/
theorem sum_le_sum_avoid (w : ε → R) {b : R} (hb : 0 ≤ b) (k : κ) : ∀ {M : List ε},
    (∀ m ∈ M, w m ≤ b) → (ends l r M).Nodup →
      (M.map w).sum ≤ ((avoid l r k M).map w).sum + b
  | [], _, _ => by simpa [avoid] using hb
  | m :: M, hw, hn => by
    rw [ends_cons, List.nodup_cons, List.nodup_cons, List.mem_cons, not_or] at hn
    obtain ⟨⟨-, hl⟩, hr, hnM⟩ := hn
    by_cases hm : l m ≠ k ∧ r m ≠ k
    · have ih := sum_le_sum_avoid w hb k (fun m' h => hw m' (List.mem_cons_of_mem _ h)) hnM
      have hkeep : avoid l r k (m :: M) = m :: avoid l r k M :=
        List.filter_cons_of_pos (decide_eq_true hm)
      rw [hkeep, List.map_cons, List.map_cons, List.sum_cons, List.sum_cons]
      linarith
    · have hdrop : avoid l r k (m :: M) = avoid l r k M :=
        List.filter_cons_of_neg (by rw [decide_eq_true_eq]; exact hm)
      have hk : k ∉ ends l r M := by
        by_cases hlk : l m = k
        · rw [← hlk]; exact hl
        · have hrk : r m = k := by by_contra hrk; exact hm ⟨hlk, hrk⟩
          rw [← hrk]; exact hr
      have hwm := hw m List.mem_cons_self
      rw [hdrop, avoid_eq_self l r hk, List.map_cons, List.sum_cons]
      linarith

/-- **The exchange**: within a matching of at most `n + 1` edges of weight at most `b`, there is one
of at most `n` edges that avoids two given ends and weighs at most `2 * b` less. -/
theorem exists_exchange (w : ε → R) {b : R} (hb : 0 ≤ b) (k k' : κ) {n : ℕ} {M : List ε}
    (hw : ∀ m ∈ M, w m ≤ b) (hn : (ends l r M).Nodup) (hlen : M.length ≤ n + 1) :
    ∃ M', M'.Sublist M ∧ k ∉ ends l r M' ∧ k' ∉ ends l r M' ∧ M'.length ≤ n ∧
      (M.map w).sum ≤ (M'.map w).sum + 2 * b := by
  have hsub : (avoid l r k' (avoid l r k M)).Sublist M :=
    List.filter_sublist.trans List.filter_sublist
  have hfree : k ∉ ends l r (avoid l r k' (avoid l r k M)) ∧
      k' ∉ ends l r (avoid l r k' (avoid l r k M)) := by
    simp only [mem_ends, mem_avoid]
    constructor
    · rintro ⟨e, ⟨⟨-, hl, hr⟩, -⟩, h | h⟩
      exacts [hl h.symm, hr h.symm]
    · rintro ⟨e, ⟨-, hl, hr⟩, h | h⟩
      exacts [hl h.symm, hr h.symm]
  have h1 := sum_le_sum_avoid l r w hb k hw hn
  have h2 := sum_le_sum_avoid l r w hb k' (M := avoid l r k M)
    (fun m hm => hw m ((mem_avoid l r).mp hm).1) ((ends_avoid_sublist l r k M).nodup hn)
  by_cases hshort : (avoid l r k' (avoid l r k M)).length ≤ n
  · exact ⟨_, hsub, hfree.1, hfree.2, hshort, by linarith⟩
  · -- Neither end occurs, so one edge is dropped for the budget alone.
    have hself : avoid l r k' (avoid l r k M) = M := hsub.eq_of_length_le (by omega)
    rw [hself] at hfree hshort
    match M, hw, hlen, hfree with
    | [], _, _, hfree => exact ⟨[], List.Sublist.refl _, hfree.1, hfree.2, by simp, by simpa⟩
    | m :: M, hw, hlen, hfree =>
      rw [ends_cons] at hfree
      refine ⟨M, List.sublist_cons_self m M, fun h => hfree.1 (by simp [h]),
        fun h => hfree.2 (by simp [h]), by simpa using hlen, ?_⟩
      have hwm := hw m List.mem_cons_self
      rw [List.map_cons, List.sum_cons]
      linarith

/-- **The greedy matching is at least half optimal**: it weighs at least half as much as any
matching `M` of at most `n` edges that the scan covers and that is free of `used`. -/
theorem sum_le_two_mul_greedy (w : ε → R) : ∀ (n : ℕ) (used : List κ) (es : List ε),
    es.Pairwise (fun e f => w f ≤ w e) → (∀ e ∈ es, 0 ≤ w e) → ∀ M : List ε,
    (∀ m ∈ M, Covered l r w es m) → (ends l r M).Nodup → (∀ k ∈ ends l r M, k ∉ used) →
      M.length ≤ n → (M.map w).sum ≤ 2 * ((greedy l r n used es).map w).sum
  | n, used, [], _, _, M, hM, _, _, _ => by
    have hneg : ∀ m ∈ M, w m ≤ (fun _ => 0) m := fun m hm => (hM m hm).le le_rfl (by simp)
    have hsum := List.sum_le_sum hneg
    cases n <;> simpa [greedy] using hsum
  | 0, used, e₀ :: es, _, _, M, _, _, _, hlen => by
    rw [List.eq_nil_of_length_eq_zero (Nat.le_zero.mp hlen), greedy_zero]
    simp
  | n + 1, used, e₀ :: es, hs, h0, M, hM, hn, hu, hlen => by
    rw [List.pairwise_cons] at hs
    have h0' : ∀ e ∈ es, 0 ≤ w e := fun e he => h0 e (List.mem_cons_of_mem _ he)
    have hends : ∀ m ∈ M, ∀ k ∈ ends l r [m], k ∈ ends l r M := fun m hm k hk =>
      (List.Sublist.flatMap (List.singleton_sublist.mpr hm) _).subset hk
    unfold greedy
    split_ifs with h
    · refine sum_le_two_mul_greedy w (n + 1) used es hs.2 h0' M (fun m hm => ?_) hn hu hlen
      refine (hM m hm).of_cons fun hboth => ?_
      rcases h with h | h
      · exact hu _ (hends m hm _ hboth.1) h
      · exact hu _ (hends m hm _ hboth.2) h
    · have hb : 0 ≤ w e₀ := h0 e₀ List.mem_cons_self
      have hwM : ∀ m ∈ M, w m ≤ w e₀ := fun m hm =>
        (hM m hm).le hb (List.forall_mem_cons.mpr ⟨le_rfl, hs.1⟩)
      obtain ⟨M', hsub, hl, hr, hlen', hsum⟩ :=
        exists_exchange l r w hb (l e₀) (r e₀) hwM hn hlen
      have hsub' : (ends l r M').Sublist (ends l r M) := hsub.flatMap _
      have ih := sum_le_two_mul_greedy w n (l e₀ :: r e₀ :: used) es hs.2 h0' M'
        (fun m hm => (hM m (hsub.subset hm)).of_cons fun hboth => hl ?_) (hsub'.nodup hn)
        (fun k hk => ?_) hlen'
      · rw [List.map_cons, List.sum_cons, mul_add]
        linarith
      · exact (List.Sublist.flatMap (List.singleton_sublist.mpr hm) _).subset hboth.1
      · simp only [List.mem_cons, not_or]
        exact ⟨fun h => hl (h ▸ hk), fun h => hr (h ▸ hk), hu k (hsub'.subset hk)⟩

end Weights

end Magm.Lib.Greedy
