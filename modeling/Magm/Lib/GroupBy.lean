import Magm.Lib.Sorting
import Mathlib.Data.List.Dedup
import Mathlib.Data.List.Sort
import Mathlib.Algebra.BigOperators.Group.List.Basic

/-! # Grouping the rows of a table

`groupBy key l` is the list of groups of `l` in ascending key order, each with its rows in the order
of `l`. Rows without a key are left out, as are the rows with a missing key in a `groupby` of
pandas. Sums over groups with different keys are sums over the rows of these groups
(`sum_map_filter`). -/

namespace Magm.Lib.GroupBy

open Magm.Lib.Sorting

variable {α κ : Type*} [LinearOrder κ]

/-- The keys that occur, ascending. -/
def groupKeys (key : α → Option κ) (l : List α) : List κ :=
  (l.filterMap key).dedup.insertionSort (· ≤ ·)

/-- The rows with the key `k`. -/
def rowsOf (key : α → Option κ) (l : List α) (k : κ) : List α := l.filter fun a => key a = some k

def groupBy (key : α → Option κ) (l : List α) : List (κ × List α) :=
  (groupKeys key l).map fun k => (k, rowsOf key l k)

variable {key : α → Option κ} {l : List α}

theorem mem_groupKeys {k : κ} : k ∈ groupKeys key l ↔ ∃ a ∈ l, key a = some k := by
  simp [groupKeys]

theorem nodup_groupKeys (key : α → Option κ) (l : List α) : (groupKeys key l).Nodup :=
  (List.perm_insertionSort _ _).nodup_iff.mpr (List.nodup_dedup _)

@[simp] theorem mem_rowsOf {k : κ} {a : α} : a ∈ rowsOf key l k ↔ a ∈ l ∧ key a = some k := by
  simp [rowsOf]

theorem mem_groupBy {g : κ × List α} :
    g ∈ groupBy key l ↔ (∃ a ∈ l, key a = some g.1) ∧ g.2 = rowsOf key l g.1 := by
  simp only [groupBy, List.mem_map, mem_groupKeys]
  constructor
  · rintro ⟨k, hk, rfl⟩; exact ⟨hk, rfl⟩
  · rintro ⟨hk, hg⟩; exact ⟨g.1, hk, by rw [← hg]⟩

theorem map_fst_groupBy (key : α → Option κ) (l : List α) :
    (groupBy key l).map Prod.fst = groupKeys key l := by
  simp [groupBy, Function.comp_def]

/-- **Every key has one group.** -/
theorem nodup_fst_groupBy (key : α → Option κ) (l : List α) :
    ((groupBy key l).map Prod.fst).Nodup := by
  rw [map_fst_groupBy]; exact nodup_groupKeys key l

theorem ne_nil_of_mem_groupBy {g : κ × List α} (h : g ∈ groupBy key l) : g.2 ≠ [] := by
  obtain ⟨⟨a, ha, hk⟩, hg⟩ := mem_groupBy.mp h
  rw [hg]
  exact List.ne_nil_of_mem (mem_rowsOf.mpr ⟨ha, hk⟩)

/-- The groups are in the order of their keys, whatever the order of the rows. -/
theorem groupKeys_eq_of_perm {l' : List α} (hp : l.Perm l') :
    groupKeys key l = groupKeys key l' := by
  have hd : (l.filterMap key).dedup.Perm (l'.filterMap key).dedup := (hp.filterMap key).dedup
  exact List.Perm.eq_of_pairwise' (List.pairwise_insertionSort _ _)
    (List.pairwise_insertionSort _ _)
    ((List.perm_insertionSort _ _).trans (hd.trans (List.perm_insertionSort _ _).symm))

theorem ascending_groupKeys (key : α → Option κ) (l : List α) :
    (groupKeys key l).Pairwise (· < ·) :=
  ((List.pairwise_insertionSort (· ≤ ·) _).and (nodup_groupKeys key l)).imp
    fun h => lt_of_le_of_ne h.1 h.2

section Filter
variable {p : α → Bool} {q : κ → Bool} (hpq : ∀ a k, key a = some k → p a = q k)
include hpq

/-- The rows of a group that a filter keeps. -/
theorem rowsOf_filter {k : κ} (hk : q k = true) : rowsOf key (l.filter p) k = rowsOf key l k := by
  unfold rowsOf
  rw [List.filter_filter]
  refine List.filter_congr fun a _ => ?_
  by_cases ha : key a = some k
  · rw [hpq a k ha, hk, Bool.and_true]
  · rw [decide_eq_false ha, Bool.false_and]

/-- **A filter on the groups** is a filter on their rows. -/
theorem groupKeys_filter : (groupKeys key l).filter q = groupKeys key (l.filter p) := by
  refine eq_of_ascending id ((ascending_groupKeys key l).filter q)
    (ascending_groupKeys key _) fun k => ?_
  simp only [List.mem_filter, mem_groupKeys]
  constructor
  · rintro ⟨⟨a, ha, hk⟩, hq⟩
    exact ⟨a, ⟨ha, (hpq a k hk).trans hq⟩, hk⟩
  · rintro ⟨a, ⟨ha, hp⟩, hk⟩
    exact ⟨⟨a, ha, hk⟩, (hpq a k hk).symm.trans hp⟩

end Filter

/-- A filter on what groups produce, where each group is kept or left out as a whole. -/
theorem filter_flatMap {α β : Type*} {f : α → List β} {p : β → Bool} {q : α → Bool} :
    ∀ {l : List α}, (∀ a ∈ l, ∀ b ∈ f a, p b = q a) →
      (l.flatMap f).filter p = (l.filter q).flatMap f
  | [], _ => rfl
  | a :: l, h => by
    have ih := filter_flatMap fun a' ha' => h a' (List.mem_cons_of_mem _ ha')
    have ha := h a List.mem_cons_self
    rw [List.flatMap_cons, List.filter_append, ih]
    by_cases hq : q a = true
    · rw [List.filter_eq_self.mpr fun b hb => (ha b hb).trans hq, List.filter_cons_of_pos hq,
        List.flatMap_cons]
    · rw [List.filter_eq_nil_iff.mpr fun b hb => by rw [ha b hb]; exact hq,
        List.filter_cons_of_neg hq, List.nil_append]

/-! ### Groups in the order of their first rows -/

/-- The keys that occur, by their first rows. -/
def firstKeys (key : α → Option κ) (l : List α) : List κ := (l.filterMap key).eraseDups

/-- The groups without `sort`. -/
def groupByFirst (key : α → Option κ) (l : List α) : List (κ × List α) :=
  (firstKeys key l).map fun k => (k, rowsOf key l k)

theorem nodup_eraseDups : ∀ l : List κ, l.eraseDups.Nodup
  | [] => List.nodup_nil
  | a :: l => by
    rw [List.eraseDups_cons, List.nodup_cons, List.mem_eraseDups]
    exact ⟨by simp, nodup_eraseDups _⟩
termination_by l => l.length
decreasing_by exact Nat.lt_succ_of_le (List.length_filter_le _ _)

theorem sublist_eraseDups : ∀ l : List κ, l.eraseDups.Sublist l
  | [] => List.Sublist.refl []
  | a :: l => by
    rw [List.eraseDups_cons]
    exact ((sublist_eraseDups _).trans List.filter_sublist).cons_cons a
termination_by l => l.length
decreasing_by exact Nat.lt_succ_of_le (List.length_filter_le _ _)

theorem mem_firstKeys {k : κ} : k ∈ firstKeys key l ↔ ∃ a ∈ l, key a = some k := by
  simp [firstKeys]

theorem rowsOf_eq_nil {k : κ} (h : k ∉ firstKeys key l) : rowsOf key l k = [] := by
  rw [rowsOf, List.filter_eq_nil_iff]
  intro a ha hk
  exact h (mem_firstKeys.mpr ⟨a, ha, of_decide_eq_true hk⟩)

section Produced
variable {β : Type*} {f : κ × List α → List β} {key' : β → Option κ}
  (hf : ∀ g, ∀ b ∈ f g, key' b = some g.1)
include hf

theorem rowsOf_flatMap_keys (rows : κ → List α) (k : κ) : ∀ {ks : List κ}, ks.Nodup →
    rowsOf key' (ks.flatMap fun k => f (k, rows k)) k = if k ∈ ks then f (k, rows k) else []
  | [], _ => rfl
  | k' :: ks, hn => by
    rw [List.nodup_cons] at hn
    have hall : ∀ b ∈ f (k', rows k'), key' b = some k' := hf (k', rows k')
    have ih := rowsOf_flatMap_keys rows k hn.2
    rw [rowsOf] at ih
    rw [rowsOf, List.flatMap_cons, List.filter_append, ih]
    by_cases h : k' = k
    · subst h
      rw [List.filter_eq_self.mpr fun b hb => decide_eq_true (hall b hb), if_neg hn.1,
        if_pos List.mem_cons_self, List.append_nil]
    · have hnil : (f (k', rows k')).filter (fun b => key' b = some k) = [] :=
        List.filter_eq_nil_iff.mpr fun b hb => by
          rw [decide_eq_true_eq, hall b hb]
          exact fun he => h (Option.some.inj he)
      have hmem : k ∈ k' :: ks ↔ k ∈ ks := by simp [Ne.symm h]
      rw [hnil, List.nil_append, if_congr hmem rfl rfl]

/-- **What the groups produce for one key** is what the group of that key produces. -/
theorem rowsOf_flatMap_groupByFirst (hnil : ∀ k, f (k, []) = []) (l : List α) (k : κ) :
    rowsOf key' ((groupByFirst key l).flatMap f) k = f (k, rowsOf key l k) := by
  have hn : (firstKeys key l).Nodup := nodup_eraseDups _
  rw [groupByFirst, List.flatMap_map, rowsOf_flatMap_keys hf (rowsOf key l) k hn]
  by_cases hk : k ∈ firstKeys key l
  · exact if_pos hk
  · rw [rowsOf_eq_nil hk, hnil]
    exact if_neg hk

end Produced

/-! ### Sums over groups -/

/-- **A sum over some groups** is the sum over the rows whose key is one of theirs. -/
theorem sum_map_filter {α κ M : Type*} [DecidableEq κ] [AddCommMonoid M] (f : α → M)
    (key : α → Option κ) {ks : List κ} (hks : ks.Nodup) : ∀ l : List α,
      (ks.map fun k => ((l.filter fun a => key a = some k).map f).sum).sum =
        ((l.filter fun a => (key a).any (· ∈ ks)).map f).sum
  | [] => by simp
  | a :: l => by
    have ih := sum_map_filter f key hks l
    have hcons : ∀ k, (((a :: l).filter fun a => key a = some k).map f).sum =
        (if key a = some k then f a else 0) + ((l.filter fun a => key a = some k).map f).sum := by
      intro k
      by_cases hk : key a = some k
      · rw [List.filter_cons_of_pos (by simpa using hk), if_pos hk, List.map_cons, List.sum_cons]
      · rw [List.filter_cons_of_neg (by simpa using hk), if_neg hk, zero_add]
    simp only [hcons, List.sum_map_add, ih]
    rcases hka : key a with _ | k
    · rw [List.filter_cons_of_neg (by rw [hka]; simp)]
      simp
    · have hone : (ks.map fun k' => if some k = some k' then f a else 0).sum =
          if k ∈ ks then f a else 0 := by
        by_cases hk : k ∈ ks
        · rw [if_pos hk, List.sum_map_eq_nsmul_single k, List.count_eq_one_of_mem hks hk, one_nsmul,
            if_pos rfl]
          intro k' hne _
          rw [if_neg fun h => hne (Option.some.inj h).symm]
        · rw [if_neg hk]
          refine List.sum_eq_zero fun x hx => ?_
          obtain ⟨k', hk', rfl⟩ := List.mem_map.mp hx
          exact if_neg fun h => hk (by rw [Option.some.inj h]; exact hk')
      rw [hone]
      by_cases hk : k ∈ ks
      · rw [if_pos hk, List.filter_cons_of_pos (by rw [hka]; simpa using hk), List.map_cons,
          List.sum_cons]
      · rw [if_neg hk, List.filter_cons_of_neg (by rw [hka]; simpa using hk), zero_add]

/-- **A group made of groups** of another key. -/
theorem sum_rowsOf {α κ κ' M : Type*} [LinearOrder κ] [LinearOrder κ'] [AddCommMonoid M] (f : α → M)
    {key : α → Option κ} {key' : α → Option κ'} {ks : List κ} (hks : ks.Nodup) {l : List α}
    {k' : κ'} (h : ∀ a ∈ l, key' a = some k' ↔ ∃ k, key a = some k ∧ k ∈ ks) :
    ((rowsOf key' l k').map f).sum = (ks.map fun k => ((rowsOf key l k).map f).sum).sum := by
  rw [show (ks.map fun k => ((rowsOf key l k).map f).sum).sum = _ from sum_map_filter f key hks l]
  have hrows : rowsOf key' l k' = l.filter fun a => (key a).any (· ∈ ks) :=
    List.filter_congr fun a ha => Bool.eq_iff_iff.mpr (by
      rw [decide_eq_true_eq, h a ha, Option.any_eq_true]
      simp only [decide_eq_true_eq])
  rw [hrows]

/-- A sum over what a partial function makes of a list. -/
theorem sum_map_filterMap {α β M : Type*} [AddCommMonoid M] (g : α → Option β) (f : β → M) :
    ∀ l : List α, ((l.filterMap g).map f).sum = (l.map fun a => ((g a).map f).getD 0).sum
  | [] => rfl
  | a :: l => by
    have ih := sum_map_filterMap g f l
    rcases ha : g a with _ | b
    · rw [List.filterMap_cons_none ha, ih, List.map_cons, List.sum_cons, ha, Option.map_none,
        Option.getD_none, zero_add]
    · rw [List.filterMap_cons_some ha, List.map_cons, List.map_cons, List.sum_cons, List.sum_cons,
        ih, ha, Option.map_some, Option.getD_some]

/-- The rows of the groups that are kept, those of the other groups, and those without a group. -/
theorem sum_partition {α κ M : Type*} [AddCommMonoid M] (f : α → M) (key : α → Option κ)
    (keep : κ → Prop) [DecidablePred keep] : ∀ l : List α,
      ((l.filter fun a => (key a).any fun k => keep k).map f).sum +
          ((l.filter fun a => (key a).any fun k => ¬ keep k).map f).sum +
          ((l.filter fun a => (key a).isNone).map f).sum = (l.map f).sum
  | [] => by simp
  | a :: l => by
    have ih := sum_partition f key keep l
    rw [List.map_cons, List.sum_cons, ← ih]
    rcases hka : key a with _ | k
    · simp only [List.filter_cons, hka, Option.any_none, Option.isNone_none, if_true,
        Bool.false_eq_true, if_false, List.map_cons, List.sum_cons]
      exact add_left_comm _ _ _
    · by_cases hk : keep k
      · simp only [List.filter_cons, hka, Option.any_some, Option.isNone_some, hk, decide_true,
          not_true_eq_false, decide_false, if_true, Bool.false_eq_true, if_false, List.map_cons,
          List.sum_cons, add_assoc]
      · simp only [List.filter_cons, hka, Option.any_some, Option.isNone_some, hk, decide_true,
          not_false_eq_true, decide_false, if_true, Bool.false_eq_true, if_false, List.map_cons,
          List.sum_cons]
        rw [add_left_comm, add_assoc, add_assoc, ← add_assoc, ← add_assoc]

/-- Filtering what a partial function makes of a list. -/
theorem map_filter_filterMap {α β γ : Type*} {f : α → Option β} {p : β → Bool} {q : α → Bool}
    {c : β → γ} {c' : α → γ} (hq : ∀ a, q a = (f a).any p) (hc : ∀ a b, f a = some b → c b = c' a) :
    ∀ l : List α, ((l.filterMap f).filter p).map c = (l.filter q).map c'
  | [] => rfl
  | a :: l => by
    have ih := map_filter_filterMap hq hc l
    rcases hfa : f a with _ | b
    · have hqa : q a = false := by rw [hq, hfa]; rfl
      rw [List.filterMap_cons_none hfa, List.filter_cons_of_neg (by rw [hqa]; decide), ih]
    · have hqa : q a = p b := by rw [hq, hfa]; rfl
      rw [List.filterMap_cons_some hfa]
      by_cases hp : p b = true
      · rw [List.filter_cons_of_pos hp, List.filter_cons_of_pos (hqa.trans hp), List.map_cons,
          List.map_cons, ih, hc a b hfa]
      · rw [List.filter_cons_of_neg hp, List.filter_cons_of_neg (by rw [hqa]; exact hp), ih]

end Magm.Lib.GroupBy
