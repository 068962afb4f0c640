import Mathlib.Algebra.Order.Floor.Div
import Mathlib.Data.Int.CardIntervalMod
import Mathlib.Data.List.Nodup

/-! # Taking turns

`turns xs i n` goes around the list `xs` from its place `i`, for `n` places. From the front every
element of a list without repetitions has `n / m` turns, rounded down or up (`count_turns_floor`),
and in the first round nobody has two (`nodup_turns`). -/

namespace Magm.Lib.RoundRobin

variable {α : Type*}

/-- The elements at the places `i`, ..., `i + n - 1` around the list. -/
def turns (xs : List α) (i n : ℕ) : List α :=
  (List.range' i n).filterMap fun k => xs[k % xs.length]?

theorem turns_succ {xs : List α} {i : ℕ} {x : α} (h : xs[i % xs.length]? = some x) (n : ℕ) :
    turns xs i (n + 1) = x :: turns xs (i + 1) n := by
  unfold turns
  rw [List.range'_succ]
  exact List.filterMap_cons_some h

theorem mem_of_mem_turns {xs : List α} {i n : ℕ} {x : α} (h : x ∈ turns xs i n) : x ∈ xs := by
  obtain ⟨k, -, hk⟩ := List.mem_filterMap.mp h
  exact List.mem_of_getElem? hk

section Count
variable [DecidableEq α] {xs : List α} (hxs : xs.Nodup)
include hxs

/-- **How often the element at the place `j` has its turn.** -/
theorem count_turns {j : ℕ} {x : α} (hj : xs[j]? = some x) (n : ℕ) :
    (turns xs 0 n).count x = n / xs.length + if j < n % xs.length then 1 else 0 := by
  have hlt : j < xs.length := (List.getElem?_eq_some_iff.mp hj).1
  have hplace : ∀ k, xs[k % xs.length]? = some x ↔ k ≡ j [MOD xs.length] := by
    intro k
    have hmod : k % xs.length < xs.length := Nat.mod_lt _ (Nat.zero_lt_of_lt hlt)
    rw [← hj, Nat.ModEq, Nat.mod_eq_of_lt hlt]
    exact List.getElem?_inj hmod hxs
  have hcount : (turns xs 0 n).count x = n.count (· ≡ j [MOD xs.length]) := by
    unfold turns Nat.count
    rw [List.count_filterMap, ← List.range_eq_range']
    refine List.countP_congr fun k _ => ?_
    rw [beq_iff_eq, decide_eq_true_eq]
    exact hplace k
  rw [hcount, Nat.count_modEq_card _ (Nat.zero_lt_of_lt hlt), Nat.mod_eq_of_lt hlt]

theorem count_turns_floor {x : α} (hx : x ∈ xs) (n : ℕ) :
    (turns xs 0 n).count x = n / xs.length ∨ (turns xs 0 n).count x = n ⌈/⌉ xs.length := by
  obtain ⟨j, hj⟩ := List.mem_iff_getElem?.mp hx
  have hm : 0 < xs.length := List.length_pos_of_mem hx
  rw [count_turns hxs hj]
  split_ifs with hlt
  · right
    have hdiv := Nat.div_add_mod n xs.length
    have hmod := Nat.mod_lt n hm
    refine le_antisymm ?_ ((ceilDiv_le_iff_le_mul hm).mpr ?_)
    · rw [Nat.succ_le_iff, ← not_le, ceilDiv_le_iff_le_mul hm]
      omega
    · rw [Nat.mul_add, Nat.mul_one]
      omega
  · exact Or.inl (Nat.add_zero _)

/-- **In the first round nobody has a second turn.** -/
theorem nodup_turns {n : ℕ} (hn : n ≤ xs.length) : (turns xs 0 n).Nodup := by
  refine List.nodup_iff_count_le_one.mpr fun x => ?_
  by_cases hx : x ∈ turns xs 0 n
  · obtain ⟨j, hj⟩ := List.mem_iff_getElem?.mp (mem_of_mem_turns hx)
    rw [count_turns hxs hj]
    rcases hn.lt_or_eq with hlt | rfl
    · rw [Nat.div_eq_of_lt hlt]
      split_ifs <;> omega
    · rw [Nat.mod_self, if_neg (Nat.not_lt_zero j), Nat.add_zero,
        Nat.div_self (List.length_pos_of_mem (mem_of_mem_turns hx))]
  · rw [List.count_eq_zero_of_not_mem hx]
    exact Nat.zero_le _

end Count

end Magm.Lib.RoundRobin
