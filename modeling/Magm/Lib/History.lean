import Mathlib.Data.List.Basic
import Mathlib.Data.List.Forall2
import Mathlib.Tactic.Ring

/-! # A list and what stands in front of its places

`history h p l` are the `h` elements in front of place `p`, a slice `l[p-h:p]`. Rows of equal length
that are put end to end are found again by `getElem?_flatten`. -/

namespace Magm.Lib.History

variable {α : Type*}

/-- The slice `l[p-h:p]`. -/
def history (h p : ℕ) (l : List α) : List α := (l.take p).drop (p - h)

theorem getElem?_history {h p j : ℕ} (hp : h ≤ p) (hj : j < h) (l : List α) :
    (history h p l)[j]? = l[p - h + j]? := by
  unfold history
  rw [List.getElem?_drop, List.getElem?_take_of_lt (by omega)]

theorem length_history {h p : ℕ} {l : List α} (hp : h ≤ p) (hl : p ≤ l.length) :
    (history h p l).length = h := by
  unfold history
  rw [List.length_drop, List.length_take, Nat.min_eq_left hl]
  omega

theorem length_flatten {n : ℕ} : ∀ {L : List (List α)}, (∀ l ∈ L, l.length = n) →
    L.flatten.length = n * L.length
  | [], _ => rfl
  | l :: L, h => by
    have ih := length_flatten fun l' hl' => h l' (List.mem_cons_of_mem _ hl')
    rw [List.flatten_cons, List.length_append, ih, h l List.mem_cons_self, List.length_cons]
    ring

/-- **Entry `i` of row `j`** in rows of length `n` put end to end. -/
theorem getElem?_flatten {n i : ℕ} (hi : i < n) : ∀ {L : List (List α)} (j : ℕ),
    (∀ l ∈ L, l.length = n) → L.flatten[n * j + i]? = L[j]?.bind fun l => l[i]?
  | [], _, _ => by simp
  | l :: L, 0, h => by
    have hl := h l List.mem_cons_self
    rw [List.flatten_cons, Nat.mul_zero, Nat.zero_add, List.getElem?_append_left (by omega)]
    rfl
  | l :: L, j + 1, h => by
    have ih := getElem?_flatten hi j fun l' hl' => h l' (List.mem_cons_of_mem _ hl')
    have hplace : n * (j + 1) + i - l.length = n * j + i := by
      rw [h l List.mem_cons_self, Nat.mul_succ]
      omega
    rw [List.flatten_cons, List.getElem?_append_right (by
      rw [h l List.mem_cons_self, Nat.mul_succ]; omega), hplace, ih, List.getElem?_cons_succ]

/-! ### Lists that are related place by place -/

section Related
variable {β : Type*} {R : α → β → Prop}

theorem forall₂_filterMap {f : α → Option β} : ∀ {l : List α},
    (∀ a ∈ l, ∃ b, f a = some b ∧ R a b) → List.Forall₂ R l (l.filterMap f)
  | [], _ => List.Forall₂.nil
  | a :: l, h => by
    obtain ⟨b, hb, hR⟩ := h a List.mem_cons_self
    have ih := forall₂_filterMap fun a' ha' => h a' (List.mem_cons_of_mem _ ha')
    rw [List.filterMap_cons_some hb]
    exact List.Forall₂.cons hR ih

theorem exists_of_mem_right : ∀ {l : List α} {l' : List β}, List.Forall₂ R l l' →
    ∀ b ∈ l', ∃ a ∈ l, R a b
  | _, _, List.Forall₂.nil, _, hb => absurd hb List.not_mem_nil
  | a :: _, _, List.Forall₂.cons hR h, b, hb => by
    rcases List.mem_cons.mp hb with rfl | hb
    · exact ⟨a, List.mem_cons_self, hR⟩
    · obtain ⟨a', ha', hR'⟩ := exists_of_mem_right h b hb
      exact ⟨a', List.mem_cons_of_mem _ ha', hR'⟩

theorem exists_of_mem_left : ∀ {l : List α} {l' : List β}, List.Forall₂ R l l' →
    ∀ a ∈ l, ∃ b ∈ l', R a b
  | _, _, List.Forall₂.nil, _, ha => absurd ha List.not_mem_nil
  | _, b :: _, List.Forall₂.cons hR h, a, ha => by
    rcases List.mem_cons.mp ha with rfl | ha
    · exact ⟨b, List.mem_cons_self, hR⟩
    · obtain ⟨b', hb', hR'⟩ := exists_of_mem_left h a ha
      exact ⟨b', List.mem_cons_of_mem _ hb', hR'⟩

end Related

end Magm.Lib.History
