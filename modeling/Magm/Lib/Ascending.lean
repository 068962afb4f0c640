import Magm.Lib.Sorting
import Mathlib.Algebra.Order.Ring.Int

/-! # Ascending keys

The elements of `l` have ascending integer keys, so a later place has a larger key. In front of the
key `a` the keys `a - 1`, ..., `a - h` are in the `h` places in front when they occur at all
(`key_sub`), and a list without gaps has them everywhere (`GapFree.key_sub`). -/

namespace Magm.Lib.Ascending

open Magm.Lib.Sorting

variable {α : Type*} {key : α → ℤ} {l : List α}

/-- Between two keys no key is missing. -/
def GapFree (key : α → ℤ) (l : List α) : Prop :=
  ∀ a ∈ l, ∀ b ∈ l, key a < key b → ∃ c ∈ l, key c = key a + 1

section Places
variable (hs : l.Pairwise fun a b => key a < key b)
include hs

theorem key_lt {p q : ℕ} {a b : α} (ha : l[p]? = some a) (hb : l[q]? = some b) (hpq : p < q) :
    key a < key b :=
  pairwise_getElem? hs ha hb hpq

theorem key_le {p q : ℕ} {a b : α} (ha : l[p]? = some a) (hb : l[q]? = some b) (hpq : p ≤ q) :
    key a ≤ key b := by
  rcases hpq.eq_or_lt with rfl | hlt
  · rw [ha] at hb
    rw [Option.some.inj hb]
  · exact (key_lt hs ha hb hlt).le

theorem lt_of_key_lt {p q : ℕ} {a b : α} (ha : l[p]? = some a) (hb : l[q]? = some b)
    (h : key a < key b) : p < q := by
  by_contra hqp
  exact absurd h (not_lt.mpr (key_le hs hb ha (not_lt.mp hqp)))

/-- The next smaller key is one place in front, if it occurs. -/
theorem key_pred {p : ℕ} {a : α} (ha : l[p + 1]? = some a) (hc : ∃ c ∈ l, key c = key a - 1) :
    ∃ b, l[p]? = some b ∧ key b = key a - 1 := by
  obtain ⟨c, hmem, hkey⟩ := hc
  obtain ⟨q, hq⟩ := List.getElem?_of_mem hmem
  have hqp : q < p + 1 := lt_of_key_lt hs hq ha (by omega)
  have hlen : p + 1 < l.length := (List.getElem?_eq_some_iff.mp ha).1
  have hb : l[p]? = some l[p] := List.getElem?_eq_getElem (by omega)
  have hle : key c ≤ key l[p] := key_le hs hq hb (by omega)
  have hlt : key l[p] < key a := key_lt hs hb ha (by omega)
  exact ⟨_, hb, by omega⟩

/-- **The keys in front of a key**: the `i`-th smaller key is `i` places in front. -/
theorem key_sub {p h : ℕ} {a : α} (ha : l[p]? = some a) (hp : h ≤ p)
    (hall : ∀ i < h, ∃ c ∈ l, key c = key a - (i + 1)) :
    ∀ i ≤ h, ∃ b, l[p - i]? = some b ∧ key b = key a - i
  | 0, _ => ⟨a, ha, by omega⟩
  | i + 1, hi => by
    obtain ⟨b, hb, hkey⟩ := key_sub ha hp hall i (by omega)
    obtain ⟨c, hmem, hc⟩ := hall i hi
    have hplace : p - i = p - (i + 1) + 1 := by omega
    rw [hplace] at hb
    obtain ⟨b', hb', hkey'⟩ := key_pred hs hb ⟨c, hmem, by omega⟩
    exact ⟨b', hb', by omega⟩

theorem gapFree_of_succ
    (h : ∀ p a b, l[p]? = some a → l[p + 1]? = some b → key b = key a + 1) : GapFree key l := by
  intro a ha b hb hab
  obtain ⟨p, hp⟩ := List.getElem?_of_mem ha
  obtain ⟨q, hq⟩ := List.getElem?_of_mem hb
  have hpq : p < q := lt_of_key_lt hs hp hq hab
  have hlen : q < l.length := (List.getElem?_eq_some_iff.mp hq).1
  have hc : l[p + 1]? = some l[p + 1] := List.getElem?_eq_getElem (by omega)
  exact ⟨_, List.getElem_mem _, h p a _ hp hc⟩

/-- **Without gaps** the `i`-th smaller key is `i` places in front. -/
theorem GapFree.key_sub (hd : GapFree key l) {p : ℕ} {a : α} (ha : l[p]? = some a) :
    ∀ i ≤ p, ∃ b, l[p - i]? = some b ∧ key b = key a - i
  | 0, _ => ⟨a, ha, by omega⟩
  | i + 1, hi => by
    obtain ⟨b, hb, hkey⟩ := GapFree.key_sub hd ha i (by omega)
    have hlen : p < l.length := (List.getElem?_eq_some_iff.mp ha).1
    have hb' : l[p - (i + 1)]? = some l[p - (i + 1)] := List.getElem?_eq_getElem (by omega)
    have hlt : key l[p - (i + 1)] < key b := key_lt hs hb' hb (by omega)
    -- the next key is at a later place, so it is at most that of `b`
    obtain ⟨c, hmem, hc⟩ := hd _ (List.getElem_mem (by omega)) b (List.mem_of_getElem? hb) hlt
    obtain ⟨q, hq⟩ := List.getElem?_of_mem hmem
    have hpq : p - (i + 1) < q := lt_of_key_lt hs hb' hq (by omega)
    have hle : key b ≤ key c := key_le hs hb hq (by omega)
    exact ⟨_, hb', by omega⟩

end Places

end Magm.Lib.Ascending
