import Magm.Lib.Buffer
import Mathlib.Data.List.Basic
import Mathlib.Logic.Function.Basic

/-! # A circular memory

Positions count the bytes ever written and never wrap; the memory has `size` bytes, and a position
is the byte at its remainder. As long as the positions in use fit into one window of `size` bytes,
what is stored at a place stays there while other places are written (`Holds.store`), and a store
inside a place changes the bytes that it covers (`Holds.patch`). -/

namespace Magm.Lib.Circular

open Magm.Lib.Buffer

/-! ### Numbers as bytes -/

/-- The low `n` bytes of a number, the lowest first. -/
def toBytes : ℕ → ℕ → List UInt8
  | 0, _ => []
  | n + 1, v => UInt8.ofNat v :: toBytes n (v / 256)

/-- The number that bytes make up. -/
def ofBytes : List UInt8 → ℕ
  | [] => 0
  | x :: xs => x.toNat + 256 * ofBytes xs

@[simp] theorem length_toBytes : ∀ n v : ℕ, (toBytes n v).length = n
  | 0, _ => rfl
  | n + 1, v => by rw [toBytes, List.length_cons, length_toBytes n]

theorem ofBytes_toBytes : ∀ {n v : ℕ}, v < 256 ^ n → ofBytes (toBytes n v) = v
  | 0, v, h => by
    rw [Nat.pow_zero, Nat.lt_one_iff] at h
    rw [h]; rfl
  | n + 1, v, h => by
    have hdiv : v / 256 < 256 ^ n := Nat.div_lt_of_lt_mul (by rwa [Nat.pow_succ'] at h)
    rw [toBytes, ofBytes, ofBytes_toBytes hdiv, UInt8.toNat_ofNat', Nat.mod_add_div]

/-! ### Loads and stores -/

section Memory
variable (size : ℕ)

/-- The byte at a position. -/
def cell (b : Bytes) (p : ℕ) : UInt8 := b (p % size)

/-- The bytes `xs` from a position on. -/
def store (p : ℕ) : List UInt8 → Bytes → Bytes
  | [], b => b
  | x :: xs, b => store (p + 1) xs (Function.update b (p % size) x)

/-- The `n` bytes from a position on. -/
def load (b : Bytes) (p n : ℕ) : List UInt8 := (List.range n).map fun i => cell size b (p + i)

/-- The bytes `xs` are in the memory from a position on. -/
def Holds (b : Bytes) (p : ℕ) (xs : List UInt8) : Prop :=
  ∀ i x, xs[i]? = some x → cell size b (p + i) = x

end Memory

section Window
variable {size : ℕ} {b : Bytes} {p q : ℕ} {xs ys : List UInt8}

/-- The mask of a size that is a power of two. -/
theorem and_mask (k : ℕ) : p &&& (2 ^ k - 1) = p % 2 ^ k := Nat.and_two_pow_sub_one_eq_mod p k

/-- An offset into the memory reads as the position that it comes from. -/
theorem cell_mod (i : ℕ) : cell size b (p % size + i) = cell size b (p + i) := by
  rw [cell, cell, Nat.mod_add_mod]

/-- Two positions of a window are different bytes. -/
theorem mod_ne_mod (hlt : p < q) (hwin : q < p + size) : p % size ≠ q % size := by
  intro h
  have hdvd : size ∣ q - p := Nat.dvd_of_mod_eq_zero (Nat.sub_mod_eq_zero_of_mod_eq h.symm)
  have hle : size ≤ q - p := Nat.le_of_dvd (by omega) hdvd
  omega

theorem cell_store_of_ne : ∀ {xs : List UInt8} {p : ℕ} {b : Bytes},
    (∀ i < xs.length, (p + i) % size ≠ q % size) → cell size (store size p xs b) q = cell size b q
  | [], _, _, _ => rfl
  | x :: xs, p, b, h => by
    have hhead : p % size ≠ q % size := h 0 (Nat.succ_pos _)
    have htail : ∀ i < xs.length, (p + 1 + i) % size ≠ q % size := by
      intro i hi
      have := h (i + 1) (by rw [List.length_cons]; omega)
      rwa [Nat.add_comm i 1, ← Nat.add_assoc] at this
    rw [store, cell_store_of_ne htail, cell, cell, Function.update_of_ne hhead.symm]

/-- **What is stored is there.** -/
theorem holds_store : ∀ {xs : List UInt8} {p : ℕ} {b : Bytes}, xs.length ≤ size →
    Holds size (store size p xs b) p xs
  | [], _, _, _ => by intro i x h; simp at h
  | x :: xs, p, b, hlen => by
    rw [List.length_cons] at hlen
    intro i y hy
    rcases i with _ | i
    · have hfirst : x = y := by simpa using hy
      have hrest : ∀ i < xs.length, (p + 1 + i) % size ≠ p % size := fun i hi =>
        (mod_ne_mod (by omega) (by omega)).symm
      change cell size (store size (p + 1) xs (Function.update b (p % size) x)) p = y
      rw [cell_store_of_ne hrest, cell, Function.update_self, hfirst]
    · have ih := holds_store (p := p + 1) (b := Function.update b (p % size) x)
        (show xs.length ≤ size by omega) i y (by simpa using hy)
      rwa [Nat.add_assoc, Nat.add_comm 1 i] at ih

/-- The places `[p, p + m)` and `[q, q + n)` do not meet in one window. -/
def Apart (size p m q n : ℕ) : Prop :=
  (p + m ≤ q ∧ q + n ≤ p + size) ∨ (q + n ≤ p ∧ p + m ≤ q + size)

/-- **A store elsewhere** leaves the bytes as they are. -/
theorem Holds.store (h : Holds size b p xs) (ha : Apart size p xs.length q ys.length) :
    Holds size (store size q ys b) p xs := by
  intro i x hx
  have hi : i < xs.length := (List.getElem?_eq_some_iff.mp hx).1
  rw [cell_store_of_ne, h i x hx]
  intro j hj
  rcases ha with ⟨h1, h2⟩ | ⟨h1, h2⟩
  · exact (mod_ne_mod (by omega) (by omega)).symm
  · exact mod_ne_mod (by omega) (by omega)

theorem holds_append : Holds size b p (xs ++ ys) ↔
    Holds size b p xs ∧ Holds size b (p + xs.length) ys := by
  constructor
  · intro h
    refine ⟨fun i x hx => ?_, fun i x hx => ?_⟩
    · have hi : i < xs.length := (List.getElem?_eq_some_iff.mp hx).1
      exact h i x (by rwa [List.getElem?_append_left hi])
    · have := h (xs.length + i) x (by
        rwa [List.getElem?_append_right (Nat.le_add_right _ _), Nat.add_sub_cancel_left])
      rwa [← Nat.add_assoc] at this
  · rintro ⟨hx, hy⟩ i x h
    rcases Nat.lt_or_ge i xs.length with hi | hi
    · exact hx i x (by rwa [List.getElem?_append_left hi] at h)
    · rw [List.getElem?_append_right hi] at h
      have := hy _ x h
      rwa [Nat.add_assoc, Nat.add_sub_cancel' hi] at this

/-- What is in the memory is loaded. -/
theorem Holds.load (h : Holds size b p xs) : load size b p xs.length = xs := by
  refine List.ext_getElem? fun i => ?_
  rcases Nat.lt_or_ge i xs.length with hi | hi
  · rw [Circular.load, List.getElem?_map, List.getElem?_range hi, Option.map_some,
      h i _ (List.getElem?_eq_getElem hi), List.getElem?_eq_getElem hi]
  · rw [List.getElem?_eq_none hi, List.getElem?_eq_none]
    rwa [Circular.load, List.length_map, List.length_range]

@[simp] theorem length_load (n : ℕ) : (load size b p n).length = n := by
  rw [load, List.length_map, List.length_range]

theorem holds_load (n : ℕ) : Holds size b p (load size b p n) := by
  intro i x hx
  have hi : i < n := by
    have := (List.getElem?_eq_some_iff.mp hx).1
    rwa [length_load] at this
  rw [load, List.getElem?_map, List.getElem?_range hi, Option.map_some] at hx
  exact Option.some.inj hx

/-- The bytes `ys` over those of `xs` from place `j` on. -/
def patch (xs : List UInt8) (j : ℕ) (ys : List UInt8) : List UInt8 :=
  xs.take j ++ (ys ++ xs.drop (j + ys.length))

theorem length_patch {j : ℕ} (hj : j + ys.length ≤ xs.length) :
    (patch xs j ys).length = xs.length := by
  simp only [patch, List.length_append, List.length_take, List.length_drop]
  omega

theorem eq_take_append_drop {j n : ℕ} :
    xs = xs.take j ++ ((xs.drop j).take n ++ xs.drop (j + n)) := by
  rw [← List.drop_drop, List.take_append_drop, List.take_append_drop]

/-- **A store inside** the bytes patches them. -/
theorem Holds.patch {j : ℕ} (h : Holds size b p xs) (hj : j + ys.length ≤ xs.length)
    (hlen : xs.length ≤ size) :
    Holds size (Circular.store size (p + j) ys b) p (patch xs j ys) := by
  rw [@eq_take_append_drop xs j ys.length, holds_append, holds_append] at h
  obtain ⟨hfront, -, hback⟩ := h
  have htake : (xs.take j).length = j := by rw [List.length_take]; omega
  have hmid : ((xs.drop j).take ys.length).length = ys.length := by
    rw [List.length_take, List.length_drop]; omega
  have hdrop : (xs.drop (j + ys.length)).length = xs.length - (j + ys.length) := List.length_drop
  rw [htake, hmid] at hback
  rw [Circular.patch, holds_append, holds_append, htake]
  refine ⟨hfront.store (Or.inl ?_), holds_store (by omega), hback.store (Or.inr ?_)⟩
  · rw [htake]; omega
  · rw [hdrop]; omega

/-! ### Slices -/

/-- The `n` bytes from place `o` on. -/
def slice (xs : List UInt8) (o n : ℕ) : List UInt8 := (xs.drop o).take n

theorem getElem?_patch {j : ℕ} (hj : j + ys.length ≤ xs.length) (i : ℕ) :
    (patch xs j ys)[i]? = if j ≤ i ∧ i < j + ys.length then ys[i - j]? else xs[i]? := by
  have htake : (xs.take j).length = j := by rw [List.length_take]; omega
  unfold Circular.patch
  rcases Nat.lt_or_ge i j with hi | hi
  · rw [List.getElem?_append_left (by omega), List.getElem?_take_of_lt hi, if_neg (by omega)]
  · rw [List.getElem?_append_right (by omega), htake]
    rcases Nat.lt_or_ge (i - j) ys.length with hlt | hge
    · rw [List.getElem?_append_left hlt, if_pos (by omega)]
    · have hplace : j + ys.length + (i - j - ys.length) = i := by omega
      rw [List.getElem?_append_right hge, List.getElem?_drop, hplace, if_neg (by omega)]

theorem getElem?_slice (o n i : ℕ) : (slice xs o n)[i]? = if i < n then xs[o + i]? else none := by
  unfold slice
  split_ifs with hi
  · rw [List.getElem?_take_of_lt hi, List.getElem?_drop]
  · exact List.getElem?_take_eq_none (by omega)

/-- What has been written is there. -/
theorem slice_patch_self {j : ℕ} (hj : j + ys.length ≤ xs.length) :
    slice (patch xs j ys) j ys.length = ys := by
  refine List.ext_getElem? fun i => ?_
  rw [getElem?_slice, getElem?_patch hj]
  rcases Nat.lt_or_ge i ys.length with hi | hi
  · rw [if_pos hi, if_pos (by omega), Nat.add_sub_cancel_left]
  · rw [if_neg (by omega), List.getElem?_eq_none hi]

/-- The other slices stay. -/
theorem slice_patch_of_apart {j o n : ℕ} (hj : j + ys.length ≤ xs.length)
    (ha : o + n ≤ j ∨ j + ys.length ≤ o) : slice (patch xs j ys) o n = slice xs o n := by
  refine List.ext_getElem? fun i => ?_
  rw [getElem?_slice, getElem?_slice, getElem?_patch hj]
  rcases Nat.lt_or_ge i n with hi | hi
  · rw [if_pos hi, if_pos hi, if_neg (by omega)]
  · rw [if_neg (by omega), if_neg (by omega)]

theorem drop_eq_slice_append (o n : ℕ) : xs.drop o = slice xs o n ++ xs.drop (o + n) := by
  rw [slice, ← List.drop_drop, List.take_append_drop]

/-! ### Fields that are filled in one by one -/

/-- A field: its place and its bytes. -/
abbrev Field := ℕ × List UInt8

def fill (xs : List UInt8) (fields : List Field) : List UInt8 :=
  fields.foldl (fun xs f => patch xs f.1 f.2) xs

/-- Two fields that do not meet. -/
def Field.Apart (f g : Field) : Prop := f.1 + f.2.length ≤ g.1 ∨ g.1 + g.2.length ≤ f.1

theorem length_fill : ∀ {fields : List Field} {xs : List UInt8},
    (∀ f ∈ fields, f.1 + f.2.length ≤ xs.length) → (fill xs fields).length = xs.length
  | [], _, _ => rfl
  | f :: fields, xs, h => by
    have hlen : (patch xs f.1 f.2).length = xs.length := length_patch (h f List.mem_cons_self)
    have ih := @length_fill fields (patch xs f.1 f.2) fun f' hf' => by
      rw [hlen]; exact h f' (List.mem_cons_of_mem _ hf')
    exact ih.trans hlen

theorem slice_fill_of_apart {o n : ℕ} : ∀ {fields : List Field} {xs : List UInt8},
    (∀ f ∈ fields, f.1 + f.2.length ≤ xs.length) →
      (∀ f ∈ fields, o + n ≤ f.1 ∨ f.1 + f.2.length ≤ o) → slice (fill xs fields) o n = slice xs o n
  | [], _, _, _ => rfl
  | f :: fields, xs, h, ha => by
    have hf := h f List.mem_cons_self
    have ih := @slice_fill_of_apart o n fields (patch xs f.1 f.2)
      (fun f' hf' => by rw [length_patch hf]; exact h f' (List.mem_cons_of_mem _ hf'))
      fun f' hf' => ha f' (List.mem_cons_of_mem _ hf')
    exact ih.trans (slice_patch_of_apart hf (ha f List.mem_cons_self))

/-- **Every field is read back**, whatever the bytes were before. -/
theorem slice_fill : ∀ {fields : List Field} {xs : List UInt8},
    (∀ f ∈ fields, f.1 + f.2.length ≤ xs.length) → fields.Pairwise Field.Apart →
      ∀ f ∈ fields, slice (fill xs fields) f.1 f.2.length = f.2
  | [], _, _, _, f, hf => absurd hf List.not_mem_nil
  | g :: fields, xs, h, hp, f, hf => by
    have hg := h g List.mem_cons_self
    have hrest : ∀ f' ∈ fields, f'.1 + f'.2.length ≤ (patch xs g.1 g.2).length := fun f' hf' => by
      rw [length_patch hg]; exact h f' (List.mem_cons_of_mem _ hf')
    rw [List.pairwise_cons] at hp
    rcases List.mem_cons.mp hf with rfl | hf
    · exact (slice_fill_of_apart hrest hp.1).trans (slice_patch_self hg)
    · exact slice_fill hrest hp.2 f hf

end Window

end Magm.Lib.Circular
