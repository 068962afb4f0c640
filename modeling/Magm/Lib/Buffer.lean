import Mathlib.Algebra.Order.Group.Nat
import Mathlib.Tactic.NormNum.Pow

/-! # Words in a buffer of bytes

A buffer is read as 64-bit words, the low byte of a word first. `overwrite ws n b` writes the first
`n` bytes of the words `ws` over the front of the buffer `b` and leaves the rest as it was: the
words that are written whole are read back (`word_overwrite`). -/

namespace Magm.Lib.Buffer

/-- The bytes from an address on. -/
abbrev Bytes := ℕ → UInt8

/-- The number that `n` bytes make up, the low byte first. -/
def littleEndian (b : Bytes) (o : ℕ) : ℕ → ℕ
  | 0 => 0
  | n + 1 => (b o).toNat + 256 * littleEndian b (o + 1) n

/-- The word at an address. -/
def word (b : Bytes) (o : ℕ) : UInt64 := UInt64.ofNat (littleEndian b o 8)

/-- The byte `i` of a word. -/
def byteOf (w : UInt64) (i : ℕ) : UInt8 := UInt8.ofNat (w.toNat / 256 ^ i)

/-- The first `n` bytes of the words `ws` over the front of `b`. -/
def overwrite (ws : List UInt64) (n : ℕ) (b : Bytes) : Bytes := fun i =>
  if i < n then byteOf (ws.getD (i / 8) 0) (i % 8) else b i

theorem littleEndian_eq {b : Bytes} : ∀ (n : ℕ) {o v : ℕ},
    (∀ i < n, (b (o + i)).toNat = v / 256 ^ i % 256) → littleEndian b o n = v % 256 ^ n
  | 0, _, _, _ => by rw [Nat.pow_zero, Nat.mod_one]; rfl
  | n + 1, o, v, h => by
    have hlow : (b o).toNat = v % 256 := by
      have h0 := h 0 (Nat.succ_pos n)
      rwa [Nat.add_zero, Nat.pow_zero, Nat.div_one] at h0
    have hhigh : littleEndian b (o + 1) n = v / 256 % 256 ^ n := by
      refine littleEndian_eq n fun i hi => ?_
      have hi' := h (i + 1) (Nat.succ_lt_succ hi)
      rwa [Nat.pow_succ', ← Nat.div_div_eq_div_mul, Nat.add_comm i 1, ← Nat.add_assoc] at hi'
    rw [littleEndian, hlow, hhigh, Nat.pow_succ', Nat.mod_mul]

/-- A word is read back from its bytes. -/
theorem word_eq {b : Bytes} {o : ℕ} {w : UInt64} (h : ∀ i < 8, b (o + i) = byteOf w i) :
    word b o = w := by
  have hbytes : littleEndian b o 8 = w.toNat % 256 ^ 8 := by
    refine littleEndian_eq 8 fun i hi => ?_
    rw [h i hi, byteOf, UInt8.toNat_ofNat']
  have hlt : w.toNat < 256 ^ 8 := w.toNat_lt.trans_eq (by norm_num)
  rw [word, hbytes, Nat.mod_eq_of_lt hlt, UInt64.ofNat_toNat]

/-- **A word that is written whole is read back.** -/
theorem word_overwrite {ws : List UInt64} {n j : ℕ} {w : UInt64} (b : Bytes)
    (hj : ws[j]? = some w) (hn : 8 * j + 8 ≤ n) : word (overwrite ws n b) (8 * j) = w := by
  refine word_eq fun i hi => ?_
  have hdiv : (8 * j + i) / 8 = j := by omega
  have hmod : (8 * j + i) % 8 = i := by omega
  rw [overwrite, if_pos (by omega), hdiv, hmod, List.getD_eq_getElem?_getD, hj, Option.getD_some]

theorem overwrite_zero (ws : List UInt64) (b : Bytes) : overwrite ws 0 b = b := by
  funext i
  exact if_neg (Nat.not_lt_zero i)

end Magm.Lib.Buffer
