import Magm.Lib.Sorting
import Mathlib.Algebra.Order.Field.Basic
import Mathlib.Algebra.Order.Floor.Ring
import Mathlib.Algebra.Order.Floor.Semifield

/-! # Quantiles and clipped scales

`quantile q s` interpolates linearly between the two neighbours of the position `q (n - 1)` of the
sorted list. `Bounds.scale` clips a value to an interval and maps the interval onto `[0, 1]`: the
scale is 0 exactly up to the lower bound and 1 exactly from the upper bound on, so two scales are
equal only when their bounds are (`scale_eq_iff`). In between it is strictly increasing. How many
elements of a list are outside of two quantiles is told by the places of the quantiles
(`countP_quantile`). -/

namespace Magm.Lib.Quantile

open Magm.Lib.Sorting

/-- The `q`-quantile of a list, `none` for the empty list. -/
def quantile {K : Type*} [Field K] [LinearOrder K] [FloorRing K] (q : K) (s : List K) : Option K :=
  let xs := s.insertionSort (· ≤ ·)
  let pos := q * ((s.length : K) - 1)
  let i := ⌊pos⌋.toNat
  (xs[i]?).map fun a => a + ((xs[i + 1]?).getD a - a) * (pos - i)

/-! ### Order statistics -/

section OrderStatistics
variable {K : Type*} [Field K] [LinearOrder K] [FloorRing K] {q : K} {s : List K}

/-- The place of the neighbour below in the sorted list. -/
def place (q : K) (s : List K) : ℕ := ⌊q * ((s.length : K) - 1)⌋.toNat

theorem quantile_eq (q : K) (s : List K) :
    quantile q s = ((s.insertionSort (· ≤ ·))[place q s]?).map fun a =>
      a + (((s.insertionSort (· ≤ ·))[place q s + 1]?).getD a - a) *
        (q * ((s.length : K) - 1) - place q s) := rfl

/-- The order of the list does not matter. -/
theorem quantile_eq_of_perm (q : K) {s' : List K} (hp : s.Perm s') :
    quantile q s = quantile q s' := by
  have hsort : s.insertionSort (· ≤ ·) = s'.insertionSort (· ≤ ·) :=
    List.Perm.eq_of_pairwise' (List.pairwise_insertionSort _ s) (List.pairwise_insertionSort _ s')
      ((List.perm_insertionSort _ s).trans (hp.trans (List.perm_insertionSort _ s').symm))
  unfold quantile
  rw [hsort, hp.length_eq]

variable [IsStrictOrderedRing K]

theorem place_lt (hs : s ≠ []) (h1 : q ≤ 1) : place q s < s.length := by
  have hn : 0 < s.length := List.length_pos_iff.mpr hs
  have hwidth : (0 : K) ≤ (s.length : K) - 1 := sub_nonneg.mpr (Nat.one_le_cast.mpr hn)
  have hpos : q * ((s.length : K) - 1) < (s.length : ℤ) := by
    refine (mul_le_of_le_one_left hwidth h1).trans_lt ?_
    rw [Int.cast_natCast]
    exact sub_one_lt _
  unfold place
  have := Int.floor_lt.mpr hpos
  omega

/-- The part of the way from the neighbour below to the neighbour above. -/
theorem part_mem (hs : s ≠ []) (h0 : 0 ≤ q) :
    0 ≤ q * ((s.length : K) - 1) - place q s ∧ q * ((s.length : K) - 1) - place q s ≤ 1 := by
  have hn : 0 < s.length := List.length_pos_iff.mpr hs
  have hwidth : (0 : K) ≤ (s.length : K) - 1 := sub_nonneg.mpr (Nat.one_le_cast.mpr hn)
  have hfloor : 0 ≤ ⌊q * ((s.length : K) - 1)⌋ := Int.floor_nonneg.mpr (mul_nonneg h0 hwidth)
  have hcast : (place q s : K) = ⌊q * ((s.length : K) - 1)⌋ := by
    rw [← Int.cast_natCast, place, Int.toNat_of_nonneg hfloor]
  rw [hcast]
  exact ⟨Int.fract_nonneg _, (Int.fract_lt_one _).le⟩

omit [FloorRing K] in
theorem le_interpolate {a b t : K} (hab : a ≤ b) (h0 : 0 ≤ t) : a ≤ a + (b - a) * t :=
  le_add_of_nonneg_right (mul_nonneg (sub_nonneg.mpr hab) h0)

omit [FloorRing K] in
theorem interpolate_le {a b t : K} (hab : a ≤ b) (h1 : t ≤ 1) : a + (b - a) * t ≤ b := by
  calc a + (b - a) * t ≤ a + (b - a) :=
        add_le_add_right (mul_le_of_le_one_right (sub_nonneg.mpr hab) h1) a
    _ = b := add_sub_cancel a b

omit [Field K] [FloorRing K] [IsStrictOrderedRing K] in
/-- A later place of the sorted list has a larger value. -/
theorem sorted_getElem? {i j : ℕ} {a b : K} (ha : (s.insertionSort (· ≤ ·))[i]? = some a)
    (hb : (s.insertionSort (· ≤ ·))[j]? = some b) (hij : i ≤ j) : a ≤ b := by
  rcases hij.eq_or_lt with rfl | hlt
  · rw [ha] at hb
    rw [Option.some.inj hb]
  · exact pairwise_getElem? (List.pairwise_insertionSort (· ≤ ·) s) ha hb hlt

/-- **A quantile is between its neighbours.** -/
theorem exists_quantile (hs : s ≠ []) (h0 : 0 ≤ q) (h1 : q ≤ 1) : ∃ v, quantile q s = some v ∧
    (∀ j a, j ≤ place q s → (s.insertionSort (· ≤ ·))[j]? = some a → a ≤ v) ∧
    ∀ j a, place q s < j → (s.insertionSort (· ≤ ·))[j]? = some a → v ≤ a := by
  set xs := s.insertionSort (· ≤ ·) with hxs
  obtain ⟨hpart0, hpart1⟩ := part_mem hs h0
  have hlen : place q s < xs.length := by
    rw [hxs, List.length_insertionSort]
    exact place_lt hs h1
  obtain ⟨a, ha⟩ : ∃ a, xs[place q s]? = some a := ⟨_, List.getElem?_eq_getElem hlen⟩
  have hab : a ≤ (xs[place q s + 1]?).getD a := by
    rcases hb : xs[place q s + 1]? with _ | b
    · exact le_rfl
    · exact sorted_getElem? ha hb (Nat.le_succ _)
  have hquantile : quantile q s = some
      (a + ((xs[place q s + 1]?).getD a - a) * (q * ((s.length : K) - 1) - place q s)) := by
    rw [quantile_eq, ← hxs, ha]
    rfl
  refine ⟨_, hquantile, fun j c hj hc => ?_, fun j c hj hc => ?_⟩
  · exact (sorted_getElem? hc ha hj).trans (le_interpolate hab hpart0)
  · refine (interpolate_le hab hpart1).trans ?_
    have hj' : j < xs.length := (List.getElem?_eq_some_iff.mp hc).1
    have hb : xs[place q s + 1]? = some xs[place q s + 1] := List.getElem?_eq_getElem (by omega)
    rw [hb]
    exact sorted_getElem? hb hc hj

/-- A test that only the first `m` elements can pass. -/
theorem countP_le_of_first {α : Type*} {p : α → Bool} {l : List α} {m : ℕ}
    (h : ∀ j a, m ≤ j → l[j]? = some a → p a = false) : l.countP p ≤ m := by
  have hdrop : (l.drop m).countP p = 0 := by
    rw [List.countP_eq_zero]
    intro a ha
    obtain ⟨j, hj⟩ := List.getElem?_of_mem ha
    rw [List.getElem?_drop] at hj
    rw [h _ a (Nat.le_add_right m j) hj]
    decide
  calc l.countP p = (l.take m).countP p + (l.drop m).countP p := by
        rw [← List.countP_append, List.take_append_drop]
    _ ≤ (l.take m).length := by rw [hdrop]; exact List.countP_le_length
    _ ≤ m := List.length_take_le m l

/-- A test that the first `m` elements do not pass. -/
theorem countP_le_of_last {α : Type*} {p : α → Bool} {l : List α} {m : ℕ}
    (h : ∀ j a, j < m → l[j]? = some a → p a = false) : l.countP p ≤ l.length - m := by
  have htake : (l.take m).countP p = 0 := by
    rw [List.countP_eq_zero]
    intro a ha
    obtain ⟨j, hj⟩ := List.getElem?_of_mem ha
    rw [List.getElem?_take] at hj
    split_ifs at hj with hlt
    rw [h j a hlt hj]
    decide
  calc l.countP p = (l.take m).countP p + (l.drop m).countP p := by
        rw [← List.countP_append, List.take_append_drop]
    _ ≤ (l.drop m).length := by rw [htake, Nat.zero_add]; exact List.countP_le_length
    _ = l.length - m := List.length_drop

/-- **How many elements are outside**: those below a quantile, and those above. -/
theorem countP_quantile (hs : s ≠ []) (h0 : 0 ≤ q) (h1 : q ≤ 1) {v : K}
    (hv : quantile q s = some v) :
    s.countP (fun x => x < v) ≤ place q s + 1 ∧
      s.countP (fun x => v < x) ≤ s.length - (place q s + 1) := by
  obtain ⟨v', hv', hbelow, habove⟩ := exists_quantile hs h0 h1
  rw [hv] at hv'
  obtain rfl := Option.some.inj hv'
  have hperm := List.perm_insertionSort (· ≤ ·) s
  rw [← hperm.countP_eq, ← hperm.countP_eq, ← hperm.length_eq]
  refine ⟨countP_le_of_first fun j a hj ha => ?_, countP_le_of_last fun j a hj ha => ?_⟩
  · exact decide_eq_false (not_lt.mpr (habove j a hj ha))
  · exact decide_eq_false (not_lt.mpr (hbelow j a (Nat.lt_succ_iff.mp hj) ha))

/-- The place of a quantile that is given as a quotient. -/
theorem place_div (hs : s ≠ []) (a b : ℕ) :
    place ((a : K) / b) s = a * (s.length - 1) / b := by
  have hn : 1 ≤ s.length := List.length_pos_iff.mpr hs
  have hcast : (a : K) / b * ((s.length : K) - 1) = ((a * (s.length - 1) : ℕ) : K) / b := by
    rw [Nat.cast_mul, Nat.cast_sub hn, Nat.cast_one, div_mul_eq_mul_div]
  rw [place, hcast, Int.floor_toNat, Nat.floor_div_eq_div]

end OrderStatistics

/-! ### Scales -/

/-- A value moved into the interval from `lo` to `hi`. -/
def clip {K : Type*} [LinearOrder K] (lo hi x : K) : K := min (max x lo) hi

theorem le_clip {K : Type*} [LinearOrder K] {lo hi : K} (h : lo ≤ hi) (x : K) : lo ≤ clip lo hi x :=
  le_min (le_max_right _ _) h

theorem clip_le {K : Type*} [LinearOrder K] (lo hi x : K) : clip lo hi x ≤ hi := min_le_right _ _

/-- The bounds of a scale. -/
@[ext] structure Bounds (K : Type*) [LT K] where
  lo : K
  hi : K
  lt : lo < hi

namespace Bounds

variable {K : Type*} [Field K] [LinearOrder K]

/-- The clipped value as a part of the interval. -/
def scale (b : Bounds K) (x : K) : K := clip 0 1 ((clip b.lo b.hi x - b.lo) / (b.hi - b.lo))

variable [IsStrictOrderedRing K] (b : Bounds K) (x : K)

theorem width_pos : 0 < b.hi - b.lo := sub_pos.mpr b.lt

/-- The clip to `[0, 1]` changes nothing. -/
theorem scale_eq : b.scale x = (clip b.lo b.hi x - b.lo) / (b.hi - b.lo) := by
  have h0 : 0 ≤ (clip b.lo b.hi x - b.lo) / (b.hi - b.lo) :=
    div_nonneg (sub_nonneg.mpr (le_clip b.lt.le x)) b.width_pos.le
  have h1 : (clip b.lo b.hi x - b.lo) / (b.hi - b.lo) ≤ 1 :=
    (div_le_one b.width_pos).mpr (sub_le_sub_right (clip_le _ _ x) _)
  rw [scale, clip, max_eq_left h0, min_eq_left h1]

theorem scale_eq_zero_iff : b.scale x = 0 ↔ x ≤ b.lo := by
  rw [scale_eq, div_eq_zero_iff, sub_eq_zero, or_iff_left b.width_pos.ne', clip]
  constructor
  · intro h
    by_contra hlt
    rw [not_le] at hlt
    rw [max_eq_left hlt.le] at h
    exact absurd h (lt_min hlt b.lt).ne'
  · intro h
    rw [max_eq_right h, min_eq_left b.lt.le]

theorem scale_eq_one_iff : b.scale x = 1 ↔ b.hi ≤ x := by
  rw [scale_eq, div_eq_one_iff_eq b.width_pos.ne', sub_left_inj, clip]
  constructor
  · intro h
    have hmax : b.hi ≤ max x b.lo := min_eq_right_iff.mp h
    exact (le_max_iff.mp hmax).resolve_right (not_le.mpr b.lt)
  · intro h
    exact min_eq_right (h.trans (le_max_left _ _))

theorem scale_nonneg : 0 ≤ b.scale x := le_clip zero_le_one _

omit [IsStrictOrderedRing K] in
theorem scale_le_one : b.scale x ≤ 1 := clip_le _ _ _

theorem scale_mono : Monotone b.scale := by
  intro x y hxy
  rw [scale_eq, scale_eq]
  have hclip : clip b.lo b.hi x ≤ clip b.lo b.hi y := min_le_min_right _ (max_le_max_right _ hxy)
  exact div_le_div_of_nonneg_right (sub_le_sub_right hclip _) b.width_pos.le

/-- Between the bounds nothing is clipped. -/
theorem scale_strictMonoOn : StrictMonoOn b.scale (Set.Icc b.lo b.hi) := by
  intro x hx y hy hxy
  have hclip : ∀ z ∈ Set.Icc b.lo b.hi, clip b.lo b.hi z = z := by
    intro z hz
    rw [clip, max_eq_left hz.1, min_eq_left hz.2]
  rw [scale_eq, scale_eq, hclip x hx, hclip y hy]
  exact div_lt_div_of_pos_right (sub_lt_sub_right hxy _) b.width_pos

/-- **Two scales are equal only when their bounds are.** -/
theorem scale_eq_iff {b b' : Bounds K} : b.scale = b'.scale ↔ b = b' := by
  constructor
  · intro h
    have hlo : ∀ x, x ≤ b.lo ↔ x ≤ b'.lo := fun x => by
      rw [← scale_eq_zero_iff, ← scale_eq_zero_iff, h]
    have hhi : ∀ x, b.hi ≤ x ↔ b'.hi ≤ x := fun x => by
      rw [← scale_eq_one_iff, ← scale_eq_one_iff, h]
    ext1
    · exact le_antisymm ((hlo _).mp le_rfl) ((hlo _).mpr le_rfl)
    · exact le_antisymm ((hhi _).mpr le_rfl) ((hhi _).mp le_rfl)
  · exact congrArg _

end Bounds

end Magm.Lib.Quantile
