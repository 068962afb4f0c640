import Magm.Features.Normalize

/-! # Clipped columns: `minmax_clip_normalize`

What the clip bounds of a column do to its values. A column whose 1% quantile is not below its 99%
quantile is constant up to its outer hundredths and gets an interval of length `1e-9`, so the
divisor is never zero. The quantiles of finite values are finite, so the source never falls back on
`s.min()` and `s.max()`. -/

namespace Magm.Features.Clipping

open Magm.Lib.Quantile Magm.Planner.Score Magm.Features.Dataset Magm.Features.ThreadWindows
open Magm.Features.Normalize

/-- The column `<col>_norm`. -/
def normColumn (s : List ℚ) : List ℚ :=
  s.map fun x => ((clipBounds s).map fun b => b.scale x).getD 0

/-- The columns of `build_windows` are clipped columns. -/
theorem map_norm_buildWindows (df : List DataRow) (windowNs : ℤ) (f : Feature) :
    (buildWindows df windowNs).norm.map (fun n => n.norm f) =
      normColumn ((rawWindows df windowNs).map fun w => w.feature f) := by
  unfold buildWindows normColumn
  rw [List.map_map, List.map_map]
  rfl

/-- How many of `n` values are strictly outside on one side. -/
def outside (n : ℕ) : ℕ := (n - 1) / 100 + 1

/-- A column that is scaled by `b`. -/
structure Scaled (s : List ℚ) (b : Bounds ℚ) : Prop where
  bounds : clipBounds s = some b
  column : normColumn s = s.map b.scale

/-- What the scale of a column does. -/
structure SoundScale (s : List ℚ) (b : Bounds ℚ) : Prop where
  divisor : b.hi - b.lo ≠ 0
  lo_lt_hi : b.lo < b.hi
  range : ∀ y ∈ normColumn s, 0 ≤ y ∧ y ≤ 1
  mono : ∀ x y, x ≤ y → b.scale x ≤ b.scale y
  strictMono : StrictMonoOn b.scale (Set.Icc b.lo b.hi)
  scale_lo : b.scale b.lo = 0
  scale_hi : b.scale b.hi = 1
  outside : ∀ lo hi, quantile (1 / 100) s = some lo → quantile (99 / 100) s = some hi → lo < hi →
    s.countP (fun x => x < b.lo) ≤ outside s.length ∧
      s.countP (fun x => b.hi < x) ≤ outside s.length

section Column
variable {s : List ℚ} {b : Bounds ℚ}

theorem scaled_of_bounds (h : clipBounds s = some b) : Scaled s b := by
  refine ⟨h, ?_⟩
  unfold normColumn
  rw [h]
  rfl

/-- Bounds that are two quantiles are these quantiles. -/
theorem bounds_of_lt (h : clipBounds s = some b) {lo hi : ℚ} (hlo : quantile (1 / 100) s = some lo)
    (hhi : quantile (99 / 100) s = some hi) (hlt : lo < hi) : b.lo = lo ∧ b.hi = hi := by
  rw [clipBounds, hlo, hhi, Option.bind_some, Option.map_some, dif_neg (not_le.mpr hlt)] at h
  obtain rfl := Option.some.inj h
  exact ⟨rfl, rfl⟩

/-- **A column with rows has bounds.** -/
theorem exists_clipBounds (hs : s ≠ []) : ∃ b, clipBounds s = some b := by
  obtain ⟨lo, hlo, -⟩ := exists_quantile (q := 1 / 100) hs (by norm_num) (by norm_num)
  obtain ⟨hi, hhi, -⟩ := exists_quantile (q := 99 / 100) hs (by norm_num) (by norm_num)
  rw [clipBounds, hlo, hhi]
  exact ⟨_, rfl⟩

/-- The hundredth below the 1% quantile. -/
theorem countP_below (hs : s ≠ []) {lo : ℚ} (hlo : quantile (1 / 100) s = some lo) :
    s.countP (fun x => x < lo) ≤ outside s.length := by
  have hplace : place (1 / 100 : ℚ) s = 1 * (s.length - 1) / 100 := by
    rw [← place_div (K := ℚ) hs 1 100]
    norm_num
  have hcount := (countP_quantile hs (by norm_num) (by norm_num) hlo).1
  rw [hplace, Nat.one_mul] at hcount
  exact hcount

/-- The hundredth above the 99% quantile. -/
theorem countP_above (hs : s ≠ []) {hi : ℚ} (hhi : quantile (99 / 100) s = some hi) :
    s.countP (fun x => hi < x) ≤ outside s.length := by
  have hplace : place (99 / 100 : ℚ) s = 99 * (s.length - 1) / 100 := by
    rw [← place_div (K := ℚ) hs 99 100]
    norm_num
  have hcount := (countP_quantile hs (by norm_num) (by norm_num) hhi).2
  have hn : 0 < s.length := List.length_pos_iff.mpr hs
  rw [hplace] at hcount
  unfold outside
  omega

theorem clipBounds_eq_of_perm {s' : List ℚ} (hp : s.Perm s') : clipBounds s = clipBounds s' := by
  unfold clipBounds
  rw [quantile_eq_of_perm _ hp, quantile_eq_of_perm _ hp]

theorem soundScale (hs : s ≠ []) (h : clipBounds s = some b) : SoundScale s b where
  divisor := b.width_pos.ne'
  lo_lt_hi := b.lt
  range := by
    intro y hy
    rw [(scaled_of_bounds h).column] at hy
    obtain ⟨x, -, rfl⟩ := List.mem_map.mp hy
    exact ⟨b.scale_nonneg x, b.scale_le_one x⟩
  mono := fun _ _ hxy => b.scale_mono hxy
  strictMono := b.scale_strictMonoOn
  scale_lo := (b.scale_eq_zero_iff _).mpr le_rfl
  scale_hi := (b.scale_eq_one_iff _).mpr le_rfl
  outside := by
    intro lo hi hlo hhi hlt
    obtain ⟨hblo, hbhi⟩ := bounds_of_lt h hlo hhi hlt
    rw [hblo, hbhi]
    exact ⟨countP_below hs hlo, countP_above hs hhi⟩

end Column

/-- **Every column with rows is normalised soundly**, and its rows may come in any order: each order
has the same bounds, and so every row its value. -/
theorem minmaxClipNormalize_sound {s : List ℚ} (hs : s ≠ []) :
    ∃ b, SoundScale s b ∧ ∀ s', s.Perm s' → Scaled s' b := by
  obtain ⟨b, hb⟩ := exists_clipBounds hs
  refine ⟨b, soundScale hs hb, fun s' hp => scaled_of_bounds ?_⟩
  rw [← clipBounds_eq_of_perm hp, hb]

theorem minmaxClipNormalize_sound_threeRows :
    ∃ b, SoundScale [4, 1, 2] b ∧ ∀ s', [4, 1, 2].Perm s' → Scaled s' b :=
  minmaxClipNormalize_sound (by decide)

/-- A constant column is 0. -/
example : normColumn [3, 3] = [0, 0] := by decide +kernel

end Magm.Features.Clipping
