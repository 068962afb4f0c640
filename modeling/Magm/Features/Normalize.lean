import Magm.Features.ThreadWindows
import Magm.Lib.Quantile
import Mathlib.Data.Rat.Floor

/-! # Normalised windows: `minmax_clip_normalize`

Every feature is clipped to its 1% and 99% quantiles and scaled to `[0, 1]`, and a window gets the
label of its largest Top-Down score. The bounds are those of the windows at hand; they are written
to `thread_feature_norm_meta.csv` and never read. So the windows of training and of inference are
normalised alike as far as the two runs happen to have the same bounds (`normalised_alike`). -/

namespace Magm.Features.Normalize

open Magm.Lib.Chars Magm.Lib.Quantile Magm.Planner.Score Magm.Collect.Attribution
open Magm.Features.Dataset Magm.Features.ThreadWindows

/-! ### Clip bounds -/

/-- `clip_min` and `clip_max` of a column; a column without rows has none. -/
def clipBounds (s : List ℚ) : Option (Bounds ℚ) :=
  (quantile (1 / 100) s).bind fun lo => (quantile (99 / 100) s).map fun hi =>
    if h : hi ≤ lo then ⟨lo, lo + eps, lt_add_of_pos_right lo eps_pos⟩ else ⟨lo, hi, not_le.mp h⟩

/-- A row of `thread_feature_norm_meta.csv`. -/
structure MetaRow where
  feature : Feature
  bounds : Option (Bounds ℚ)

/-- The bounds of a feature over all windows. -/
def featureBounds (win : List ThreadWindow) (f : Feature) : Option (Bounds ℚ) :=
  clipBounds (win.map fun w => w.feature f)

/-- The column `<f>_norm` of a window. -/
def normalised (win : List ThreadWindow) (w : ThreadWindow) (f : Feature) : ℚ :=
  ((featureBounds win f).map fun b => b.scale (w.feature f)).getD 0

/-! ### Labels -/

inductive StateLabel
  | beMem | beCore | feBound
  deriving DecidableEq

def sFe (x : Feature → ℚ) : ℚ := 3 / 4 * x .BrMPKI + 1 / 4 * x .MPKI_L1I
def sBeCore (x : Feature → ℚ) : ℚ := 4 / 5 * x .IPC + 1 / 5 * (1 - x .MPKI_LLC)
def sBeMem (x : Feature → ℚ) : ℚ := 4 / 5 * x .MPKI_LLC + 1 / 5 * x .MPKI_TLB

/-- `add_topdown_labels` on one row. -/
def stateLabel (x : Feature → ℚ) : StateLabel :=
  if sBeCore x ≤ sBeMem x ∧ sFe x ≤ sBeMem x then .beMem
  else if sFe x ≤ sBeCore x then .beCore
  else .feBound

/-! ### The result of `build_windows` -/

/-- A row of `thread_windows_norm.csv`. -/
structure NormWindow where
  window : ThreadWindow
  norm : Feature → ℚ
  label : StateLabel

structure Built where
  win : List ThreadWindow
  norm : List NormWindow
  metaRows : List MetaRow

def buildWindows (df : List DataRow) (windowNs : ℤ) : Built :=
  let win := rawWindows df windowNs
  { win := win
    norm := win.map fun w => ⟨w, normalised win w, stateLabel (normalised win w)⟩
    metaRows := featureCols.map fun f => ⟨f, featureBounds win f⟩ }

/-! ### Two runs -/

section TwoRuns
variable {T L : List DataRow} {windowNs windowNs' : ℤ}

/-- The features of a window are a function of its counters. -/
theorem feature_eq_of_counters {t t' : ThreadWindow} (ht : t ∈ rawWindows T windowNs)
    (ht' : t' ∈ rawWindows L windowNs') (h : t.sum.counters = t'.sum.counters) :
    t.feature = t'.feature := by
  have hinst : instK t.sum = instK t'.sum := by unfold instK; rw [h]
  have hfeature : ∀ f, feature t.sum f = feature t'.sum f := by
    intro f
    cases f <;> simp only [feature, h, hinst]
  rw [feature_of_mem ht, feature_of_mem ht']
  funext f
  rw [hfeature]

theorem mem_norm {df : List DataRow} {n : NormWindow} (h : n ∈ (buildWindows df windowNs).norm) :
    n.window ∈ rawWindows df windowNs ∧
      n.norm = normalised (rawWindows df windowNs) n.window ∧ n.label = stateLabel n.norm := by
  obtain ⟨w, hw, rfl⟩ := List.mem_map.mp h
  exact ⟨hw, rfl, rfl⟩

theorem mem_metaRows {df : List DataRow} {f : Feature} {b : Option (Bounds ℚ)}
    (h : ⟨f, b⟩ ∈ (buildWindows df windowNs).metaRows) :
    featureBounds (rawWindows df windowNs) f = b := by
  obtain ⟨g, -, hg⟩ := List.mem_map.mp h
  rw [MetaRow.mk.injEq] at hg
  rw [← hg.1, hg.2]

/-- The feature has one scale in both runs. -/
def SameScale (m m' : List MetaRow) (f : Feature) : Prop := ∃ b, ⟨f, b⟩ ∈ m ∧ ⟨f, b⟩ ∈ m'

/-- The features the label looks at. -/
def labelFeatures : List Feature := [.IPC, .MPKI_LLC, .MPKI_L1I, .BrMPKI, .MPKI_TLB]

theorem stateLabel_congr {x y : Feature → ℚ} (h : ∀ f ∈ labelFeatures, x f = y f) :
    stateLabel x = stateLabel y := by
  have hfe : sFe x = sFe y := by
    rw [sFe, sFe, h .BrMPKI (by decide), h .MPKI_L1I (by decide)]
  have hcore : sBeCore x = sBeCore y := by
    rw [sBeCore, sBeCore, h .IPC (by decide), h .MPKI_LLC (by decide)]
  have hmem : sBeMem x = sBeMem y := by
    rw [sBeMem, sBeMem, h .MPKI_LLC (by decide), h .MPKI_TLB (by decide)]
  unfold stateLabel
  rw [hfe, hcore, hmem]

theorem norm_eq_of_sameScale {n n' : NormWindow} (hn : n ∈ (buildWindows T windowNs).norm)
    (hn' : n' ∈ (buildWindows L windowNs').norm)
    (h : n.window.sum.counters = n'.window.sum.counters) {f : Feature}
    (hf : SameScale (buildWindows T windowNs).metaRows (buildWindows L windowNs').metaRows f) :
    n.norm f = n'.norm f := by
  obtain ⟨b, hb, hb'⟩ := hf
  obtain ⟨hw, hnorm, -⟩ := mem_norm hn
  obtain ⟨hw', hnorm', -⟩ := mem_norm hn'
  rw [hnorm, hnorm', normalised, normalised, mem_metaRows hb, mem_metaRows hb',
    feature_eq_of_counters hw hw' h]

end TwoRuns

/-! ### A thread among others -/

/-- A sample of a thread. -/
def sampleOf (ts pid : ℤ) (instructions cycles misses : ℕ) : DataRow where
  ts := ts
  cpu := 0
  counters := fun
    | .instructions => instructions
    | .cpuCycles => cycles
    | .cacheMisses => misses
    | _ => 0
  thread := "worker".toList
  pid := pid
  loadType := "cpu".toList

/-- Thread 7 next to a faster thread, and next to a slower one. -/
def training : List DataRow := [sampleOf 0 7 1000 1000 10, sampleOf 0 8 3000 1000 0]
def inference : List DataRow := [sampleOf 0 7 1000 1000 10, sampleOf 0 9 1000 2000 20]

/-- The run of `training` once more, in a later window. -/
def repeated : List DataRow := [sampleOf 250 7 1000 1000 10, sampleOf 250 8 3000 1000 0]

theorem sameScale_repeated (f : Feature) : SameScale (buildWindows training 100).metaRows
    (buildWindows repeated 100).metaRows f := by
  have hfeature : (rawWindows training 100).map (fun w => w.feature f) =
      (rawWindows repeated 100).map fun w => w.feature f := by
    cases f <;> decide +kernel
  have hmem : f ∈ featureCols := by cases f <;> decide
  refine ⟨_, List.mem_map.mpr ⟨f, hmem, rfl⟩, List.mem_map.mpr ⟨f, hmem, ?_⟩⟩
  unfold featureBounds
  exact congrArg (fun s => MetaRow.mk f (clipBounds s)) hfeature.symm

end Magm.Features.Normalize
