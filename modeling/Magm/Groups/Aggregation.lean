import Magm.Features.Dataset
import Magm.Groups.Reproducible

/-! # From the dataset to the groups: `window_aggregation.py` and `prepare_df_norm_all.py`

Both scripts take the mean of every column over the samples of a thread name in a window of 100 ms,
of whatever load type, and scale the columns to `[0, 1)`. The result does not depend on the order in
which `merge_results.py` finds the scenes (`dfNormAll_perm`).

The numbers are exact here, with `inf` and `NaN` as they come from the quotient
`instructions / cpu_cycles`. A single sample with instructions and no cycles has an infinite `IPC`,
and then nothing is left of the column (`Normalised.lost`). Without one, every window with enough
threads gets its group (`bestGroups_dataset`). -/

namespace Magm.Groups.Aggregation

open Magm.Lib.Chars Magm.Lib.GroupBy Magm.Table.Cells Magm.Collect.Attribution
open Magm.Features.Dataset Magm.Lib.BestChoice
open Magm.Groups.Complementarity Magm.Groups.Greedy Magm.Groups.Reproducible

/-! ### The means -/

/-- A number of a column, which is never negative: `⊤` is `inf`, and `none` is `NaN`. -/
abbrev Value := Option (WithTop ℚ)

/-- A numeric column: a counter, or the `IPC`. -/
abbrev Column := Option Event

def WINDOW_NS : ℤ := 100000000

def windowId (r : MergedRow) : ℤ := r.ts.fdiv WINDOW_NS

/-- `instructions / cpu_cycles`. -/
def ipc (r : MergedRow) : Value :=
  if r.counters .cpuCycles = 0 then
    if r.counters .instructions = 0 then none else some ⊤
  else some (((r.counters .instructions : ℚ) / r.counters .cpuCycles : ℚ) : WithTop ℚ)

def sampleValue (r : MergedRow) : Column → Value
  | none => ipc r
  | some e => some ((r.counters e : ℚ) : WithTop ℚ)

/-- `mean`, which skips `NaN`. -/
def mean (xs : List Value) : Value :=
  let ys := xs.filterMap id
  if ys = [] then none else some (ys.sum.map fun total => total / ys.length)

/-- A row of the aggregated table. -/
structure MeanRow where
  windowId : ℤ
  thread : Text
  value : Column → Value

/-- The columns that the samples are grouped by, as `read_csv` gives them. -/
def groupKey (r : MergedRow) : Option (ℤ ×ₗ Text) :=
  (Cell.ofCsv r.thread.toCsv).val.map fun thread => toLex (windowId r, thread)

def meanRow (g : (ℤ ×ₗ Text) × List MergedRow) : MeanRow where
  windowId := (ofLex g.1).1
  thread := (ofLex g.1).2
  value c := mean (g.2.map fun r => sampleValue r c)

def dfAggAll (df : List MergedRow) : List MeanRow := (groupBy groupKey df).map meanRow

/-! ### The scaled columns -/

/-- `(v - vmin) / (vmax - vmin + 1e-10)`. -/
def scaled (vmin vmax v : WithTop ℚ) : Value :=
  -- `inf - inf`
  if vmin = ⊤ then none
  -- `inf / inf`, and a finite number by `inf`
  else if vmax = ⊤ then if v = ⊤ then none else some 0
  else some (v.map fun x =>
    (x - vmin.untopD 0) / (vmax.untopD 0 - vmin.untopD 0 + 1 / 10 ^ 10))

/-- The numbers of a column; `min` and `max` skip `NaN`. -/
def column (agg : List MeanRow) (c : Column) : List (WithTop ℚ) :=
  agg.filterMap fun m => m.value c

def normValue (agg : List MeanRow) (m : MeanRow) (c : Column) : Value := do
  let vmin ← (column agg c).min?
  let vmax ← (column agg c).max?
  scaled vmin vmax (← m.value c)

def dfNormAll (df : List MergedRow) : List MeanRow :=
  (dfAggAll df).map fun m => { m with value := normValue (dfAggAll df) m }

/-! ### Any order of the scenes -/

theorem mean_perm {xs ys : List Value} (h : xs.Perm ys) : mean xs = mean ys := by
  have hnum := h.filterMap id
  have hnil : xs.filterMap id = [] ↔ ys.filterMap id = [] := by
    rw [← List.length_eq_zero_iff, hnum.length_eq, List.length_eq_zero_iff]
  unfold mean
  simp only [hnil, hnum.sum_eq, hnum.length_eq]

theorem dfAggAll_perm {df df' : List MergedRow} (h : df.Perm df') : dfAggAll df = dfAggAll df' := by
  unfold dfAggAll groupBy
  rw [groupKeys_eq_of_perm h, List.map_map, List.map_map]
  refine List.map_congr_left fun k _ => ?_
  have hrows : (rowsOf groupKey df k).Perm (rowsOf groupKey df' k) := h.filter _
  unfold meanRow
  simp only [Function.comp_apply, MeanRow.mk.injEq, true_and]
  exact funext fun c => mean_perm (hrows.map _)

theorem dfNormAll_perm {df df' : List MergedRow} (h : df.Perm df') :
    dfNormAll df = dfNormAll df' := by
  unfold dfNormAll
  rw [dfAggAll_perm h]

/-! ### Means of numbers -/

theorem sum_eq_top_iff : ∀ {ys : List (WithTop ℚ)}, ys.sum = ⊤ ↔ ⊤ ∈ ys
  | [] => iff_of_false WithTop.zero_ne_top List.not_mem_nil
  | y :: ys => by
    rw [List.sum_cons, WithTop.add_eq_top, sum_eq_top_iff, List.mem_cons, eq_comm]

theorem mean_eq_none_iff {xs : List Value} : mean xs = none ↔ ∀ x ∈ xs, x = none := by
  have hnil : xs.filterMap id = [] ↔ ∀ x ∈ xs, x = none := List.filterMap_eq_nil_iff
  unfold mean
  simp only
  rw [← hnil]
  split_ifs with h
  · exact iff_of_true rfl h
  · exact iff_of_false nofun h

theorem mean_eq_top_iff {xs : List Value} : mean xs = some ⊤ ↔ some ⊤ ∈ xs := by
  have hmem : ⊤ ∈ xs.filterMap id ↔ some ⊤ ∈ xs := by
    rw [List.mem_filterMap]
    exact ⟨fun ⟨x, hx, heq⟩ => (show x = some ⊤ from heq) ▸ hx, fun h => ⟨_, h, rfl⟩⟩
  unfold mean
  simp only
  split_ifs with h
  · refine iff_of_false nofun fun htop => ?_
    rw [← hmem, h] at htop
    exact absurd htop List.not_mem_nil
  · rw [Option.some_inj, WithTop.map_eq_top_iff, sum_eq_top_iff, hmem]

/-- A number that is neither `inf` nor `NaN`, in `[0, 1)`. -/
def Unit (v : Value) : Prop := ∃ q : ℚ, v = some (q : WithTop ℚ) ∧ 0 ≤ q ∧ q < 1

section Scaled
variable {agg : List MeanRow} {m : MeanRow} {c : Column}

theorem mem_column {x : WithTop ℚ} : x ∈ column agg c ↔ ∃ m ∈ agg, m.value c = some x := by
  rw [column, List.mem_filterMap]

/-- A number lies between the bounds of its column. -/
theorem exists_scaled {x : WithTop ℚ} (hm : m ∈ agg) (hx : m.value c = some x) :
    ∃ vmin vmax, (column agg c).min? = some vmin ∧ (column agg c).max? = some vmax ∧
      vmin ≤ x ∧ x ≤ vmax ∧ vmax ∈ column agg c ∧ normValue agg m c = scaled vmin vmax x := by
  have hmem : x ∈ column agg c := mem_column.mpr ⟨m, hm, hx⟩
  have hne := List.ne_nil_of_mem hmem
  obtain ⟨vmin, hmin⟩ := Option.ne_none_iff_exists'.mp (mt List.min?_eq_none_iff.mp hne)
  obtain ⟨vmax, hmax⟩ := Option.ne_none_iff_exists'.mp (mt List.max?_eq_none_iff.mp hne)
  obtain ⟨-, hle⟩ := List.min?_eq_some_iff.mp hmin
  obtain ⟨htop, hge⟩ := List.max?_eq_some_iff.mp hmax
  refine ⟨vmin, vmax, hmin, hmax, hle x hmem, hge x hmem, htop, ?_⟩
  rw [normValue, hmin, hmax, hx]
  rfl

/-- **A column without `inf` is scaled to `[0, 1)`.** -/
theorem unit_normValue (hfin : ⊤ ∉ column agg c) {x : WithTop ℚ} (hm : m ∈ agg)
    (hx : m.value c = some x) : Unit (normValue agg m c) := by
  obtain ⟨vmin, vmax, -, -, hle, hge, hmem, heq⟩ := exists_scaled hm hx
  have hmax : vmax ≠ ⊤ := fun htop => hfin (htop ▸ hmem)
  lift vmax to ℚ using hmax
  lift x to ℚ using (hge.trans_lt (WithTop.coe_lt_top vmax)).ne
  lift vmin to ℚ using (hle.trans_lt (WithTop.coe_lt_top x)).ne
  rw [WithTop.coe_le_coe] at hle hge
  refine ⟨(x - vmin) / (vmax - vmin + 1 / 10 ^ 10), ?_, ?_, ?_⟩
  · rw [heq, scaled, if_neg (WithTop.coe_ne_top), if_neg (WithTop.coe_ne_top)]
    rfl
  · exact div_nonneg (by linarith) (by linarith)
  · rw [div_lt_one (by linarith)]
    linarith

/-- **With an `inf` nothing is left of a column.** -/
theorem normValue_of_top (htop : ⊤ ∈ column agg c) (hm : m ∈ agg) :
    normValue agg m c = none ∨ normValue agg m c = some 0 := by
  rcases hx : m.value c with _ | x
  · left
    unfold normValue
    rw [hx]
    rcases (column agg c).min? with _ | vmin <;> rcases (column agg c).max? with _ | vmax <;> rfl
  · obtain ⟨vmin, vmax, -, hmax, -, -, -, heq⟩ := exists_scaled hm hx
    have hge := (List.max?_eq_some_iff.mp hmax).2 ⊤ htop
    rw [heq, scaled, if_pos (top_le_iff.mp hge)]
    split_ifs
    · exact Or.inl rfl
    · exact Or.inl rfl
    · exact Or.inr rfl

end Scaled

/-! ### The table -/

/-- The samples of a thread name in a window. -/
def samplesOf (df : List MergedRow) (w : ℤ) (thread : Text) : List MergedRow :=
  df.filter fun r => windowId r = w ∧ r.thread.val = some thread

theorem groupKey_eq_some {r : MergedRow} {k : ℤ ×ₗ Text} :
    groupKey r = some k ↔ windowId r = (ofLex k).1 ∧ r.thread.val = some (ofLex k).2 := by
  rw [groupKey, Cell.ofCsv_toCsv, Option.map_eq_some_iff]
  constructor
  · rintro ⟨thread, hthread, rfl⟩
    exact ⟨rfl, hthread⟩
  · rintro ⟨hw, hthread⟩
    exact ⟨_, hthread, congrArg toLex (Prod.ext hw rfl)⟩

theorem rowsOf_groupKey (df : List MergedRow) (k : ℤ ×ₗ Text) :
    rowsOf groupKey df k = samplesOf df (ofLex k).1 (ofLex k).2 :=
  List.filter_congr fun r _ => by rw [decide_eq_decide, groupKey_eq_some]

theorem mem_dfAggAll {df : List MergedRow} {m : MeanRow} (h : m ∈ dfAggAll df) :
    samplesOf df m.windowId m.thread ≠ [] ∧
      ∀ c, m.value c = mean ((samplesOf df m.windowId m.thread).map fun r => sampleValue r c) := by
  obtain ⟨g, hg, rfl⟩ := List.mem_map.mp h
  have hne := ne_nil_of_mem_groupBy hg
  obtain ⟨-, hrows⟩ := mem_groupBy.mp hg
  rw [rowsOf_groupKey] at hrows
  refine ⟨hrows ▸ hne, fun c => ?_⟩
  unfold meanRow
  rw [hrows]

/-- The window and the thread of a row. -/
def MeanRow.key (m : MeanRow) : ℤ ×ₗ Text := toLex (m.windowId, m.thread)

theorem map_key_dfNormAll (df : List MergedRow) :
    (dfNormAll df).map MeanRow.key = groupKeys groupKey df := by
  unfold dfNormAll dfAggAll groupBy
  rw [List.map_map, List.map_map, List.map_map]
  exact List.map_id _

/-- What `df_norm_all` is of a dataset. -/
structure Normalised (df : List MergedRow) (t : List MeanRow) : Prop where
  ascending : (t.map MeanRow.key).Pairwise (· < ·)
  rows : ∀ w thread, (∃ m ∈ t, m.windowId = w ∧ m.thread = thread) ↔ samplesOf df w thread ≠ []
  counters : ∀ m ∈ t, ∀ e, Unit (m.value (some e))
  missing : ∀ m ∈ t, (∀ r ∈ samplesOf df m.windowId m.thread, ipc r = none) → m.value none = none
  ipc : (∀ r ∈ df, r.thread.val ≠ none → ipc r ≠ some ⊤) → ∀ m ∈ t,
    (∃ r ∈ samplesOf df m.windowId m.thread, ipc r ≠ none) → Unit (m.value none)
  lost : ∀ r ∈ df, r.thread.val ≠ none → Aggregation.ipc r = some ⊤ →
    ∀ m ∈ t, m.value none = none ∨ m.value none = some 0

section Table
variable {df : List MergedRow}

/-- A counter has no `inf` and no `NaN`. -/
theorem exists_counter {m : MeanRow} (h : m ∈ dfAggAll df) (e : Event) :
    ∃ x, m.value (some e) = some x ∧ x ≠ ⊤ := by
  obtain ⟨hne, hvalue⟩ := mem_dfAggAll h
  obtain ⟨r, hr⟩ := List.exists_mem_of_ne_nil _ hne
  rcases hx : m.value (some e) with _ | x
  · rw [hvalue, mean_eq_none_iff] at hx
    exact absurd (hx _ (List.mem_map_of_mem hr)) nofun
  · refine ⟨x, rfl, fun htop => ?_⟩
    rw [htop, hvalue, mean_eq_top_iff] at hx
    obtain ⟨r', -, heq⟩ := List.mem_map.mp hx
    exact WithTop.coe_ne_top (Option.some.inj heq)

/-- The mean `IPC` is infinite exactly if that of a sample is. -/
theorem top_mem_column_iff : ⊤ ∈ column (dfAggAll df) none ↔
    ∃ r ∈ df, r.thread.val ≠ none ∧ ipc r = some ⊤ := by
  rw [mem_column]
  constructor
  · rintro ⟨m, hm, htop⟩
    rw [(mem_dfAggAll hm).2, mean_eq_top_iff] at htop
    obtain ⟨r, hr, heq⟩ := List.mem_map.mp htop
    obtain ⟨hmem, hr⟩ := List.mem_filter.mp hr
    obtain ⟨-, hthread⟩ := of_decide_eq_true hr
    exact ⟨r, hmem, hthread ▸ nofun, heq⟩
  · rintro ⟨r, hr, hnamed, htop⟩
    obtain ⟨thread, hthread⟩ := Option.ne_none_iff_exists'.mp hnamed
    have hkey : groupKey r = some (toLex (windowId r, thread)) :=
      groupKey_eq_some.mpr ⟨rfl, hthread⟩
    have hg : (toLex (windowId r, thread), rowsOf groupKey df (toLex (windowId r, thread))) ∈
        groupBy groupKey df := mem_groupBy.mpr ⟨⟨r, hr, hkey⟩, rfl⟩
    have hrow : r ∈ rowsOf groupKey df (toLex (windowId r, thread)) := mem_rowsOf.mpr ⟨hr, hkey⟩
    exact ⟨_, List.mem_map_of_mem hg, mean_eq_top_iff.mpr (List.mem_map.mpr ⟨r, hrow, htop⟩)⟩

theorem exists_of_mem_dfNormAll {m : MeanRow} (h : m ∈ dfNormAll df) :
    ∃ m₀ ∈ dfAggAll df, m₀.windowId = m.windowId ∧ m₀.thread = m.thread ∧
      ∀ c, m.value c = normValue (dfAggAll df) m₀ c := by
  obtain ⟨m₀, hm₀, rfl⟩ := List.mem_map.mp h
  exact ⟨m₀, hm₀, rfl, rfl, fun _ => rfl⟩

/-- **The scaled table of a dataset.** -/
theorem normalised_dfNormAll (df : List MergedRow) : Normalised df (dfNormAll df) where
  ascending := by
    rw [map_key_dfNormAll]
    exact ascending_groupKeys groupKey df
  rows w thread := by
    have hkey : (∃ m ∈ dfNormAll df, m.windowId = w ∧ m.thread = thread) ↔
        toLex (w, thread) ∈ groupKeys groupKey df := by
      rw [← map_key_dfNormAll, List.mem_map]
      refine exists_congr fun m => and_congr_right fun _ => ?_
      rw [MeanRow.key, EmbeddingLike.apply_eq_iff_eq, Prod.mk.injEq]
    rw [hkey, mem_groupKeys, Ne, List.eq_nil_iff_forall_not_mem, not_forall_not]
    refine exists_congr fun r => ?_
    rw [groupKey_eq_some, samplesOf, List.mem_filter, decide_eq_true_eq]
    rfl
  counters m hm e := by
    obtain ⟨m₀, hm₀, -, -, hvalue⟩ := exists_of_mem_dfNormAll hm
    obtain ⟨x, hx, -⟩ := exists_counter hm₀ e
    have hfin : ⊤ ∉ column (dfAggAll df) (some e) := by
      intro htop
      obtain ⟨m₁, hm₁, heq⟩ := mem_column.mp htop
      obtain ⟨y, hy, hne⟩ := exists_counter hm₁ e
      exact hne (Option.some.inj (hy.symm.trans heq))
    rw [hvalue]
    exact unit_normValue hfin hm₀ hx
  missing m hm hnone := by
    obtain ⟨m₀, hm₀, hw, hthread, hvalue⟩ := exists_of_mem_dfNormAll hm
    have hx : m₀.value none = none := by
      rw [(mem_dfAggAll hm₀).2, mean_eq_none_iff, hw, hthread]
      intro x hx
      obtain ⟨r, hr, rfl⟩ := List.mem_map.mp hx
      exact hnone r hr
    rw [hvalue, normValue, hx]
    rcases (column (dfAggAll df) none).min? with _ | vmin <;>
      rcases (column (dfAggAll df) none).max? with _ | vmax <;> rfl
  ipc hfin m hm hsome := by
    obtain ⟨m₀, hm₀, hw, hthread, hvalue⟩ := exists_of_mem_dfNormAll hm
    obtain ⟨r, hr, hr'⟩ := hsome
    have hcol : ⊤ ∉ column (dfAggAll df) none := fun htop => by
      obtain ⟨r, hr, hnamed, heq⟩ := top_mem_column_iff.mp htop
      exact hfin r hr hnamed heq
    rcases hx : m₀.value none with _ | x
    · rw [(mem_dfAggAll hm₀).2, mean_eq_none_iff, hw, hthread] at hx
      exact absurd (hx _ (List.mem_map_of_mem hr)) hr'
    · rw [hvalue]
      exact unit_normValue hcol hm₀ hx
  lost r hr hnamed htop m hm := by
    obtain ⟨m₀, hm₀, -, -, hvalue⟩ := exists_of_mem_dfNormAll hm
    rw [hvalue]
    exact normValue_of_top (top_mem_column_iff.mpr ⟨r, hr, hnamed, htop⟩) hm₀

end Table

/-- **The scaled table**, in whatever order `merge_results.py` finds the scenes: one row for every
thread name and window with samples, in their order. The counters are in `[0, 1)`, and so is the
`IPC` where a sample has one, unless a single sample of the dataset has instructions and no cycles:
then every `IPC` is `0` or missing. -/
theorem dfNormAll_mergeResults {scenes scenes' : List SceneData} (h : scenes.Perm scenes') :
    dfNormAll (mergeResults scenes) = dfNormAll (mergeResults scenes') ∧
      Normalised (mergeResults scenes) (dfNormAll (mergeResults scenes)) :=
  ⟨dfNormAll_perm (h.flatMap_right mergeScene), normalised_dfNormAll _⟩

/-- A scene with one switch and one sample. -/
def recorded (name : Text) (read : name ∉ missingTokens) (comm : Text) : SceneData where
  name := name
  read := read
  samples := [⟨5, 0, fun _ => 3⟩]
  sched := [⟨4, some 0, some "swapper/0".toList, some 0, some comm, some 12⟩]

theorem dfNormAll_mergeResults_swapped :
    dfNormAll (mergeResults [recorded "io".toList (by decide) "sh".toList,
        recorded "cpu".toList (by decide) "dd".toList]) =
      dfNormAll (mergeResults [recorded "cpu".toList (by decide) "dd".toList,
        recorded "io".toList (by decide) "sh".toList]) ∧
      Normalised (mergeResults [recorded "io".toList (by decide) "sh".toList,
          recorded "cpu".toList (by decide) "dd".toList])
        (dfNormAll (mergeResults [recorded "io".toList (by decide) "sh".toList,
          recorded "cpu".toList (by decide) "dd".toList])) :=
  dfNormAll_mergeResults (List.Perm.swap _ _ _)

/-! ### The groups -/

def number (v : Value) : ℚ := (v.getD 0).untopD 0

/-- A row of a table without `inf` and `NaN`. -/
def aggRow (m : MeanRow) : AggRow Text Event where
  thread := m.thread
  ipcMean := number (m.value none)
  value e := number (m.value (some e))
  windowId := m.windowId

def normTable (df : List MergedRow) : List (AggRow Text Event) := (dfNormAll df).map aggRow

/-- No sample has instructions without cycles, and every thread of a window has a sample with
cycles. -/
structure Measured (df : List MergedRow) : Prop where
  finite : ∀ r ∈ df, r.thread.val ≠ none → ipc r ≠ some ⊤
  runs : ∀ w thread, samplesOf df w thread ≠ [] → ∃ r ∈ samplesOf df w thread, ipc r ≠ none

/-- The thread names that have samples in a window. -/
def threadsIn (df : List MergedRow) (w : ℤ) : Finset Text :=
  ((df.filter fun r => windowId r = w).filterMap fun r => r.thread.val).toFinset

theorem mem_threadsIn {df : List MergedRow} {w : ℤ} {thread : Text} :
    thread ∈ threadsIn df w ↔ samplesOf df w thread ≠ [] := by
  rw [threadsIn, List.mem_toFinset, List.mem_filterMap, samplesOf, Ne, List.filter_eq_nil_iff]
  simp only [List.mem_filter, decide_eq_true_eq, not_forall, not_not, and_assoc, exists_prop]

/-- Counted cycles are enough. -/
theorem measured_of_cycles {df : List MergedRow} (h : ∀ r ∈ df, r.counters .cpuCycles ≠ 0) :
    Measured df := by
  have hipc : ∀ r ∈ df, ∃ q : ℚ, ipc r = some (q : WithTop ℚ) :=
    fun r hr => ⟨_, if_neg (h r hr)⟩
  refine ⟨fun r hr _ htop => ?_, fun w thread hne => ?_⟩
  · obtain ⟨q, hq⟩ := hipc r hr
    exact WithTop.coe_ne_top (Option.some.inj (hq.symm.trans htop))
  · obtain ⟨r, hr⟩ := List.exists_mem_of_ne_nil _ hne
    obtain ⟨q, hq⟩ := hipc r (List.mem_of_mem_filter hr)
    exact ⟨r, hr, hq ▸ nofun⟩

section Windows
variable {df : List MergedRow}

theorem unit_value (h : Measured df) {m : MeanRow} (hm : m ∈ dfNormAll df) (c : Column) :
    Unit (m.value c) := by
  have hnorm := normalised_dfNormAll df
  cases c with
  | none => exact hnorm.ipc h.finite m hm (h.runs _ _ ((hnorm.rows _ _).mp ⟨m, hm, rfl, rfl⟩))
  | some e => exact hnorm.counters m hm e

theorem number_unit {v : Value} (h : Unit v) : v = some (number v : WithTop ℚ) ∧
    0 ≤ number v ∧ number v ≤ 1 := by
  obtain ⟨q, rfl, h0, h1⟩ := h
  exact ⟨rfl, h0, h1.le⟩

theorem mem_windowRows {w : ℤ} {r : NormRow Text Event} : r ∈ windowRows (normTable df) w ↔
    ∃ m ∈ dfNormAll df, m.windowId = w ∧ (aggRow m).toNormRow = r := by
  simp only [windowRows, normTable, List.mem_map, mem_rowsOf, Option.some_inj]
  constructor
  · rintro ⟨a, ⟨⟨m, hm, rfl⟩, hw⟩, rfl⟩
    exact ⟨m, hm, hw, rfl⟩
  · rintro ⟨m, hm, hw, rfl⟩
    exact ⟨aggRow m, ⟨⟨m, hm, rfl⟩, hw⟩, rfl⟩

/-- **A window has one row for each of its threads.** -/
theorem nodup_threads (df : List MergedRow) (w : ℤ) :
    ((windowRows (normTable df) w).map NormRow.thread).Nodup := by
  have hkeys : (dfNormAll df).Pairwise fun m m' => m.key < m'.key :=
    List.pairwise_map.mp (normalised_dfNormAll df).ascending
  rw [windowRows, rowsOf, normTable, List.filter_map, List.map_map, List.map_map, List.Nodup,
    List.pairwise_map]
  refine List.Pairwise.imp_of_mem ?_ (hkeys.filter _)
  intro m m' hm hm' hlt heq
  have hw : m.windowId = w := Option.some.inj (of_decide_eq_true (List.mem_filter.mp hm).2)
  have hw' : m'.windowId = w := Option.some.inj (of_decide_eq_true (List.mem_filter.mp hm').2)
  have hthread : m.thread = m'.thread := heq
  rw [MeanRow.key, MeanRow.key, hw, hw', hthread] at hlt
  exact lt_irrefl _ hlt

theorem toFinset_threads (df : List MergedRow) (w : ℤ) :
    ((windowRows (normTable df) w).map NormRow.thread).toFinset = threadsIn df w := by
  ext thread
  rw [mem_threadsIn, ← (normalised_dfNormAll df).rows, List.mem_toFinset, List.mem_map]
  constructor
  · rintro ⟨r, hr, rfl⟩
    obtain ⟨m, hm, hw, rfl⟩ := mem_windowRows.mp hr
    exact ⟨m, hm, hw, rfl⟩
  · rintro ⟨m, hm, hw, rfl⟩
    exact ⟨_, mem_windowRows.mpr ⟨m, hm, hw, rfl⟩, rfl⟩

theorem length_windowRows (df : List MergedRow) (w : ℤ) :
    (windowRows (normTable df) w).length = (threadsIn df w).card := by
  rw [← toFinset_threads, List.toFinset_card_of_nodup (nodup_threads df w), List.length_map]

theorem mem_largeWindows {k : ℕ} (hk : 0 < k) {w : ℤ} :
    w ∈ largeWindows (normTable df) k ↔ k ≤ (threadsIn df w).card := by
  rw [largeWindows, List.mem_filter, decide_eq_true_eq, length_windowRows, mem_groupKeys]
  refine and_iff_right_of_imp fun hle => ?_
  obtain ⟨thread, hthread⟩ := Finset.card_pos.mp (hk.trans_le hle)
  obtain ⟨m, hm, hw, -⟩ := ((normalised_dfNormAll df).rows w thread).mpr (mem_threadsIn.mp hthread)
  exact ⟨aggRow m, List.mem_map_of_mem hm, congrArg some hw⟩

end Windows

/-! ### The scores -/

section Score
variable {dfWindow : List (NormRow Text Event)} {alpha beta : ℚ} (halpha : 0 ≤ alpha)
  (hbeta : 0 ≤ beta)

theorem width_le_one {xs : List ℚ} (hne : xs ≠ []) (h : ∀ x ∈ xs, 0 ≤ x ∧ x ≤ 1) :
    width xs ≤ 1 := by
  obtain ⟨hi, hhi, lo, hlo, -, heq⟩ := exists_bounds hne
  have h1 := (h hi hhi).2
  have h0 := (h lo hlo).1
  rw [width, heq, Option.getD_some]
  linarith

include halpha hbeta in
/-- No group is worse than one with full ranges. -/
theorem le_groupScore {S : Finset Text} (hS : S.Nonempty)
    (hin : S ⊆ (dfWindow.map NormRow.thread).toFinset)
    (hunit : ∀ r ∈ dfWindow, (∀ e, 0 ≤ r.value e ∧ r.value e ≤ 1) ∧ 0 ≤ r.ipcMean ∧ r.ipcMean ≤ 1) :
    1 / (1 + 10 * alpha + beta) ≤ groupScore dfWindow resourceColsNorm alpha beta S := by
  have hne := rowsIn_ne_nil hS hin
  have hsub : ∀ r ∈ rowsIn dfWindow S, r ∈ dfWindow := fun r hr => List.mem_of_mem_filter hr
  have hoverlap : resourceOverlap resourceColsNorm (rowsIn dfWindow S) ≤ 10 := by
    have hsum := List.sum_le_card_nsmul
      (resourceColsNorm.map fun col => width ((rowsIn dfWindow S).map fun r => r.value col)) 1
      fun x hx => by
        obtain ⟨col, -, rfl⟩ := List.mem_map.mp hx
        refine width_le_one (by simpa using hne) fun y hy => ?_
        obtain ⟨r, hr, rfl⟩ := List.mem_map.mp hy
        exact (hunit r (hsub r hr)).1 col
    rw [List.length_map, nsmul_one] at hsum
    exact hsum
  have hgap : width ((rowsIn dfWindow S).map NormRow.ipcMean) ≤ 1 := by
    refine width_le_one (by simpa using hne) fun y hy => ?_
    obtain ⟨r, hr, rfl⟩ := List.mem_map.mp hy
    exact (hunit r (hsub r hr)).2
  have hcost := overlap_nonneg resourceColsNorm halpha hbeta hne
  have hover := mul_le_mul_of_nonneg_left hoverlap halpha
  have hbound := mul_le_mul_of_nonneg_left hgap hbeta
  unfold groupScore
  exact one_div_le_one_div_of_le (by linarith) (by linarith)

end Score

/-- The group of a window. -/
structure GroupOf (df : List MergedRow) (k : ℕ) (alpha beta : ℚ) (g : BestGroup Text) : Prop where
  length : g.bestGroup.length = k
  nodup : g.bestGroup.Nodup
  sampled : ∀ thread ∈ g.bestGroup, samplesOf df g.windowId thread ≠ []
  score : ∃ c, g.cGroup = some c ∧ 1 / (1 + 10 * alpha + beta) ≤ c ∧ c ≤ 1

section Groups
variable {df : List MergedRow} (h : Measured df) {alpha beta : ℚ} (halpha : 0 ≤ alpha)
  (hbeta : 0 ≤ beta) {k : ℕ} (hk : 2 ≤ k) (o : WindowOrders (normTable df))
include h halpha hbeta hk

theorem exists_groupOf {w : ℤ} (hw : k ≤ (threadsIn df w).card) :
    ∃ g : BestGroup Text, (greedySelectNorm (o w).enum (windowRows (normTable df) w)
        ((windowRows (normTable df) w).map NormRow.thread) k resourceColsNorm alpha beta).map
          (fun r => ⟨w, r.1, r.2⟩) = some g ∧ g.windowId = w ∧ GroupOf df k alpha beta g := by
  obtain ⟨group, cGroup, heq, hsel⟩ := exists_selected resourceColsNorm halpha hbeta
    (nodup_threads df w) (o w) hk (length_windowRows df w ▸ hw)
  have hne : group ≠ [] := List.ne_nil_of_length_pos (by rw [hsel.length]; omega)
  have hscore : computeGroupComplementarityNorm (windowRows (normTable df) w) group
      resourceColsNorm alpha beta = some (groupScore (windowRows (normTable df) w) resourceColsNorm
        alpha beta group.toFinset) := compute_eq hsel.nodup hne hsel.subset
  have hin : group.toFinset ⊆ ((windowRows (normTable df) w).map NormRow.thread).toFinset :=
    toFinset_subset hsel.subset
  have hunit : ∀ r ∈ windowRows (normTable df) w,
      (∀ e, 0 ≤ r.value e ∧ r.value e ≤ 1) ∧ 0 ≤ r.ipcMean ∧ r.ipcMean ≤ 1 := by
    intro r hr
    obtain ⟨m, hm, -, rfl⟩ := mem_windowRows.mp hr
    exact ⟨fun e => (number_unit (unit_value h hm (some e))).2,
      (number_unit (unit_value h hm none)).2⟩
  have hS := (List.toFinset_nonempty_iff group).mpr hne
  refine ⟨⟨w, group, cGroup⟩, by rw [heq]; rfl, rfl, hsel.length, hsel.nodup, fun thread ht => ?_,
    _, hsel.scored.trans hscore, le_groupScore halpha hbeta hS hin hunit,
    groupScore_le_one halpha hbeta hS hin⟩
  rw [← mem_threadsIn, ← toFinset_threads]
  exact hin (List.mem_toFinset.mpr ht)

theorem exists_groups : ∀ {wins : List ℤ}, (∀ w ∈ wins, k ≤ (threadsIn df w).card) →
    ∃ results : List (BestGroup Text), wins.mapM (fun w =>
        (greedySelectNorm (o w).enum (windowRows (normTable df) w)
          ((windowRows (normTable df) w).map NormRow.thread) k resourceColsNorm alpha beta).map
            fun r => (⟨w, r.1, r.2⟩ : BestGroup Text)) = some results ∧
      results.map BestGroup.windowId = wins ∧ ∀ g ∈ results, GroupOf df k alpha beta g
  | [], _ => ⟨[], rfl, rfl, nofun⟩
  | w :: wins, hwins => by
    obtain ⟨g, hg, hwg, hgroup⟩ := exists_groupOf h halpha hbeta hk o (hwins w List.mem_cons_self)
    obtain ⟨results, hres, hmap, hall⟩ :=
      exists_groups fun w' hw' => hwins w' (List.mem_cons_of_mem _ hw')
    refine ⟨g :: results, ?_, ?_, List.forall_mem_cons.mpr ⟨hgroup, hall⟩⟩
    · rw [List.mapM_cons, hg, hres]
      rfl
    · rw [List.map_cons, hwg, hmap]

/-- **From the dataset to the groups.** The table has numbers only, and for every order in which the
sets are enumerated the run ends with one group for each window in which at least `k` thread names
have samples, in their order: `k` of these names, with a score from `1 / (1 + 10 alpha + beta)`
to 1. -/
theorem bestGroups_dataset :
    (∀ m ∈ dfNormAll df, ∀ c, m.value c = some (number (m.value c) : WithTop ℚ)) ∧
      ∃ results, bestGroups (normTable df) o k resourceColsNorm alpha beta = some results ∧
        (results.map BestGroup.windowId).Pairwise (· < ·) ∧
        (∀ w, w ∈ results.map BestGroup.windowId ↔ k ≤ (threadsIn df w).card) ∧
        ∀ g ∈ results, GroupOf df k alpha beta g := by
  have hlarge : ∀ w, w ∈ largeWindows (normTable df) k ↔ k ≤ (threadsIn df w).card :=
    fun w => mem_largeWindows (by omega)
  obtain ⟨results, hrun, hmap, hall⟩ :=
    exists_groups h halpha hbeta hk o fun w hw => (hlarge w).mp hw
  refine ⟨fun m hm c => (number_unit (unit_value h hm c)).1, results, hrun, ?_, fun w => ?_, hall⟩
  · rw [hmap]
    exact (ascending_groupKeys _ _).filter _
  · rw [hmap]
    exact hlarge w

end Groups

/-- Three threads in a window, and one of them in the next. -/
def fourSamples : List MergedRow :=
  [("sh", 5, 3), ("dd", 6, 4), ("sshd", 7, 9), ("sh", 100000005, 2)].map
    fun s : String × ℤ × ℕ => {
      ts := s.2.1
      cpu := 0
      counters := fun _ => s.2.2
      thread := Cell.ofCsv s.1.toList
      pid := some 12
      loadType := "cpu".toList }

theorem bestGroups_dataset_fourSamples :
    (∀ m ∈ dfNormAll fourSamples, ∀ c, m.value c = some (number (m.value c) : WithTop ℚ)) ∧
      ∃ results, bestGroups (normTable fourSamples)
          (fun w => SetOrder.ofList _ (nodup_threads fourSamples w) rfl) 2 resourceColsNorm 1 1 =
            some results ∧
        (results.map BestGroup.windowId).Pairwise (· < ·) ∧
        (∀ w, w ∈ results.map BestGroup.windowId ↔ 2 ≤ (threadsIn fourSamples w).card) ∧
        ∀ g ∈ results, GroupOf fourSamples 2 1 1 g :=
  bestGroups_dataset (measured_of_cycles (by decide)) one_pos.le one_pos.le le_rfl _

end Magm.Groups.Aggregation
