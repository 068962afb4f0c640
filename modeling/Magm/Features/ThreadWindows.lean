import Magm.Features.Dataset
import Magm.Lib.GroupBy
import Magm.Lib.PyStr
import Magm.Planner.Score
import Magm.Table.Names
import Mathlib.Tactic.NormNum
import Mathlib.Tactic.Positivity

/-! # Thread windows: `build_windows`

`build_windows` of `build_thread_windows.py` sums the counters of every thread over windows of
`window_ns` nanoseconds, derives the features and keeps the windows with instructions and cycles.
The quotients are exact here; a quotient by zero is missing, as are the `nan` and `inf` of the
source after `replace` and `dropna`. The counters are sums of integers and never negative, so this
drops nothing. -/

namespace Magm.Features.ThreadWindows

open Magm.Lib.Chars Magm.Lib.PyStr Magm.Lib.Sorting Magm.Lib.GroupBy Magm.Table.Names
open Magm.Planner.Score Magm.Collect.Attribution Magm.Features.Dataset

/-! ### The sums -/

/-- A row of the grouped table. -/
structure WindowSum where
  loadType : Text
  threadKey : Text
  windowId : ℤ
  counters : Event → ℕ
  cpu : ℤ
  ts : ℤ
  thread : Text
  pid : ℤ

/-- The columns `build_windows` groups by. -/
def groupKey (windowNs : ℤ) (r : DataRow) : Text ×ₗ Text ×ₗ ℤ :=
  toLex (r.loadType, toLex (threadKeyText r.loadType r.pid r.thread, r.ts.fdiv windowNs))

/-- The row of a group: sums, the earliest time, and the other columns of its first row. -/
def windowSum (k : Text ×ₗ Text ×ₗ ℤ) (grp : List DataRow) : Option WindowSum :=
  grp.head?.map fun first =>
    { loadType := (ofLex k).1
      threadKey := (ofLex (ofLex k).2).1
      windowId := (ofLex (ofLex k).2).2
      counters := fun e => (grp.map fun r => r.counters e).sum
      cpu := first.cpu
      ts := grp.foldl (fun t r => min t r.ts) first.ts
      thread := first.thread
      pid := first.pid }

def WindowSum.key (w : WindowSum) : Text ×ₗ Text ×ₗ ℤ :=
  toLex (w.loadType, toLex (w.threadKey, w.windowId))

/-- `groupby`, `agg` and `sort_values`. -/
def aggregate (df : List DataRow) (windowNs : ℤ) : List WindowSum :=
  sortBy WindowSum.key
    ((groupBy (fun r => some (groupKey windowNs r)) df).filterMap fun g => windowSum g.1 g.2)

/-! ### The features -/

def eps : ℚ := 1 / 10 ^ 9

/-- A quotient of two columns. -/
def quot (a b : ℚ) : Option ℚ := if b = 0 then none else some (a / b)

def instK (w : WindowSum) : ℚ := (w.counters .instructions : ℚ) / 1000 + eps

def feature (w : WindowSum) : Feature → Option ℚ
  | .IPC => quot (w.counters .instructions) (w.counters .cpuCycles + eps)
  | .MPKI_LLC => quot (w.counters .cacheMisses) (instK w)
  | .MPKI_L1I => quot (w.counters .l1IcacheMiss) (instK w)
  | .MPKI_L1D => quot (w.counters .l1DcacheMiss) (instK w)
  | .MPKI_L2 => quot (w.counters .l2CacheMiss) (instK w)
  | .BrMPKI => quot (w.counters .branchMisses) (instK w)
  | .MPKI_TLB => quot (w.counters .itlbMisses + w.counters .dtlbMisses) (instK w)

/-- A row of `thread_windows.csv`. -/
structure ThreadWindow where
  sum : WindowSum
  feature : Feature → ℚ

/-- `dropna(subset=FEATURE_COLS)` on one row. -/
def withFeatures (w : WindowSum) : Option ThreadWindow :=
  if ∀ f ∈ featureCols, (feature w f).isSome then some ⟨w, fun f => (feature w f).getD 0⟩ else none

/-- A window in which the thread ran. -/
def Ran (w : WindowSum) : Prop := 0 < w.counters .instructions ∧ 0 < w.counters .cpuCycles

instance (w : WindowSum) : Decidable (Ran w) := by unfold Ran; infer_instance

/-- `thread_windows.csv`. -/
def rawWindows (df : List DataRow) (windowNs : ℤ) : List ThreadWindow :=
  ((aggregate df windowNs).filterMap withFeatures).filter fun w => Ran w.sum

section Features
variable {w : WindowSum}

theorem eps_pos : 0 < eps := by unfold eps; norm_num

theorem quot_eq {a b : ℚ} (h : 0 < b) : quot a b = some (a / b) := if_neg h.ne'

theorem instK_pos (w : WindowSum) : 0 < instK w := by
  have := eps_pos
  unfold instK
  positivity

theorem isSome_feature (w : WindowSum) (f : Feature) : (feature w f).isSome := by
  have hcycles : 0 < (w.counters .cpuCycles : ℚ) + eps := by
    have := eps_pos
    positivity
  cases f <;> simp only [feature, quot_eq hcycles, quot_eq (instK_pos w), Option.isSome_some]

/-- No feature is ever missing. -/
theorem withFeatures_eq (w : WindowSum) :
    withFeatures w = some ⟨w, fun f => (feature w f).getD 0⟩ :=
  if_pos fun f _ => isSome_feature w f

theorem map_sum_rawWindows (df : List DataRow) (windowNs : ℤ) :
    (rawWindows df windowNs).map ThreadWindow.sum =
      (aggregate df windowNs).filter fun w => Ran w := by
  have hall : (aggregate df windowNs).filterMap withFeatures =
      (aggregate df windowNs).map fun w => ⟨w, fun f => (feature w f).getD 0⟩ := by
    rw [← List.filterMap_eq_map]
    exact List.filterMap_congr fun w _ => withFeatures_eq w
  rw [rawWindows, hall, List.filter_map, List.map_map]
  exact List.map_id _

theorem mem_rawWindows {df : List DataRow} {windowNs : ℤ} {t : ThreadWindow}
    (h : t ∈ rawWindows df windowNs) : t.sum ∈ aggregate df windowNs ∧ Ran t.sum := by
  have hmem : t.sum ∈ (rawWindows df windowNs).map ThreadWindow.sum := List.mem_map.mpr ⟨t, h, rfl⟩
  rw [map_sum_rawWindows, List.mem_filter, decide_eq_true_eq] at hmem
  exact hmem

theorem feature_of_mem {df : List DataRow} {windowNs : ℤ} {t : ThreadWindow}
    (h : t ∈ rawWindows df windowNs) : t.feature = fun f => (feature t.sum f).getD 0 := by
  obtain ⟨w, -, hw⟩ := List.mem_filterMap.mp (List.mem_filter.mp h).1
  rw [withFeatures_eq] at hw
  obtain rfl := Option.some.inj hw
  rfl

theorem exists_rawWindow {df : List DataRow} {windowNs : ℤ} (h : w ∈ aggregate df windowNs)
    (hran : Ran w) : ∃ t ∈ rawWindows df windowNs, t.sum = w := by
  have hmem : w ∈ (rawWindows df windowNs).map ThreadWindow.sum := by
    rw [map_sum_rawWindows, List.mem_filter, decide_eq_true_eq]
    exact ⟨h, hran⟩
  exact List.mem_map.mp hmem

end Features

/-! ### The groups -/

/-- What a window is about: a thread of a scene, and a time. -/
structure Group where
  loadType : Text
  pid : ℤ
  thread : Text
  windowId : ℤ
  deriving DecidableEq

def rowGroup (windowNs : ℤ) (r : DataRow) : Group :=
  ⟨r.loadType, r.pid, r.thread, r.ts.fdiv windowNs⟩

def WindowSum.group (w : WindowSum) : Group := ⟨w.loadType, w.pid, w.thread, w.windowId⟩

/-- **A thread key tells pid and name.** -/
theorem threadKeyText_inj {loadType thread thread' : Text} {pid pid' : ℤ} :
    threadKeyText loadType pid thread = threadKeyText loadType pid' thread' ↔
      pid = pid' ∧ thread = thread' := by
  constructor
  · intro h
    have hno : ∀ z, ':' ∉ dec z := by
      intro z hz
      rcases mem_dec hz with hm | hd
      · exact absurd hm (by decide)
      · exact absurd hd (by decide)
    simp only [threadKeyText, List.append_assoc, List.append_cancel_left_eq] at h
    have hsplit := congrArg (splitMax ':' 1) h
    rw [splitMax_append (hno pid), splitMax_append (hno pid'), List.cons.injEq] at hsplit
    refine ⟨?_, (List.cons.inj hsplit.2).1⟩
    have hread := congrArg readDec hsplit.1
    rw [readDec_dec, readDec_dec] at hread
    exact Option.some.inj hread
  · rintro ⟨rfl, rfl⟩
    rfl

theorem groupKey_inj {windowNs : ℤ} {r r' : DataRow} :
    groupKey windowNs r = groupKey windowNs r' ↔ rowGroup windowNs r = rowGroup windowNs r' := by
  unfold groupKey rowGroup
  rw [toLex_inj, Prod.mk.injEq, toLex_inj, Prod.mk.injEq, Group.mk.injEq]
  constructor
  · rintro ⟨hload, hkey, hwin⟩
    rw [hload, threadKeyText_inj] at hkey
    exact ⟨hload, hkey.1, hkey.2, hwin⟩
  · rintro ⟨hload, hpid, hthread, hwin⟩
    rw [hload, hpid, hthread, hwin]
    exact ⟨rfl, rfl, rfl⟩

/-- What a row of the grouped table says. -/
structure SumOf (df : List DataRow) (windowNs : ℤ) (w : WindowSum) : Prop where
  row : ∃ r ∈ df, rowGroup windowNs r = w.group
  threadKey : w.threadKey = threadKeyText w.loadType w.pid w.thread
  counters : ∀ e, w.counters e =
    ((df.filter fun r => rowGroup windowNs r = w.group).map fun r => r.counters e).sum

section Groups
variable {df : List DataRow} {windowNs : ℤ}

theorem windowSum_groupBy {g} {w : WindowSum}
    (hg : g ∈ groupBy (fun r => some (groupKey windowNs r)) df) (hw : windowSum g.1 g.2 = some w) :
    w.key = g.1 ∧ SumOf df windowNs w := by
  obtain ⟨-, hrows⟩ := mem_groupBy.mp hg
  obtain ⟨first, hfirst, rfl⟩ := Option.map_eq_some_iff.mp hw
  have hmem : first ∈ rowsOf (fun r => some (groupKey windowNs r)) df g.1 := by
    rw [← hrows]
    exact List.mem_of_mem_head? hfirst
  obtain ⟨hdf, hkey⟩ := mem_rowsOf.mp hmem
  have hk : groupKey windowNs first = g.1 := Option.some.inj hkey
  have hgroup : rowGroup windowNs first =
      ⟨(ofLex g.1).1, first.pid, first.thread, (ofLex (ofLex g.1).2).2⟩ := by
    rw [← hk]
    rfl
  refine ⟨rfl, ⟨first, hdf, hgroup⟩, ?_, fun e => ?_⟩
  · simp only [← hk]
    rfl
  · have hfilter : g.2 = df.filter fun r => rowGroup windowNs r = rowGroup windowNs first := by
      rw [hrows]
      refine List.filter_congr fun r _ => decide_eq_decide.mpr ?_
      rw [Option.some_inj, ← hk, groupKey_inj]
    rw [hgroup] at hfilter
    exact congrArg (fun grp => (grp.map fun r => r.counters e).sum) hfilter

/-- No group is empty. -/
theorem exists_windowSum {g} (hg : g ∈ groupBy (fun r => some (groupKey windowNs r)) df) :
    ∃ w, windowSum g.1 g.2 = some w := by
  obtain ⟨first, l, hl⟩ := List.exists_cons_of_ne_nil (ne_nil_of_mem_groupBy hg)
  exact ⟨_, by rw [windowSum, hl]; rfl⟩

theorem mem_aggregate {w : WindowSum} (h : w ∈ aggregate df windowNs) : SumOf df windowNs w := by
  unfold aggregate at h
  rw [mem_sortBy, List.mem_filterMap] at h
  obtain ⟨g, hg, hw⟩ := h
  exact (windowSum_groupBy hg hw).2

/-- **Every row is in a group.** -/
theorem exists_aggregate (windowNs : ℤ) {r : DataRow} (h : r ∈ df) :
    ∃ w ∈ aggregate df windowNs, w.group = rowGroup windowNs r := by
  have hg :
      (groupKey windowNs r, rowsOf (fun r => some (groupKey windowNs r)) df (groupKey windowNs r)) ∈
      groupBy (fun r => some (groupKey windowNs r)) df := mem_groupBy.mpr ⟨⟨r, h, rfl⟩, rfl⟩
  obtain ⟨w, hw⟩ := exists_windowSum hg
  obtain ⟨hkey, hsum⟩ := windowSum_groupBy hg hw
  refine ⟨w, ?_, ?_⟩
  · unfold aggregate
    rw [mem_sortBy, List.mem_filterMap]
    exact ⟨_, hg, hw⟩
  · obtain ⟨r', -, hr'⟩ := hsum.row
    have hw' : w.key = groupKey windowNs r' := by
      have hkeytext := hsum.threadKey
      rw [WindowSum.group, rowGroup, Group.mk.injEq] at hr'
      rw [WindowSum.key, groupKey, hkeytext, hr'.1, hr'.2.1, hr'.2.2.1, hr'.2.2.2]
    rw [← hr', ← groupKey_inj, ← hw', hkey]

/-- **A group has one row.** -/
theorem nodup_aggregate (df : List DataRow) (windowNs : ℤ) :
    ((aggregate df windowNs).map WindowSum.key).Nodup := by
  unfold aggregate
  rw [((sortBy_perm _ _).map _).nodup_iff, List.map_filterMap]
  have hkeys : (groupBy (fun r => some (groupKey windowNs r)) df).filterMap
      (fun g => (windowSum g.1 g.2).map WindowSum.key) =
        (groupBy (fun r => some (groupKey windowNs r)) df).map Prod.fst := by
    rw [← List.filterMap_eq_map]
    refine List.filterMap_congr fun g hg => ?_
    obtain ⟨w, hw⟩ := exists_windowSum hg
    rw [hw, Option.map_some, (windowSum_groupBy hg hw).1]
    rfl
  rw [hkeys]
  exact nodup_fst_groupBy _ _

/-- Windows of one group are one window. -/
theorem key_of_group {w w' : WindowSum} (hw : w ∈ aggregate df windowNs)
    (hw' : w' ∈ aggregate df windowNs) (h : w.group = w'.group) : w.key = w'.key := by
  have hkey := (mem_aggregate hw).threadKey
  have hkey' := (mem_aggregate hw').threadKey
  rw [WindowSum.group, WindowSum.group, Group.mk.injEq] at h
  rw [WindowSum.key, WindowSum.key, hkey, hkey', h.1, h.2.1, h.2.2.1, h.2.2.2]

theorem nodup_rawWindows (df : List DataRow) (windowNs : ℤ) :
    ((rawWindows df windowNs).map fun w => w.sum.key).Nodup := by
  have hmap : ((rawWindows df windowNs).map fun w => w.sum.key) =
      ((aggregate df windowNs).filter fun w => Ran w).map WindowSum.key := by
    rw [← map_sum_rawWindows, List.map_map]
    rfl
  rw [hmap]
  exact (nodup_aggregate _ _).sublist (List.filter_sublist.map _)

end Groups

end Magm.Features.ThreadWindows
