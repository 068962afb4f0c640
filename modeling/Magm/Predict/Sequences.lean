import Magm.Lib.Ascending
import Magm.Lib.GroupBy
import Magm.Lib.History
import Magm.Lib.Sorting
import Magm.Planner.Score
import Mathlib.Data.Prod.Lex

/-! # Sequences: `build_sequences`

`build_sequences` of `train_thread_predictor.py` turns the windows of every thread into the rows of
the predictor, for training and for inference: the `hist_len` windows in front of a window are the
input and the window itself is the target. The inner sort by `window_id` is not stable, so it may be
any correct sort. No feature is missing, as `build_windows` drops the windows that lack one. -/

namespace Magm.Predict.Sequences

open Magm.Lib.Chars Magm.Lib.Sorting Magm.Lib.GroupBy Magm.Lib.History Magm.Lib.Ascending
open Magm.Table.Cells Magm.Planner.Score

/-! ### The tables -/

/-- A row of `thread_windows_norm.csv`; `norm f` is the column `<f>_norm`. -/
structure WindowRow where
  loadType : Cell
  threadKey : Cell
  thread : Cell
  pid : ℤ
  cpu : ℤ
  windowId : ℤ
  stateLabel : Cell
  norm : Feature → ℚ

/-- The columns of `sort_cols`. -/
def WindowRow.sortCols (r : WindowRow) : WithTop Text ×ₗ WithTop Text ×ₗ ℤ :=
  toLex (r.loadType.sortKey, toLex (r.threadKey.sortKey, r.windowId))

/-- What a window is about. -/
def WindowRow.key (r : WindowRow) : Cell × ℤ := (r.threadKey, r.windowId)

/-- A sequence; `x` are the columns `x_<i>` and `y` the columns `y_<f>_norm`. -/
structure SeqRow where
  threadKey : Text
  loadType : Cell
  thread : Cell
  pid : ℤ
  cpu : ℤ
  windowId : ℤ
  stateTrue : Cell
  seqPos : ℕ
  seqLen : ℕ
  x : List ℚ
  y : List (Feature × ℚ)

/-! ### The function -/

/-- A row of `grp[FEATURE_COLS].to_numpy()`. -/
def featureValues (w : WindowRow) : List ℚ := featureCols.map w.norm

/-- The sequence for the window at `pos`. -/
def sequenceRow (threadKey : Text) (grp : List WindowRow) (histLen pos : ℕ) : Option SeqRow :=
  grp[pos]?.map fun target =>
    { threadKey := threadKey
      loadType := target.loadType
      thread := target.thread
      pid := target.pid
      cpu := target.cpu
      windowId := target.windowId
      stateTrue := target.stateLabel
      seqPos := pos
      seqLen := grp.length
      x := (history histLen pos (grp.map featureValues)).flatten
      y := featureCols.zip (featureValues target) }

/-- The sequences of a group. -/
def groupSequences (threadKey : Text) (grp : List WindowRow) (histLen : ℕ) : List SeqRow :=
  if grp.length ≤ histLen then []
  else (List.range' histLen (grp.length - histLen)).filterMap fun pos =>
    sequenceRow threadKey grp histLen pos

def threadOf (r : WindowRow) : Option Text := r.threadKey.val

/-- `build_sequences`. -/
def buildSequences (inner : Sorter (KeyLe WindowRow.windowId)) (df : List WindowRow)
    (histLen : ℕ) : List SeqRow :=
  (groupByFirst threadOf (sortBy WindowRow.sortCols df)).flatMap fun g =>
    groupSequences g.1 (inner.run g.2) histLen

/-- The sequences of a thread. -/
def threadSequences (inner : Sorter (KeyLe WindowRow.windowId)) (df : List WindowRow)
    (histLen : ℕ) (k : Text) : List SeqRow :=
  rowsOf (fun s => some s.threadKey) (buildSequences inner df histLen) k

/-! ### The windows of a thread -/

/-- The windows of a thread in time order. -/
structure Series (df : List WindowRow) (k : Text) (ws : List WindowRow) : Prop where
  perm : ws.Perm (rowsOf threadOf df k)
  ascending : ws.Pairwise fun v w => v.windowId < w.windowId

namespace Series

variable {df ws : List WindowRow} {k : Text} (h : Series df k ws)
include h

theorem length_eq : ws.length = (rowsOf threadOf df k).length := h.perm.length_eq

end Series

/-- **The time order of a thread is what the two sorts make of it.** -/
theorem series_run (inner : Sorter (KeyLe WindowRow.windowId)) {df : List WindowRow}
    (hdf : (df.map WindowRow.key).Nodup) (k : Text) :
    Series df k (inner.run (rowsOf threadOf (sortBy WindowRow.sortCols df) k)) := by
  set grp := rowsOf threadOf (sortBy WindowRow.sortCols df) k with hgrp
  have hperm : (inner.run grp).Perm (rowsOf threadOf df k) :=
    (inner.perm grp).trans ((sortBy_perm _ df).filter _)
  have hnodup : ((inner.run grp).map WindowRow.key).Nodup :=
    (hperm.map _).nodup_iff.mpr (hdf.sublist (List.filter_sublist.map _))
  have hthread : ∀ w ∈ inner.run grp, threadOf w = some k := by
    intro w hw
    exact (mem_rowsOf.mp (inner.mem_run.mp hw)).2
  refine ⟨hperm, ?_⟩
  have hne := List.pairwise_map.mp hnodup
  refine ((inner.sorted grp).and hne).imp_of_mem ?_
  rintro v w hv hw ⟨hle, hkey⟩
  refine lt_of_le_of_ne hle fun hid => hkey ?_
  have hcell : v.threadKey = w.threadKey := by
    ext1
    exact (hthread v hv).trans (hthread w hw).symm
  exact Prod.ext hcell hid

/-! ### The sequences of a thread -/

/-- The columns that are those of the target. -/
structure TargetOf (w : WindowRow) (s : SeqRow) : Prop where
  loadType : s.loadType = w.loadType
  thread : s.thread = w.thread
  pid : s.pid = w.pid
  cpu : s.cpu = w.cpu
  windowId : s.windowId = w.windowId
  stateTrue : s.stateTrue = w.stateLabel
  y : s.y = featureCols.map fun f => (f, w.norm f)

/-- The row for the window at place `p` of a thread. -/
structure SequenceOf (ws : List WindowRow) (histLen p : ℕ) (s : SeqRow) : Prop where
  target : ∃ w, ws[p]? = some w ∧ TargetOf w s
  length_x : s.x.length = 7 * histLen
  input : ∀ j < histLen, ∃ v, ws[p - histLen + j]? = some v ∧ v.windowId < s.windowId ∧
    ∀ i f, featureCols[i]? = some f → s.x[7 * j + i]? = some (v.norm f)
  seqPos : s.seqPos = p
  seqLen : s.seqLen = ws.length

theorem length_featureValues (w : WindowRow) : (featureValues w).length = 7 := rfl

theorem zip_featureValues (w : WindowRow) :
    featureCols.zip (featureValues w) = featureCols.map fun f => (f, w.norm f) := rfl

section Groups
variable {df ws : List WindowRow} {k : Text} {histLen p : ℕ}

theorem length_of_mem_history : ∀ l ∈ history histLen p (ws.map featureValues), l.length = 7 := by
  intro l hl
  obtain ⟨w, -, rfl⟩ := List.mem_map.mp (List.mem_of_mem_take (List.mem_of_mem_drop hl))
  exact length_featureValues w

/-- What is in the columns `x_<i>`. -/
theorem getElem?_input (hp : histLen ≤ p) {j i : ℕ} (hj : j < histLen) {v : WindowRow}
    (hv : ws[p - histLen + j]? = some v) {f : Feature} (hf : featureCols[i]? = some f) :
    (history histLen p (ws.map featureValues)).flatten[7 * j + i]? = some (v.norm f) := by
  have hi : i < 7 := (List.getElem?_eq_some_iff.mp hf).1
  rw [getElem?_flatten hi j length_of_mem_history, getElem?_history hp hj, List.getElem?_map, hv,
    Option.map_some, Option.bind_some, featureValues, List.getElem?_map, hf]
  rfl

theorem length_input (hp : histLen ≤ p) (hw : p ≤ ws.length) :
    (history histLen p (ws.map featureValues)).flatten.length = 7 * histLen := by
  rw [length_flatten length_of_mem_history,
    length_history hp (by rw [List.length_map]; exact hw)]

theorem sequenceOf_sequenceRow (h : Series df k ws) (hp : histLen ≤ p) (hlt : p < ws.length) :
    ∃ s, sequenceRow k ws histLen p = some s ∧ SequenceOf ws histLen p s := by
  have hw : ws[p]? = some ws[p] := List.getElem?_eq_getElem hlt
  refine ⟨_, by rw [sequenceRow, hw]; rfl, ?_⟩
  refine ⟨⟨ws[p], hw, ⟨rfl, rfl, rfl, rfl, rfl, rfl, zip_featureValues _⟩⟩,
    length_input hp hlt.le, fun j hj => ?_, rfl, rfl⟩
  have hv : ws[p - histLen + j]? = some ws[p - histLen + j] := List.getElem?_eq_getElem (by omega)
  exact ⟨_, hv, key_lt h.ascending hv hw (by omega), fun i f hf => getElem?_input hp hj hv hf⟩

theorem forall₂_groupSequences (h : Series df k ws) (histLen : ℕ) :
    List.Forall₂ (SequenceOf ws histLen) (List.range' histLen (ws.length - histLen))
      (groupSequences k ws histLen) := by
  unfold groupSequences
  split_ifs with hshort
  · rw [Nat.sub_eq_zero_of_le hshort]
    exact List.Forall₂.nil
  · refine forall₂_filterMap fun p hp => ?_
    rw [List.mem_range'_1] at hp
    exact sequenceOf_sequenceRow h hp.1 (by omega)

end Groups

/-- The sequences of a thread are made from the windows of the thread alone. -/
theorem threadSequences_eq (inner : Sorter (KeyLe WindowRow.windowId)) (df : List WindowRow)
    (histLen : ℕ) (k : Text) :
    threadSequences inner df histLen k =
      groupSequences k (inner.run (rowsOf threadOf (sortBy WindowRow.sortCols df) k)) histLen := by
  have hkey : ∀ g : Text × List WindowRow,
      ∀ s ∈ groupSequences g.1 (inner.run g.2) histLen, some s.threadKey = some g.1 := by
    intro g s hs
    unfold groupSequences at hs
    split_ifs at hs
    · exact absurd hs List.not_mem_nil
    · obtain ⟨p, -, hrow⟩ := List.mem_filterMap.mp hs
      obtain ⟨target, -, rfl⟩ := Option.map_eq_some_iff.mp hrow
      rfl
  have hnil : ∀ k, groupSequences k (inner.run []) histLen = [] := by
    intro k
    exact if_pos (by rw [inner.length_run]; exact Nat.zero_le _)
  exact rowsOf_flatMap_groupByFirst hkey hnil _ k

theorem exists_series (inner : Sorter (KeyLe WindowRow.windowId)) {df : List WindowRow}
    (hdf : (df.map WindowRow.key).Nodup) (histLen : ℕ) (k : Text) :
    ∃ ws, Series df k ws ∧ List.Forall₂ (SequenceOf ws histLen)
      (List.range' histLen (ws.length - histLen)) (threadSequences inner df histLen k) := by
  have hseries := series_run inner hdf k
  rw [threadSequences_eq]
  exact ⟨_, hseries, forall₂_groupSequences hseries histLen⟩

/-- **The sequences of a thread** are, in time order, one for each window with `hist_len` windows in
front of it: these windows are the input and the window is the target. -/
theorem buildSequences_complete (inner : Sorter (KeyLe WindowRow.windowId)) {df : List WindowRow}
    (hdf : (df.map WindowRow.key).Nodup) (histLen : ℕ) (k : Text) :
    ∃ ws, Series df k ws ∧ (threadSequences inner df histLen k).length = ws.length - histLen ∧
      List.Forall₂ (SequenceOf ws histLen) (List.range' histLen (ws.length - histLen))
        (threadSequences inner df histLen k) := by
  obtain ⟨ws, hseries, hrows⟩ := exists_series inner hdf histLen k
  have hlen := hrows.length_eq
  rw [List.length_range'] at hlen
  exact ⟨ws, hseries, hlen.symm, hrows⟩

/-! ### Two threads -/

/-- A window of a thread. -/
def windowOf (thread : String) (windowId : ℤ) (ipc : ℚ) : WindowRow where
  loadType := Cell.ofCsv "cpu".toList
  threadKey := Cell.ofCsv thread.toList
  thread := Cell.ofCsv "worker".toList
  pid := 41
  cpu := 1
  windowId := windowId
  stateLabel := Cell.ofCsv "BE-Core".toList
  norm := fun
    | .IPC => ipc
    | _ => 0

/-- The windows of two threads, in no order. -/
def interleaved : List WindowRow :=
  [windowOf "a" 7 (1 / 4), windowOf "b" 5 1, windowOf "a" 5 (1 / 2), windowOf "a" 6 (3 / 4),
    windowOf "b" 6 0]

theorem buildSequences_complete_interleaved :
    (interleaved.map WindowRow.key).Nodup ∧ ∃ ws, Series interleaved "a".toList ws ∧
      (threadSequences (Sorter.insertion _) interleaved 2 "a".toList).length = ws.length - 2 ∧
      List.Forall₂ (SequenceOf ws 2) (List.range' 2 (ws.length - 2))
        (threadSequences (Sorter.insertion _) interleaved 2 "a".toList) :=
  ⟨by decide +kernel, buildSequences_complete _ (by decide +kernel) 2 _⟩

/-- Thread `a` has one sequence, for its last window. -/
example : (threadSequences (Sorter.insertion _) interleaved 2 "a".toList).map
    (fun s => (s.windowId, s.seqPos, s.x.head?)) = [(7, 2, some (1 / 2))] := by decide +kernel

end Magm.Predict.Sequences
