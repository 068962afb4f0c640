import Magm.Features.Normalize
import Magm.Predict.Sequences

/-! # The input of the predictor

`thread_windows_norm.csv` as `build_windows` writes it and `read_csv` reads it. A scene has no
`pid=` in its name, so a thread key tells its scene, and the table has one row for a thread and a
window: it is a table of the kind the results about the sequences ask for. -/

namespace Magm.Predict.Input

open Magm.Lib.Chars Magm.Lib.Sorting Magm.Table.Cells Magm.Table.Names Magm.Features.Dataset
open Magm.Features.ThreadWindows Magm.Features.Normalize Magm.Predict.Sequences

/-- A label as it is written. -/
def labelText : StateLabel → Text
  | .beMem => "BE-Mem".toList
  | .beCore => "BE-Core".toList
  | .feBound => "FE-Bound".toList

/-- A row of the table as it is read. -/
def readWindow (n : NormWindow) : WindowRow where
  loadType := Cell.ofCsv n.window.sum.loadType
  threadKey := Cell.ofCsv n.window.sum.threadKey
  thread := Cell.ofCsv n.window.sum.thread
  pid := n.window.sum.pid
  cpu := n.window.sum.cpu
  windowId := n.window.sum.windowId
  stateLabel := Cell.ofCsv (labelText n.label)
  norm := n.norm

def readWindows (df : List DataRow) (windowNs : ℤ) : List WindowRow :=
  (buildWindows df windowNs).norm.map readWindow

/-- The text behind the first `pid=` of a thread key. -/
theorem afterFirst_threadKeyText {loadType : Text} (h : ¬ "pid=".toList <:+: loadType) (pid : ℤ)
    (thread : Text) :
    afterFirst "pid=".toList (threadKeyText loadType pid thread) =
      some (dec pid ++ ':' :: thread) := by
  have hword : "pid=".toList = "pid".toList ++ ['='] := by decide
  have hcolon : ":pid=".toList = [':'] ++ ("pid".toList ++ ['=']) := by decide
  rw [hword] at h ⊢
  have hno : ¬ "pid".toList ++ ['='] <:+: loadType ++ [':'] := fun hin =>
    h (infix_of_infix_append (by decide) hin)
  have hafter := afterFirst_append (by decide) (dec pid ++ ':' :: thread) hno
  rw [threadKeyText, hcolon]
  simpa only [List.append_assoc] using hafter

/-- **A thread key tells its scene.** -/
theorem loadType_of_threadKeyText {loadType loadType' thread thread' : Text} {pid pid' : ℤ}
    (h : ¬ "pid=".toList <:+: loadType) (h' : ¬ "pid=".toList <:+: loadType')
    (heq : threadKeyText loadType pid thread = threadKeyText loadType' pid' thread') :
    loadType = loadType' := by
  have hrest := congrArg (afterFirst "pid=".toList) heq
  rw [afterFirst_threadKeyText h, afterFirst_threadKeyText h', Option.some_inj] at hrest
  simp only [threadKeyText, List.append_assoc] at heq
  rw [hrest] at heq
  exact List.append_cancel_right heq

section Table
variable {df : List DataRow} {windowNs : ℤ} (hscene : ∀ r ∈ df, ¬ "pid=".toList <:+: r.loadType)
include hscene

theorem key_of_threadKey {w w' : WindowSum} (hw : w ∈ aggregate df windowNs)
    (hw' : w' ∈ aggregate df windowNs) (hkey : Cell.ofCsv w.threadKey = Cell.ofCsv w'.threadKey)
    (hid : w.windowId = w'.windowId) : w.key = w'.key := by
  have hsum := mem_aggregate hw
  have hsum' := mem_aggregate hw'
  have hload : ∀ {v : WindowSum}, SumOf df windowNs v → ¬ "pid=".toList <:+: v.loadType := by
    intro v hv
    obtain ⟨r, hr, hgroup⟩ := hv.row
    rw [rowGroup, WindowSum.group, Group.mk.injEq] at hgroup
    rw [← hgroup.1]
    exact hscene r hr
  have htext : w.threadKey = w'.threadKey := by
    have hval := congrArg Cell.val hkey
    rw [hsum.threadKey, hsum'.threadKey, Cell.ofCsv_of_notMem (threadKeyText_read _ _ _),
      Cell.ofCsv_of_notMem (threadKeyText_read _ _ _)] at hval
    rw [hsum.threadKey, hsum'.threadKey]
    exact Option.some.inj hval
  have htexts : threadKeyText w.loadType w.pid w.thread =
      threadKeyText w'.loadType w'.pid w'.thread := by
    rw [← hsum.threadKey, ← hsum'.threadKey, htext]
  have hscenes := loadType_of_threadKeyText (hload hsum) (hload hsum') htexts
  rw [WindowSum.key, WindowSum.key, hscenes, htext, hid]

/-- **The predictor's input has one row for a thread and a window.** -/
theorem nodup_readWindows : ((readWindows df windowNs).map WindowRow.key).Nodup := by
  have hwin := nodup_rawWindows df windowNs
  unfold readWindows buildWindows
  rw [List.map_map, List.map_map]
  refine List.pairwise_map.mpr ((List.pairwise_map.mp hwin).imp_of_mem ?_)
  intro t t' ht ht' hne heq
  rw [Function.comp_apply, Function.comp_apply, Function.comp_apply, Function.comp_apply,
    WindowRow.key, WindowRow.key, Prod.mk.injEq] at heq
  exact hne (key_of_threadKey hscene (mem_rawWindows ht).1 (mem_rawWindows ht').1 heq.1 heq.2)

/-- The sequences of a thread of the dataset, in time order. -/
theorem exists_series_readWindows (inner : Sorter (KeyLe WindowRow.windowId)) (histLen : ℕ)
    (k : Text) :
    ∃ ws, Series (readWindows df windowNs) k ws ∧ List.Forall₂ (SequenceOf ws histLen)
      (List.range' histLen (ws.length - histLen))
      (threadSequences inner (readWindows df windowNs) histLen k) :=
  exists_series inner (nodup_readWindows hscene) histLen k

end Table

end Magm.Predict.Input
