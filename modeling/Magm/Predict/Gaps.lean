import Magm.Predict.Sequences

/-! # Gaps in the history

`build_sequences` takes the `hist_len` windows in front of a window by their places, not by their
ids. A thread that is not sampled in a window has no row for it, and the windows around the gap are
neighbours all the same. So the history reaches back exactly `hist_len` windows, and ends directly
before the target, as far as no thread that yields a sequence has a gap (`contiguous_iff`). -/

namespace Magm.Predict.Gaps

open Magm.Lib.Chars Magm.Lib.Sorting Magm.Lib.GroupBy Magm.Lib.History Magm.Lib.Ascending
open Magm.Table.Cells Magm.Planner.Score Magm.Predict.Sequences

/-- The input of a sequence are the `histLen` windows of the thread directly before its target. -/
def Contiguous (df : List WindowRow) (histLen : ℕ) (s : SeqRow) : Prop :=
  ∀ j < histLen, ∃ v ∈ rowsOf threadOf df s.threadKey, v.windowId = s.windowId - histLen + j ∧
    ∀ i f, featureCols[i]? = some f → s.x[7 * j + i]? = some (v.norm f)

theorem mem_buildSequences {inner : Sorter (KeyLe WindowRow.windowId)} {df : List WindowRow}
    {histLen : ℕ} {s : SeqRow} :
    s ∈ buildSequences inner df histLen ↔ s ∈ threadSequences inner df histLen s.threadKey := by
  simp [threadSequences]

theorem threadKey_eq {inner : Sorter (KeyLe WindowRow.windowId)} {df : List WindowRow}
    {histLen : ℕ} {k : Text} {s : SeqRow} (h : s ∈ threadSequences inner df histLen k) :
    s.threadKey = k :=
  Option.some.inj (mem_rowsOf.mp h).2

section Series
variable {df ws : List WindowRow} {k : Text} {histLen : ℕ} (hws : Series df k ws)
include hws

theorem gapFree_iff : GapFree WindowRow.windowId ws ↔
    GapFree WindowRow.windowId (rowsOf threadOf df k) := by
  unfold GapFree
  simp only [hws.perm.mem_iff]

/-- Without gaps the places are the ids. -/
theorem contiguous_of_gapFree (hd : GapFree WindowRow.windowId ws) {p : ℕ} {s : SeqRow}
    (hp : histLen ≤ p) (hk : s.threadKey = k) (hs : SequenceOf ws histLen p s) :
    Contiguous df histLen s := by
  intro j hj
  obtain ⟨w, hw, htarget⟩ := hs.target
  obtain ⟨v, hv, -, hx⟩ := hs.input j hj
  obtain ⟨v', hv', hid⟩ := GapFree.key_sub hws.ascending hd hw (histLen - j) (by omega)
  have hplace : p - (histLen - j) = p - histLen + j := by omega
  rw [hplace, hv] at hv'
  obtain rfl := Option.some.inj hv'
  refine ⟨v, ?_, ?_, hx⟩
  · rw [hk, ← hws.perm.mem_iff]
    exact List.mem_of_getElem? hv
  · rw [htarget.windowId, hid]
    omega

/-- The ids in front of a window that has a sequence. -/
theorem windowId_sub {p : ℕ} {w : WindowRow} {s : SeqRow} (hp : histLen ≤ p) (hw : ws[p]? = some w)
    (hk : s.threadKey = k) (hs : SequenceOf ws histLen p s) (hc : Contiguous df histLen s) :
    ∀ i ≤ histLen, ∃ v, ws[p - i]? = some v ∧ v.windowId = w.windowId - i := by
  refine key_sub hws.ascending hw hp fun i hi => ?_
  obtain ⟨w', hw', htarget⟩ := hs.target
  rw [hw] at hw'
  obtain rfl := Option.some.inj hw'
  obtain ⟨v, hv, hid, -⟩ := hc (histLen - (i + 1)) (by omega)
  rw [hk, ← hws.perm.mem_iff] at hv
  rw [htarget.windowId] at hid
  exact ⟨v, hv, by omega⟩

/-- Sequences without gaps leave no gap in the thread: the first one reaches back to its first
window, and every later window is the target of one. -/
theorem gapFree_of_contiguous (h1 : 1 ≤ histLen) (hlen : histLen < ws.length)
    (hall : ∀ p, histLen ≤ p → p < ws.length → ∃ s : SeqRow,
      s.threadKey = k ∧ SequenceOf ws histLen p s ∧ Contiguous df histLen s) :
    GapFree WindowRow.windowId ws := by
  refine gapFree_of_succ hws.ascending fun p v w hv hw => ?_
  have hpl : p + 1 < ws.length := (List.getElem?_eq_some_iff.mp hw).1
  rcases Nat.lt_or_ge (p + 1) histLen with hlt | hge
  · obtain ⟨s, hk, hs, hc⟩ := hall histLen le_rfl hlen
    have ht : ws[histLen]? = some ws[histLen] := List.getElem?_eq_getElem hlen
    have hback := windowId_sub hws le_rfl ht hk hs hc
    obtain ⟨v', hv', hid⟩ := hback (histLen - p) (by omega)
    obtain ⟨w', hw', hid'⟩ := hback (histLen - (p + 1)) (by omega)
    rw [Nat.sub_sub_self (by omega), hv] at hv'
    rw [Nat.sub_sub_self (by omega), hw] at hw'
    obtain rfl := Option.some.inj hv'
    obtain rfl := Option.some.inj hw'
    omega
  · obtain ⟨s, hk, hs, hc⟩ := hall (p + 1) hge hpl
    obtain ⟨v', hv', hid⟩ := windowId_sub hws hge hw hk hs hc 1 h1
    rw [Nat.add_sub_cancel, hv] at hv'
    obtain rfl := Option.some.inj hv'
    omega

end Series

/-- **When the history is contiguous**: every sequence is made from the windows directly before its
target exactly when no thread with more than `hist_len` windows has a gap. -/
theorem contiguous_iff (inner : Sorter (KeyLe WindowRow.windowId)) {df : List WindowRow}
    (hdf : (df.map WindowRow.key).Nodup) {histLen : ℕ} (h1 : 1 ≤ histLen) :
    (∀ s ∈ buildSequences inner df histLen, Contiguous df histLen s) ↔
      ∀ k, histLen < (rowsOf threadOf df k).length →
        GapFree WindowRow.windowId (rowsOf threadOf df k) := by
  constructor
  · intro h k hlen
    obtain ⟨ws, hws, hrows⟩ := exists_series inner hdf histLen k
    rw [← hws.length_eq] at hlen
    rw [← gapFree_iff hws]
    refine gapFree_of_contiguous hws h1 hlen fun p hp hpl => ?_
    obtain ⟨s, hs, hseq⟩ :=
      exists_of_mem_left hrows p (List.mem_range'_1.mpr ⟨hp, by omega⟩)
    have hk : s.threadKey = k := threadKey_eq hs
    refine ⟨s, hk, hseq, h s (mem_buildSequences.mpr ?_)⟩
    rw [hk]
    exact hs
  · intro h s hs
    obtain ⟨ws, hws, hrows⟩ := exists_series inner hdf histLen s.threadKey
    obtain ⟨p, hp, hseq⟩ := exists_of_mem_right hrows s (mem_buildSequences.mp hs)
    rw [List.mem_range'_1] at hp
    have hd := h s.threadKey (by rw [← hws.length_eq]; omega)
    exact contiguous_of_gapFree hws ((gapFree_iff hws).mpr hd) hp.1 rfl hseq

/-! ### A thread that is not sampled once -/

/-- Thread `a` has no window 6. -/
def skipped : List WindowRow := [windowOf "a" 5 (1 / 2), windowOf "a" 7 (1 / 4)]

theorem contiguous_iff_skipped :
    (∀ s ∈ buildSequences (Sorter.insertion _) skipped 1, Contiguous skipped 1 s) ↔
      ∀ k, 1 < (rowsOf threadOf skipped k).length →
        GapFree WindowRow.windowId (rowsOf threadOf skipped k) :=
  contiguous_iff _ (by decide +kernel) le_rfl

/-- The window 7 is predicted from the window 5. -/
theorem not_contiguous_skipped :
    (skipped.map WindowRow.key).Nodup ∧
      ∃ s ∈ buildSequences (Sorter.insertion _) skipped 1, s.windowId = 7 ∧
        s.x.head? = some (1 / 2) ∧ ¬ Contiguous skipped 1 s := by
  refine ⟨by decide +kernel, (buildSequences (Sorter.insertion _) skipped 1).get
    ⟨0, by decide +kernel⟩, List.get_mem _ _, by decide +kernel, by decide +kernel, ?_⟩
  intro h
  obtain ⟨v, hv, hid, -⟩ := h 0 Nat.one_pos
  have hsix : v.windowId = 6 := by
    rw [hid]
    decide +kernel
  have hnone : ∀ v ∈ skipped, v.windowId ≠ 6 := by decide
  exact hnone v (mem_rowsOf.mp hv).1 hsix

end Magm.Predict.Gaps
