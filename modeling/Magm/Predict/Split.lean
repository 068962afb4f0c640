import Magm.Predict.Sequences
import Mathlib.Tactic.NormNum

/-! # The split: `add_split_column`

Every sequence is put into the training, the validation or the test part by its place in its thread.
The place grows with the time, so each thread is cut into a training, a validation and a test block,
and its last sequence is always tested: its ratio is 1. The ratios are exact here. -/

namespace Magm.Predict.Split

open Magm.Lib.Chars Magm.Lib.Sorting Magm.Lib.GroupBy Magm.Lib.History Magm.Lib.Ascending
open Magm.Predict.Sequences

inductive Part
  | train | valid | test
  deriving DecidableEq

/-- The place of the target among the windows of its thread. -/
def ratio (s : SeqRow) : ℚ := s.seqPos / max ((s.seqLen : ℚ) - 1) 1

def splitOf (s : SeqRow) : Part :=
  if ratio s < 4 / 5 then .train else if ratio s < 9 / 10 then .valid else .test

/-- A sequence with the column `split`. -/
structure SplitRow where
  seq : SeqRow
  split : Part

def addSplitColumn (seq : List SeqRow) : List SplitRow := seq.map fun row => ⟨row, splitOf row⟩

/-- The rows of a thread. -/
def threadSplits (inner : Sorter (KeyLe WindowRow.windowId)) (df : List WindowRow) (histLen : ℕ)
    (k : Text) : List SplitRow :=
  rowsOf (fun r => some r.seq.threadKey) (addSplitColumn (buildSequences inner df histLen)) k

/-! ### One sequence -/

theorem splitOf_eq_test_iff {s : SeqRow} : splitOf s = .test ↔ 9 / 10 ≤ ratio s := by
  unfold splitOf
  split_ifs with htrain hvalid
  · refine iff_of_false (by simp) (not_le.mpr (htrain.trans (by norm_num)))
  · exact iff_of_false (by simp) (not_le.mpr hvalid)
  · exact iff_of_true rfl (not_lt.mp hvalid)

theorem splitOf_eq_train_iff {s : SeqRow} : splitOf s = .train ↔ ratio s < 4 / 5 := by
  unfold splitOf
  split_ifs with htrain hvalid
  · exact iff_of_true rfl htrain
  · exact iff_of_false (by simp) htrain
  · exact iff_of_false (by simp) htrain

/-- **The ratio grows with the place.** -/
theorem ratio_le {s s' : SeqRow} (hlen : s.seqLen = s'.seqLen) (hpos : s.seqPos ≤ s'.seqPos) :
    ratio s ≤ ratio s' := by
  have hwidth : 0 < max ((s'.seqLen : ℚ) - 1) 1 := lt_max_of_lt_right one_pos
  unfold ratio
  rw [hlen]
  exact div_le_div_of_nonneg_right (Nat.cast_le.mpr hpos) hwidth.le

/-- The ratio of the last window of a thread. -/
theorem ratio_last {s : SeqRow} (hlen : 2 ≤ s.seqLen) (hpos : s.seqPos + 1 = s.seqLen) :
    ratio s = 1 := by
  have hcast : (s.seqPos : ℚ) = s.seqLen - 1 := by
    rw [← hpos]
    push_cast
    ring
  have hone : (1 : ℚ) ≤ s.seqPos := Nat.one_le_cast.mpr (by omega)
  unfold ratio
  rw [← hcast, max_eq_left hone]
  exact div_self (one_pos.trans_le hone).ne'

/-! ### The sequences of a thread -/

/-- The windows a sequence is made of: its history and its target. -/
def Occurs (ws : List WindowRow) (histLen : ℕ) (s : SeqRow) (v : WindowRow) : Prop :=
  ∃ j ≤ histLen, ws[s.seqPos - histLen + j]? = some v

/-- What the split of a thread is. -/
structure SplitByTime (ws : List WindowRow) (histLen : ℕ) (rows : List SplitRow) : Prop where
  sequences : List.Forall₂ (fun p r => SequenceOf ws histLen p r.seq)
    (List.range' histLen (ws.length - histLen)) rows
  ascending : rows.Pairwise fun r r' => r.seq.windowId < r'.seq.windowId
  blocks : ∃ a b c, rows.map SplitRow.split =
    List.replicate a .train ++ List.replicate b .valid ++ List.replicate c .test
  last : ∀ r, rows.getLast? = some r → r.split = .test
  noLeak : ∀ r ∈ rows, r.split ≠ .test → ∀ t ∈ rows, t.split = .test →
    ∀ v, Occurs ws histLen r.seq v → v.windowId < t.seq.windowId

theorem threadSplits_eq (inner : Sorter (KeyLe WindowRow.windowId)) (df : List WindowRow)
    (histLen : ℕ) (k : Text) :
    threadSplits inner df histLen k = addSplitColumn (threadSequences inner df histLen k) := by
  unfold threadSplits threadSequences addSplitColumn rowsOf
  rw [List.filter_map]
  rfl

section Rows
variable {df ws : List WindowRow} {k : Text} {histLen : ℕ} {seqs : List SeqRow}
  (hws : Series df k ws)
  (hseqs : List.Forall₂ (SequenceOf ws histLen) (List.range' histLen (ws.length - histLen)) seqs)

include hseqs in
theorem map_seqPos : seqs.map SeqRow.seqPos = List.range' histLen (ws.length - histLen) := by
  have hpos : ∀ {l : List ℕ} {l' : List SeqRow}, List.Forall₂ (SequenceOf ws histLen) l l' →
      l'.map SeqRow.seqPos = l := by
    intro l l' h
    induction h with
    | nil => rfl
    | cons hs _ ih => rw [List.map_cons, ih, hs.seqPos]
  exact hpos hseqs

include hseqs in
/-- A sequence is for the window at its place. -/
theorem sequenceOf_seqPos {s : SeqRow} (hs : s ∈ seqs) :
    histLen ≤ s.seqPos ∧ s.seqPos < ws.length ∧ SequenceOf ws histLen s.seqPos s := by
  obtain ⟨p, hp, hseq⟩ := exists_of_mem_right hseqs s hs
  rw [List.mem_range'_1] at hp
  rw [hseq.seqPos]
  exact ⟨hp.1, by omega, hseq⟩

include hws hseqs

/-- What a sequence is made of precedes the target of a later one. -/
theorem windowId_lt_of_occurs {s t : SeqRow} (hs : s ∈ seqs) (ht : t ∈ seqs)
    (hlt : s.seqPos < t.seqPos) {v : WindowRow} (hv : Occurs ws histLen s v) :
    v.windowId < t.windowId := by
  obtain ⟨j, hj, hplace⟩ := hv
  obtain ⟨hs1, -, -⟩ := sequenceOf_seqPos hseqs hs
  obtain ⟨-, -, hseq⟩ := sequenceOf_seqPos hseqs ht
  obtain ⟨w, hw, htarget⟩ := hseq.target
  rw [htarget.windowId]
  exact key_lt hws.ascending hplace hw (by omega)

theorem windowId_lt_of_seqPos {s t : SeqRow} (hs : s ∈ seqs) (ht : t ∈ seqs)
    (hlt : s.seqPos < t.seqPos) : s.windowId < t.windowId := by
  obtain ⟨hs1, -, hseq⟩ := sequenceOf_seqPos hseqs hs
  obtain ⟨w, hw, htarget⟩ := hseq.target
  rw [htarget.windowId]
  refine windowId_lt_of_occurs hws hseqs hs ht hlt ⟨histLen, le_rfl, ?_⟩
  rw [Nat.sub_add_cancel hs1]
  exact hw

/-- The places ascend, and the ids with them. -/
theorem pairwise_seqPos : seqs.Pairwise fun s t =>
    s.seqPos < t.seqPos ∧ s.seqLen = t.seqLen ∧ s.windowId < t.windowId := by
  have hpos : seqs.Pairwise fun s t => s.seqPos < t.seqPos := by
    rw [← List.pairwise_map (f := SeqRow.seqPos) (R := (· < ·)), map_seqPos hseqs]
    exact List.pairwise_lt_range'
  refine hpos.imp_of_mem fun hs ht hlt => ⟨hlt, ?_, windowId_lt_of_seqPos hws hseqs hs ht hlt⟩
  rw [(sequenceOf_seqPos hseqs hs).2.2.seqLen, (sequenceOf_seqPos hseqs ht).2.2.seqLen]

omit hws in
/-- A sequence that is not tested is in front of every sequence that is. -/
theorem seqPos_lt_of_test {s t : SeqRow} (hs : s ∈ seqs) (ht : t ∈ seqs)
    (hsplit : splitOf s ≠ .test) (htest : splitOf t = .test) : s.seqPos < t.seqPos := by
  by_contra hle
  have hlen : t.seqLen = s.seqLen := by
    rw [(sequenceOf_seqPos hseqs hs).2.2.seqLen, (sequenceOf_seqPos hseqs ht).2.2.seqLen]
  have hratio := ratio_le hlen (not_lt.mp hle)
  exact hsplit (splitOf_eq_test_iff.mpr ((splitOf_eq_test_iff.mp htest).trans hratio))

omit hws in
/-- The last window of a thread is tested. -/
theorem splitOf_last (h1 : 1 ≤ histLen) {s : SeqRow} (hs : seqs.getLast? = some s) :
    splitOf s = .test := by
  obtain ⟨hge, hlt, hseq⟩ := sequenceOf_seqPos hseqs (List.mem_of_getLast? hs)
  have hlast : (seqs.map SeqRow.seqPos).getLast? = some s.seqPos := by
    rw [List.getLast?_map, hs]
    rfl
  rw [map_seqPos hseqs, List.getLast?_range', if_neg (by omega)] at hlast
  have hpos : histLen + (ws.length - histLen) - 1 = s.seqPos := Option.some.inj hlast
  rw [splitOf_eq_test_iff, ratio_last (by rw [hseq.seqLen]; omega) (by rw [hseq.seqLen]; omega)]
  norm_num

end Rows

/-- **The parts of a thread are blocks**, as the ratios ascend. -/
theorem exists_blocks : ∀ {l : List SeqRow}, l.Pairwise (fun s t => ratio s ≤ ratio t) →
    ∃ a b c, l.map splitOf =
      List.replicate a .train ++ List.replicate b .valid ++ List.replicate c .test
  | [], _ => ⟨0, 0, 0, rfl⟩
  | s :: l, h => by
    rw [List.pairwise_cons] at h
    obtain ⟨a, b, c, ih⟩ := exists_blocks h.2
    have hparts : ∀ {part : Part}, (∀ t ∈ l, splitOf t ≠ part) →
        part ∉ List.replicate a Part.train ++ List.replicate b .valid ++
          List.replicate c .test := by
      intro part hnot hmem
      rw [← ih, List.mem_map] at hmem
      obtain ⟨t, ht, hsplit⟩ := hmem
      exact hnot t ht hsplit
    rcases hs : splitOf s with _ | _ | _
    · exact ⟨a + 1, b, c, by rw [List.map_cons, ih, hs]; rfl⟩
    · have hnot : ∀ t ∈ l, splitOf t ≠ .train := by
        intro t ht htrain
        rw [splitOf_eq_train_iff] at htrain
        have := splitOf_eq_train_iff.mpr ((h.1 t ht).trans_lt htrain)
        rw [hs] at this
        exact Part.noConfusion this
      have ha : a = 0 := by
        by_contra hne
        exact hparts hnot (by simp [hne])
      subst ha
      exact ⟨0, b + 1, c, by rw [List.map_cons, ih, hs]; rfl⟩
    · have htest : ∀ t ∈ l, splitOf t = .test := fun t ht =>
        splitOf_eq_test_iff.mpr ((splitOf_eq_test_iff.mp hs).trans (h.1 t ht))
      have hrest : l.map splitOf = List.replicate l.length .test :=
        List.map_eq_replicate_iff.mpr htest
      exact ⟨0, 0, l.length + 1, by rw [List.map_cons, hrest, hs]; rfl⟩

/-- **The split follows the time of every thread**: a training, a validation and a test block, the
last sequence in the test block, and nothing in the other blocks that is as late as a tested
window. -/
theorem addSplitColumn_byTime (inner : Sorter (KeyLe WindowRow.windowId)) {df : List WindowRow}
    (hdf : (df.map WindowRow.key).Nodup) {histLen : ℕ} (h1 : 1 ≤ histLen) (k : Text) :
    ∃ ws, Series df k ws ∧ SplitByTime ws histLen (threadSplits inner df histLen k) := by
  obtain ⟨ws, hws, hseqs⟩ := exists_series inner hdf histLen k
  have hpairs := pairwise_seqPos hws hseqs
  rw [threadSplits_eq]
  refine ⟨ws, hws, ⟨?_, ?_, ?_, ?_, ?_⟩⟩
  · exact List.forall₂_map_right_iff.mpr hseqs
  · exact List.pairwise_map.mpr (hpairs.imp fun h => h.2.2)
  · obtain ⟨a, b, c, h⟩ := exists_blocks (hpairs.imp fun h => ratio_le h.2.1 h.1.le)
    refine ⟨a, b, c, ?_⟩
    rw [← h, addSplitColumn, List.map_map]
    rfl
  · intro r hr
    rw [addSplitColumn, List.getLast?_map, Option.map_eq_some_iff] at hr
    obtain ⟨s, hs, rfl⟩ := hr
    exact splitOf_last hseqs h1 hs
  · intro r hr hsplit t ht htest v hv
    obtain ⟨s, hs, rfl⟩ := List.mem_map.mp hr
    obtain ⟨s', hs', rfl⟩ := List.mem_map.mp ht
    have hlt : s.seqPos < s'.seqPos := seqPos_lt_of_test hseqs hs hs' hsplit htest
    exact windowId_lt_of_occurs hws hseqs hs hs' hlt hv

theorem addSplitColumn_byTime_interleaved :
    (interleaved.map WindowRow.key).Nodup ∧ ∃ ws, Series interleaved "a".toList ws ∧
      SplitByTime ws 1 (threadSplits (Sorter.insertion _) interleaved 1 "a".toList) :=
  ⟨by decide +kernel, addSplitColumn_byTime _ (by decide +kernel) le_rfl _⟩

end Magm.Predict.Split
