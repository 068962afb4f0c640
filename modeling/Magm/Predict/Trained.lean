import Magm.Predict.Inference

/-! # What training hands to inference

A bundle that training has written serves every later table: its input columns are those of the
sequences, it has a regressor for every target, and the only thing a table can lack is history
(`predict_eq`). On the table it was trained on it gives the predictions of the evaluation again. -/

namespace Magm.Predict.Trained

open Magm.Lib.Chars Magm.Lib.Sorting Magm.Lib.GroupBy Magm.Lib.Quantile Magm.Lib.History
open Magm.Table.Cells Magm.Planner.Score Magm.Features.Normalize Magm.Predict.Sequences
open Magm.Predict.Split Magm.Predict.Input Magm.Predict.Labels Magm.Predict.Inference

/-! ### The predictions of regressors -/

/-- The clipped predictions for a row. -/
def prediction (reg : Feature → Regressor) (s : SeqRow) (f : Feature) : ℚ := clip 0 1 (reg f s.x)

/-- The row of a table of predictions. -/
def rowOf (reg : Feature → Regressor) (s : SeqRow) (split : Text) : PredRow :=
  predRow split s (vector (yValue s)) (vector (prediction reg s))
    (labelText (stateLabel (prediction reg s)))

theorem predMatrix_eq (reg : Feature → Regressor) (seq : List SeqRow) :
    predMatrix (featureCols.map reg) (seq.map SeqRow.x) =
      (seq.map (prediction reg)).map vector := by
  unfold predMatrix
  rw [List.map_map, List.map_map]
  refine List.map_congr_left fun s _ => ?_
  rw [Function.comp_apply, Function.comp_apply, List.map_map]
  rfl

/-- Columns of one table next to each other. -/
theorem zip_columns {α β γ δ : Type*} (rows : List α) (a : α → β) (b : α → γ) (c : α → δ) :
    rows.zip ((rows.map a).zip ((rows.map b).zip (rows.map c))) =
      rows.map fun r => (r, a r, b r, c r) := by
  have hzip : (rows.map id).zip (rows.map fun r => (a r, b r, c r)) =
      rows.map fun r => (r, a r, b r, c r) := List.zip_map'
  rw [List.map_id] at hzip
  rw [List.zip_map', List.zip_map', hzip]

theorem states_eq (reg : Feature → Regressor) (seq : List SeqRow) :
    states ((seq.map (prediction reg)).map vector) =
      .ok (seq.map fun s => labelText (stateLabel (prediction reg s))) := by
  rw [states, deriveStateFromMatrix_vector, List.map_map]
  rfl

theorem predRows_eq {histLen : ℕ} (rows : List (SeqRow × Text))
    (h : ∀ r ∈ rows, Wide histLen r.1) (reg : Feature → Regressor) :
    predRows rows ((rows.map Prod.fst).map SeqRow.x) (featureCols.map reg) =
      .ok (rows.map fun r => rowOf reg r.1 r.2) := by
  have hwide : ∀ s ∈ rows.map Prod.fst, Wide histLen s := by
    intro s hs
    obtain ⟨r, hr, rfl⟩ := List.mem_map.mp hs
    exact h r hr
  unfold predRows
  dsimp only
  rw [predMatrix_eq, states_eq, matrix_yCols hwide]
  simp only [List.map_map]
  exact congrArg Except.ok ((congrArg _ (zip_columns rows _ _ _)).trans List.map_map)

/-! ### Inference -/

/-- The bundle predicts with these regressors. -/
structure Serves (bundle : Bundle) (reg : Feature → Regressor) : Prop where
  xCols : bundle.xCols = inputCols bundle.histLen
  models : ∀ f, bundle.models.lookup (yCol f) = some (reg f)

theorem regressors_eq {bundle : Bundle} {reg : Feature → Regressor} (hb : Serves bundle reg) :
    regressors bundle.models = .ok (featureCols.map reg) := by
  refine mapM_ok fun f _ => ?_
  rw [hb.models f]

theorem missingCols_eq_nil {histLen : ℕ} {seq : List SeqRow} (hne : seq ≠ [])
    (h : ∀ s ∈ seq, Wide histLen s) : missingCols (inputCols histLen) seq = [] := by
  have hfilter : (inputCols histLen).filter (fun c => !(seqCols seq).contains c) = [] := by
    rw [seqCols_eq hne h, List.filter_eq_nil_iff]
    intro c hc
    simp [allCols, hc]
  rw [missingCols, hfilter]
  rfl

/-- **Inference with a bundle that serves.** -/
theorem predict_eq (inner : Sorter (KeyLe WindowRow.windowId)) {bundle : Bundle}
    {reg : Feature → Regressor} (hb : Serves bundle reg) (df : List WindowRow) :
    predict inner bundle df =
      if buildSequences inner df bundle.histLen = [] then .error .noHistory
      else .ok ((buildSequences inner df bundle.histLen).map fun s =>
        rowOf reg s "live".toList) := by
  have hwide : ∀ s ∈ buildSequences inner df bundle.histLen, Wide bundle.histLen s :=
    fun s hs => wide_of_mem hs
  unfold predict
  dsimp only
  by_cases hne : buildSequences inner df bundle.histLen = []
  · rw [if_pos hne, hne]
    rfl
  · have hmissing := missingCols_eq_nil hne hwide
    have hlive : ∀ r ∈ (buildSequences inner df bundle.histLen).map fun s => (s, "live".toList),
        Wide bundle.histLen r.1 := by simpa using hwide
    have hrows := predRows_eq _ hlive reg
    rw [if_neg hne, hb.xCols, hmissing, if_neg (by simpa using hne), if_neg (by simp),
      matrix_inputCols hwide, regressors_eq hb]
    simp only [List.map_map] at hrows
    exact hrows

/-! ### Training -/

/-- The test part of the sequences. -/
def testSeq (seq : List SeqRow) : List SeqRow := seq.filter fun s => splitOf s = .test

/-- The rest of them. -/
def trainSeq (seq : List SeqRow) : List SeqRow := seq.filter fun s => splitOf s ≠ .test

theorem train_part (seq : List SeqRow) :
    ((addSplitColumn seq).filter fun r => r.split = .train ∨ r.split = .valid).map SplitRow.seq =
      trainSeq seq := by
  have hpart : ∀ s, (splitOf s = .train ∨ splitOf s = .valid) ↔ splitOf s ≠ .test := by
    intro s
    cases splitOf s <;> decide
  rw [addSplitColumn, List.filter_map, List.map_map]
  unfold trainSeq
  simp only [Function.comp_def, hpart]
  exact List.map_id _

theorem test_part (seq : List SeqRow) :
    (addSplitColumn seq).filter (fun r => r.split = .test) =
      (testSeq seq).map fun s => ⟨s, .test⟩ := by
  rw [addSplitColumn, List.filter_map]
  refine List.map_congr_left fun s hs => ?_
  have htest : splitOf s = .test := of_decide_eq_true (List.mem_filter.mp hs).2
  rw [htest]

/-- The regressors that `fit` finds. -/
def fitted (fit : Fit) (seq : List SeqRow) (f : Feature) : Regressor :=
  fit (seq.map SeqRow.x) (seq.map fun s => yValue s f)

/-- The models of a bundle. -/
def models (reg : Feature → Regressor) : List (Text × Regressor) :=
  featureCols.map fun f => (yCol f, reg f)

theorem lookup_models (reg : Feature → Regressor) (f : Feature) :
    (models reg).lookup (yCol f) = some (reg f) := by
  cases f <;> rfl

theorem fitModels_fitted {histLen : ℕ} {seq : List SeqRow} (h : ∀ s ∈ seq, Wide histLen s)
    (fit : Fit) : fitModels fit (seq.map SeqRow.x) seq = .ok (models (fitted fit seq)) :=
  fitModels_eq h fit _

/-- What training returns for its sequences. -/
def trained (fit : Fit) (seq : List SeqRow) (histLen : ℕ) : Trained where
  predDf := (testSeq seq).map fun s => rowOf (fitted fit (trainSeq seq)) s "test".toList
  bundle := ⟨histLen, inputCols histLen, models (fitted fit (trainSeq seq))⟩
  fullBundle := ⟨histLen, inputCols histLen, models (fitted fit seq)⟩

/-- **Training.** -/
theorem train_eq (inner : Sorter (KeyLe WindowRow.windowId)) (fit : Fit) (df : List WindowRow)
    (histLen : ℕ) : train inner fit df histLen =
      if buildSequences inner df histLen = [] then .error .noHistory
      else if trainSeq (buildSequences inner df histLen) = [] ∨
        testSeq (buildSequences inner df histLen) = [] then .error .emptySplit
      else .ok (trained fit (buildSequences inner df histLen) histLen) := by
  have hwide : ∀ s ∈ buildSequences inner df histLen, Wide histLen s := fun s hs => wide_of_mem hs
  set seq := buildSequences inner df histLen with hseq
  have htrain : ∀ s ∈ trainSeq seq, Wide histLen s := fun s hs =>
    hwide s (List.mem_of_mem_filter hs)
  have htest : ∀ s ∈ testSeq seq, Wide histLen s := fun s hs =>
    hwide s (List.mem_of_mem_filter hs)
  unfold train
  dsimp only
  rw [← hseq, train_part, test_part]
  by_cases hne : seq = []
  · rw [if_pos hne, hne]
    rfl
  rw [if_neg hne, if_neg (by simpa using hne)]
  by_cases hempty : trainSeq seq = [] ∨ testSeq seq = []
  · rw [if_pos hempty, if_pos (by simpa using hempty)]
  have hpart : ∀ r ∈ (testSeq seq).map fun s => (s, partText .test), Wide histLen r.1 := by
    simpa using htest
  have hrows := predRows_eq _ hpart (fitted fit (trainSeq seq))
  simp only [List.map_map, Function.comp_def] at hrows
  have hsnd : (models (fitted fit (trainSeq seq))).map Prod.snd =
      featureCols.map (fitted fit (trainSeq seq)) := by
    rw [models, List.map_map]
    rfl
  have htestSeq : (testSeq seq).map (fun s => s) = testSeq seq := List.map_id _
  rw [if_neg hempty, if_neg (by simpa using hempty), xCols_eq hne hwide]
  simp only [List.map_map, Function.comp_def]
  rw [htestSeq, matrix_inputCols htrain, matrix_inputCols hwide, matrix_inputCols htest, ok_bind,
    ok_bind, fitModels_fitted htrain, ok_bind, hsnd, hrows, ok_bind, ok_bind,
    fitModels_fitted hwide, ok_bind]
  rfl

theorem train_cases {inner : Sorter (KeyLe WindowRow.windowId)} {fit : Fit} {df : List WindowRow}
    {histLen : ℕ} {t : Trained} (ht : train inner fit df histLen = .ok t) :
    t = trained fit (buildSequences inner df histLen) histLen ∧
      buildSequences inner df histLen ≠ [] := by
  rw [train_eq] at ht
  split_ifs at ht with hne hempty
  exact ⟨(Except.ok.inj ht).symm, hne⟩

/-! ### The sorts -/

/-- The sequences do not depend on the inner sort. -/
theorem buildSequences_congr (inner inner' : Sorter (KeyLe WindowRow.windowId))
    {df : List WindowRow} (hdf : (df.map WindowRow.key).Nodup) (histLen : ℕ) :
    buildSequences inner df histLen = buildSequences inner' df histLen := by
  unfold buildSequences
  refine List.flatMap_congr fun g hg => ?_
  obtain ⟨k, -, rfl⟩ := List.mem_map.mp hg
  have hrun : inner.run (rowsOf threadOf (sortBy WindowRow.sortCols df) k) =
      inner'.run (rowsOf threadOf (sortBy WindowRow.sortCols df) k) := by
    refine inner.run_eq_of_perm inner' (List.Perm.refl _) fun v hv w hw hvw hwv => ?_
    obtain ⟨hv, hkv⟩ := mem_rowsOf.mp hv
    obtain ⟨hw, hkw⟩ := mem_rowsOf.mp hw
    have hcell : v.threadKey = w.threadKey := Cell.ext (hkv.trans hkw.symm)
    exact List.inj_on_of_nodup_map hdf ((mem_sortBy _ _).mp hv) ((mem_sortBy _ _).mp hw)
      (Prod.ext hcell (le_antisymm hvw hwv))
  rw [hrun]

/-! ### The evaluation -/

/-- The prediction for the window at place `p` of a thread. -/
structure Predicted (reg : Feature → Regressor) (ws : List WindowRow) (histLen p : ℕ)
    (r : PredRow) : Prop where
  split : r.split = "live".toList
  target : ∃ w, ws[p]? = some w ∧ r.loadType = w.loadType ∧ r.thread = w.thread ∧ r.pid = w.pid ∧
    r.cpu = w.cpu ∧ r.windowId = w.windowId ∧ r.stateTrue = w.stateLabel ∧
    r.trueCols = featureCols.map fun f => (f, w.norm f)
  pred : ∃ x : Feature → ℚ, r.predCols = featureCols.map (fun f => (f, x f)) ∧
    (∀ f, x f = clip 0 1 (reg f (((ws.take p).drop (p - histLen)).flatMap featureValues)) ∧
      0 ≤ x f ∧ x f ≤ 1) ∧
    ∃ l, TopState x l ∧ r.statePred = labelText l

theorem zip_vector (x : Feature → ℚ) : featureCols.zip (vector x) = featureCols.map fun f =>
    (f, x f) := rfl

theorem history_map (h p : ℕ) (ws : List WindowRow) :
    (history h p (ws.map featureValues)).flatten =
      ((ws.take p).drop (p - h)).flatMap featureValues := by
  rw [history, ← List.map_take, ← List.map_drop, List.flatMap_def]

theorem predicted_rowOf (reg : Feature → Regressor) {ws : List WindowRow} {histLen p : ℕ} {k : Text}
    {s : SeqRow} (hs : sequenceRow k ws histLen p = some s) :
    Predicted reg ws histLen p (rowOf reg s "live".toList) := by
  obtain ⟨w, hw, rfl⟩ := Option.map_eq_some_iff.mp hs
  refine ⟨rfl, ⟨w, hw, rfl, rfl, rfl, rfl, rfl, rfl, rfl⟩, ?_⟩
  refine ⟨_, zip_vector _, fun f => ?_, _, topState_stateLabel _, rfl⟩
  rw [prediction, history_map]
  exact ⟨rfl, le_clip zero_le_one _, clip_le _ _ _⟩

section Later
variable (inner : Sorter (KeyLe WindowRow.windowId)) {df : List WindowRow} {histLen : ℕ}
  (hdf : (df.map WindowRow.key).Nodup)
include hdf

theorem forall₂_sequenceRow (histLen : ℕ) (k : Text) : ∃ ws, Series df k ws ∧
    List.Forall₂ (fun p s => sequenceRow k ws histLen p = some s)
      (List.range' histLen (ws.length - histLen)) (threadSequences inner df histLen k) := by
  refine ⟨_, series_run inner hdf k, ?_⟩
  rw [threadSequences_eq]
  unfold groupSequences
  split_ifs with hshort
  · rw [Nat.sub_eq_zero_of_le hshort]
    exact List.Forall₂.nil
  · refine forall₂_filterMap fun p hp => ?_
    rw [List.mem_range'_1] at hp
    have hlt : p < (inner.run (rowsOf threadOf (sortBy WindowRow.sortCols df) k)).length := by
      omega
    rw [sequenceRow, List.getElem?_eq_getElem hlt]
    exact ⟨_, rfl, rfl⟩

/-- There are no sequences when no thread has a history. -/
theorem buildSequences_eq_nil : buildSequences inner df histLen = [] ↔
    ∀ k, (rowsOf threadOf df k).length ≤ histLen := by
  have hlen : ∀ k, (threadSequences inner df histLen k).length =
      (rowsOf threadOf df k).length - histLen := by
    intro k
    obtain ⟨ws, hws, hrows⟩ := forall₂_sequenceRow inner hdf histLen k
    rw [← hrows.length_eq, List.length_range', hws.length_eq]
  constructor
  · intro h k
    have hk := hlen k
    rw [threadSequences, h] at hk
    exact Nat.sub_eq_zero_iff_le.mp hk.symm
  · intro h
    rw [List.eq_nil_iff_forall_not_mem]
    intro s hs
    have hmem : s ∈ threadSequences inner df histLen s.threadKey := mem_rowsOf.mpr ⟨hs, rfl⟩
    have hpos := List.length_pos_of_mem hmem
    rw [hlen, Nat.sub_eq_zero_of_le (h _)] at hpos
    exact absurd hpos (lt_irrefl 0)

end Later

/-- What a bundle of training does with a table: it predicts every window with a history. -/
def Served (b : Bundle) (reg : Feature → Regressor) (inner : Sorter (KeyLe WindowRow.windowId))
    (df : List WindowRow) : Prop :=
  (predict inner b df = .error .noHistory ∧ ∀ k, (rowsOf threadOf df k).length ≤ b.histLen) ∨
  ∃ live, predict inner b df = .ok live ∧ (∃ k, b.histLen < (rowsOf threadOf df k).length) ∧
    ∀ k, ∃ ws, Series df k ws ∧ List.Forall₂ (Predicted reg ws b.histLen)
      (List.range' b.histLen (ws.length - b.histLen)) (rowsOf (fun r => some r.threadKey) live k)

theorem served_of_serves {b : Bundle} {reg : Feature → Regressor} (hb : Serves b reg)
    (inner : Sorter (KeyLe WindowRow.windowId)) {df : List WindowRow}
    (hdf : (df.map WindowRow.key).Nodup) : Served b reg inner df := by
  have hpredict := predict_eq inner hb df
  by_cases hne : buildSequences inner df b.histLen = []
  · rw [if_pos hne] at hpredict
    exact Or.inl ⟨hpredict, (buildSequences_eq_nil inner hdf).mp hne⟩
  · rw [if_neg hne] at hpredict
    refine Or.inr ⟨_, hpredict, ?_, fun k => ?_⟩
    · rw [buildSequences_eq_nil inner hdf, not_forall] at hne
      obtain ⟨k, hk⟩ := hne
      exact ⟨k, not_le.mp hk⟩
    · obtain ⟨ws, hws, hrows⟩ := forall₂_sequenceRow inner hdf b.histLen k
      refine ⟨ws, hws, ?_⟩
      rw [rowsOf, List.filter_map, List.forall₂_map_right_iff]
      exact hrows.imp fun p s hs => predicted_rowOf reg hs

/-- A bundle of training predicts with some regressors. -/
theorem exists_serves {inner : Sorter (KeyLe WindowRow.windowId)} {fit : Fit}
    {df₀ : List WindowRow} {histLen : ℕ} {t : Trained} (ht : train inner fit df₀ histLen = .ok t)
    {b : Bundle} (hb : b = t.bundle ∨ b = t.fullBundle) :
    b.histLen = histLen ∧ ∃ reg, Serves b reg := by
  obtain ⟨rfl, -⟩ := train_cases ht
  rcases hb with rfl | rfl
  · exact ⟨rfl, _, rfl, lookup_models _⟩
  · exact ⟨rfl, _, rfl, lookup_models _⟩

/-- A fit that predicts the mean of what it is given. -/
def meanFit : Fit := fun _ y _ => y.sum / y.length

theorem train_interleaved : train (Sorter.insertion _) meanFit interleaved 1 =
    .ok (trained meanFit (buildSequences (Sorter.insertion _) interleaved 1) 1) := by
  rw [train_eq, if_neg, if_neg]
  · rw [← List.length_eq_zero_iff, ← List.length_eq_zero_iff]
    decide +kernel
  · rw [← List.length_eq_zero_iff]
    decide +kernel

end Magm.Predict.Trained
