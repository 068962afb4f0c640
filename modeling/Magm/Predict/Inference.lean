import Magm.Predict.Labels
import Magm.Predict.Split

/-! # Training and inference

The `main` functions of `train_thread_predictor.py`, which writes the models, and of
`predict_thread_windows.py`, which loads them. A regressor of `xgboost` or `sklearn` is some
function of one row of inputs, and `fit` any way to find one from the rows of the training part. The
metrics that both write next to the predictions are left out. -/

namespace Magm.Predict.Inference

open Magm.Lib.Chars Magm.Lib.Sorting Magm.Lib.GroupBy Magm.Lib.Quantile Magm.Lib.History
open Magm.Table.Cells Magm.Planner.Score Magm.Features.Normalize Magm.Predict.Sequences
open Magm.Predict.Split Magm.Predict.Input Magm.Predict.Labels

/-! ### Columns -/

/-- The column names of `FEATURE_COLS`. -/
def featureCol : Feature → Text
  | .IPC => "IPC_norm".toList
  | .MPKI_LLC => "MPKI_LLC_norm".toList
  | .MPKI_L1I => "MPKI_L1I_norm".toList
  | .MPKI_L1D => "MPKI_L1D_norm".toList
  | .MPKI_L2 => "MPKI_L2_norm".toList
  | .BrMPKI => "BrMPKI_norm".toList
  | .MPKI_TLB => "MPKI_TLB_norm".toList

def xCol (i : ℕ) : Text := "x_".toList ++ decNat i

def yCol (f : Feature) : Text := "y_".toList ++ featureCol f

/-- The columns in front of `x_0`. -/
def identityCols : List Text :=
  ["thread_key", "LoadType", "thread", "pid", "cpu", "window_id", "state_true", "seq_pos",
    "seq_len"].map String.toList

/-- The columns of a row of `build_sequences`. -/
def rowCols (s : SeqRow) : List Text :=
  identityCols ++ (List.range s.x.length).map xCol ++ s.y.map fun p => yCol p.1

/-- `seq.columns`. -/
def seqCols (seq : List SeqRow) : List Text := (seq.flatMap rowCols).eraseDups

/-- `[c for c in seq.columns if c.startswith("x_")]` -/
def xCols (seq : List SeqRow) : List Text := (seqCols seq).filter fun c => "x_".toList.isPrefixOf c

/-- The numbers of a row under their columns. -/
def numbers (s : SeqRow) : List (Text × ℚ) :=
  [("pid".toList, (s.pid : ℚ)), ("cpu".toList, (s.cpu : ℚ)), ("window_id".toList, (s.windowId : ℚ)),
    ("seq_pos".toList, (s.seqPos : ℚ)), ("seq_len".toList, (s.seqLen : ℚ))] ++
  ((List.range s.x.length).map xCol).zip s.x ++ s.y.map fun p => (yCol p.1, p.2)

/-! ### Models -/

/-- A trained regressor: what `predict` returns for a row of inputs. -/
abbrev Regressor := List ℚ → ℚ

/-- `make_model(model_type)` and its `fit`. -/
abbrev Fit := List (List ℚ) → List ℚ → Regressor

/-- The bundle that `joblib.dump` writes and `joblib.load` reads. -/
structure Bundle where
  histLen : ℕ
  xCols : List Text
  models : List (Text × Regressor)

inductive Failure
  | noHistory
  | missingFeatures (missingX : List Text)
  | missingRegressor (yCol : Text)
  | emptySplit
  | noColumn (col : Text)
  | indexError

/-- The text of an error; a column name in it needs no escapes. -/
def Failure.message : Failure → Text
  | .noHistory => "Not enough per-thread history to build prediction sequences".toList
  | .missingFeatures missingX => "Input sequences are missing model features: [".toList ++
      ", ".toList.intercalate (missingX.map fun c => '\'' :: c ++ ['\'']) ++ [']']
  | .missingRegressor yCol => "Model bundle is missing regressor for ".toList ++ yCol
  | .emptySplit => "Train/test split is empty; collect longer per-thread series".toList
  | .noColumn col => '\'' :: col ++ ['\'']
  | .indexError => "index is out of bounds".toList

/-- A column of a row. -/
def cell (s : SeqRow) (c : Text) : Except Failure ℚ :=
  match (numbers s).lookup c with
  | some v => .ok v
  | none => .error (.noColumn c)

/-- `seq[cols].to_numpy(dtype=float)` -/
def matrix (cols : List Text) (seq : List SeqRow) : Except Failure (List (List ℚ)) :=
  seq.mapM fun s => cols.mapM (cell s)

/-! ### The predictions -/

/-- A row of `thread_predictions.csv`. -/
structure PredRow where
  loadType : Cell
  threadKey : Text
  thread : Cell
  pid : ℤ
  cpu : ℤ
  windowId : ℤ
  stateTrue : Cell
  split : Text
  trueCols : List (Feature × ℚ)
  predCols : List (Feature × ℚ)
  statePred : Text
  deriving DecidableEq

def predRow (split : Text) (s : SeqRow) (yTrue pred : List ℚ) (statePred : Text) : PredRow where
  loadType := s.loadType
  threadKey := s.threadKey
  thread := s.thread
  pid := s.pid
  cpu := s.cpu
  windowId := s.windowId
  stateTrue := s.stateTrue
  split := split
  trueCols := featureCols.zip yTrue
  predCols := featureCols.zip pred
  statePred := statePred

/-- `pred`, clipped: a column for every model. -/
def predMatrix (regs : List Regressor) (x : List (List ℚ)) : List (List ℚ) :=
  x.map fun row => regs.map fun reg => clip 0 1 (reg row)

/-- `state_pred` -/
def states (pred : List (List ℚ)) : Except Failure (List Text) :=
  match deriveStateFromMatrix pred with
  | some labels => .ok labels
  | none => .error .indexError

/-- `pred_df` for rows of the column `split`. -/
def predRows (rows : List (SeqRow × Text)) (x : List (List ℚ)) (regs : List Regressor) :
    Except Failure (List PredRow) := do
  let pred := predMatrix regs x
  let yTrue ← matrix (featureCols.map yCol) (rows.map Prod.fst)
  let statePred ← states pred
  return (rows.zip (yTrue.zip (pred.zip statePred))).map fun r =>
    predRow r.1.2 r.1.1 r.2.1 r.2.2.1 r.2.2.2

/-! ### `predict_thread_windows.py` -/

/-- The regressors in the order of `y_cols`. -/
def regressors (models : List (Text × Regressor)) : Except Failure (List Regressor) :=
  featureCols.mapM fun f =>
    match models.lookup (yCol f) with
    | some reg => .ok reg
    | none => .error (.missingRegressor (yCol f))

/-- `sorted(set(x_cols) - set(seq.columns))` -/
def missingCols (cols : List Text) (seq : List SeqRow) : List Text :=
  sortBy id (cols.filter fun c => !(seqCols seq).contains c).dedup

def predict (inner : Sorter (KeyLe WindowRow.windowId)) (bundle : Bundle) (df : List WindowRow) :
    Except Failure (List PredRow) := do
  let seq := buildSequences inner df bundle.histLen
  if seq.isEmpty then .error .noHistory
  else if missingCols bundle.xCols seq ≠ [] then
    .error (.missingFeatures (missingCols bundle.xCols seq))
  else
    let x ← matrix bundle.xCols seq
    let regs ← regressors bundle.models
    predRows (seq.map fun s => (s, "live".toList)) x regs

/-- A row of `thread_predictions.csv` as the planner reads it. -/
def readPrediction (r : PredRow) : Row where
  loadType := r.loadType
  threadKey := Cell.ofCsv r.threadKey
  thread := r.thread
  pid := r.pid
  windowId := r.windowId
  pred := fun f => (r.predCols.lookup f).getD 0

/-! ### `train_thread_predictor.py` -/

def partText : Part → Text
  | .train => "train".toList
  | .valid => "valid".toList
  | .test => "test".toList

/-- A model for every column of `y_cols`. -/
def fitModels (fit : Fit) (x : List (List ℚ)) (seq : List SeqRow) :
    Except Failure (List (Text × Regressor)) :=
  featureCols.mapM fun f => do
    let y ← seq.mapM fun s => cell s (yCol f)
    return (yCol f, fit x y)

/-- The predictions for the test part, `thread_predictors.joblib` and
`thread_predictors_full.joblib`. -/
structure Trained where
  predDf : List PredRow
  bundle : Bundle
  fullBundle : Bundle

def train (inner : Sorter (KeyLe WindowRow.windowId)) (fit : Fit) (df : List WindowRow)
    (histLen : ℕ) : Except Failure Trained := do
  let seq := buildSequences inner df histLen
  if seq.isEmpty then .error .noHistory
  else
    let split := addSplitColumn seq
    let xs := xCols seq
    let train := (split.filter fun r => r.split = .train ∨ r.split = .valid).map SplitRow.seq
    let test := split.filter fun r => r.split = .test
    if train.isEmpty || test.isEmpty then .error .emptySplit
    else
      let xTrain ← matrix xs train
      let xTest ← matrix xs (test.map SplitRow.seq)
      let models ← fitModels fit xTrain train
      let predDf ← predRows (test.map fun r => (r.seq, partText r.split)) xTest
        (models.map Prod.snd)
      let xAll ← matrix xs seq
      let fullModels ← fitModels fit xAll seq
      return ⟨predDf, ⟨histLen, xs, models⟩, ⟨histLen, xs, fullModels⟩⟩

/-! ### The columns of a row -/

theorem mapM_ok {ε α β : Type*} {f : α → Except ε β} {g : α → β} : ∀ {l : List α},
    (∀ a ∈ l, f a = .ok (g a)) → l.mapM f = .ok (l.map g)
  | [], _ => rfl
  | a :: l, h => by
    have ih := mapM_ok fun a' ha' => h a' (List.mem_cons_of_mem _ ha')
    rw [List.mapM_cons, h a List.mem_cons_self, ih]
    rfl

theorem ok_bind {ε : Type*} {α β : Type} (a : α) (f : α → Except ε β) :
    (Except.ok a >>= f) = f a := rfl

theorem exists_of_bind_ok {ε : Type*} {α β : Type} {x : Except ε α} {f : α → Except ε β} {b : β}
    (h : (x >>= f) = .ok b) : ∃ a, x = .ok a ∧ f a = .ok b := by
  cases x with
  | error e => cases h
  | ok a => exact ⟨a, rfl, h⟩

theorem xCol_inj {i j : ℕ} (h : xCol i = xCol j) : i = j := by
  have hread : ∀ n, leadingNat (decNat n) = some n := by
    intro n
    have hnil : ∀ c ∈ ([] : Text).head?, c.isDigit = false := by simp
    have hn := leadingNat_decNat n hnil
    rwa [List.append_nil] at hn
  have hdec : decNat i = decNat j := List.append_cancel_left h
  have hi := hread i
  rw [hdec, hread j] at hi
  exact (Option.some.inj hi).symm

/-- What `y_<f>_norm` is. -/
def yValue (s : SeqRow) (f : Feature) : ℚ := (s.y.lookup f).getD 0

/-- A row with all its columns. -/
structure Wide (histLen : ℕ) (s : SeqRow) : Prop where
  length_x : s.x.length = 7 * histLen
  y : s.y = featureCols.map fun f => (f, yValue s f)

/-- The columns `x_<i>`. -/
def inputCols (histLen : ℕ) : List Text := (List.range (7 * histLen)).map xCol

def allCols (histLen : ℕ) : List Text :=
  identityCols ++ inputCols histLen ++ featureCols.map yCol

section Columns
variable {inner : Sorter (KeyLe WindowRow.windowId)} {df : List WindowRow} {histLen : ℕ}

/-- The places of a group that have a sequence are those behind the first `histLen`. -/
theorem mem_groupSequences {k : Text} {grp : List WindowRow} {s : SeqRow} :
    s ∈ groupSequences k grp histLen ↔
      ∃ p, histLen ≤ p ∧ sequenceRow k grp histLen p = some s := by
  have hlt : ∀ {p}, sequenceRow k grp histLen p = some s → p < grp.length := by
    intro p hrow
    obtain ⟨w, hw, -⟩ := Option.map_eq_some_iff.mp hrow
    exact (List.getElem?_eq_some_iff.mp hw).1
  unfold groupSequences
  split_ifs with hlen
  · refine iff_of_false List.not_mem_nil ?_
    rintro ⟨p, hp, hrow⟩
    exact absurd (hlt hrow) (not_lt.mpr (hlen.trans hp))
  · rw [List.mem_filterMap]
    constructor
    · rintro ⟨p, hp, hrow⟩
      exact ⟨p, (List.mem_range'_1.mp hp).1, hrow⟩
    · rintro ⟨p, hp, hrow⟩
      have := hlt hrow
      exact ⟨p, List.mem_range'_1.mpr ⟨hp, by omega⟩, hrow⟩

theorem wide_of_mem {s : SeqRow} (hs : s ∈ buildSequences inner df histLen) : Wide histLen s := by
  obtain ⟨g, -, hs⟩ := List.mem_flatMap.mp hs
  obtain ⟨p, hp, hrow⟩ := mem_groupSequences.mp hs
  obtain ⟨w, hw, rfl⟩ := Option.map_eq_some_iff.mp hrow
  refine ⟨length_input hp (List.getElem?_eq_some_iff.mp hw).1.le, ?_⟩
  exact zip_featureValues w

theorem rowCols_eq {s : SeqRow} (hs : Wide histLen s) : rowCols s = allCols histLen := by
  unfold rowCols allCols inputCols
  rw [hs.length_x, hs.y, List.map_map]
  rfl

/-- The `x_` of a column. -/
theorem isPrefixOf_allCols (histLen : ℕ) :
    (∀ c ∈ identityCols, "x_".toList.isPrefixOf c = false) ∧
    (∀ c ∈ inputCols histLen, "x_".toList.isPrefixOf c = true) ∧
    ∀ c ∈ featureCols.map yCol, "x_".toList.isPrefixOf c = false := by
  refine ⟨by decide, fun c hc => ?_, by decide⟩
  obtain ⟨i, -, rfl⟩ := List.mem_map.mp hc
  rfl

theorem nodup_allCols (histLen : ℕ) : (allCols histLen).Nodup := by
  obtain ⟨hid, hx, hy⟩ := isPrefixOf_allCols histLen
  have hnodup : (inputCols histLen).Nodup := List.nodup_range.map fun i j h => xCol_inj h
  have hends : (identityCols ++ featureCols.map yCol).Nodup := by decide
  rw [List.nodup_append] at hends
  unfold allCols
  rw [List.nodup_append, List.nodup_append]
  refine ⟨⟨hends.1, hnodup, ?_⟩, hends.2.1, ?_⟩
  · rintro c hc c' hc' rfl
    exact Bool.noConfusion ((hid c hc).symm.trans (hx c hc'))
  · rintro c hc c' hc' rfl
    rcases List.mem_append.mp hc with hc | hc
    · exact hends.2.2 c hc c hc' rfl
    · exact Bool.noConfusion ((hx c hc).symm.trans (hy c hc'))

theorem eraseDups_of_nodup : ∀ {l : List Text}, l.Nodup → l.eraseDups = l
  | [], _ => rfl
  | c :: l, h => by
    rw [List.nodup_cons] at h
    have hl : (l.filter fun c' => !c' == c) = l :=
      List.filter_eq_self.mpr fun c' hc' => by
        rw [Bool.not_eq_true', beq_eq_false_iff_ne]
        rintro rfl
        exact h.1 hc'
    rw [List.eraseDups_cons, hl, eraseDups_of_nodup h.2]

/-- Rows with the same columns are a table with these columns. -/
theorem seqCols_eq {seq : List SeqRow} (hne : seq ≠ []) (h : ∀ s ∈ seq, Wide histLen s) :
    seqCols seq = allCols histLen := by
  have hcols : ∀ s ∈ seq, rowCols s = allCols histLen := fun s hs => rowCols_eq (h s hs)
  obtain ⟨s, rest, rfl⟩ := List.exists_cons_of_ne_nil hne
  have hrest : (rest.flatMap rowCols).removeAll (allCols histLen) = [] := by
    rw [List.removeAll, List.filter_eq_nil_iff]
    intro c hc
    obtain ⟨s', hs', hc⟩ := List.mem_flatMap.mp hc
    rw [hcols s' (List.mem_cons_of_mem _ hs')] at hc
    simpa using hc
  rw [seqCols, List.flatMap_cons, hcols s List.mem_cons_self, List.eraseDups_append, hrest,
    eraseDups_of_nodup (nodup_allCols histLen), List.eraseDups_nil, List.append_nil]

/-- **The input columns of training** are those of the history. -/
theorem xCols_eq {seq : List SeqRow} (hne : seq ≠ []) (h : ∀ s ∈ seq, Wide histLen s) :
    xCols seq = inputCols histLen := by
  obtain ⟨hid, hx, hy⟩ := isPrefixOf_allCols histLen
  have hleft : identityCols.filter (fun c => "x_".toList.isPrefixOf c) = [] :=
    List.filter_eq_nil_iff.mpr fun c hc => by rw [hid c hc]; decide
  have hright : (featureCols.map yCol).filter (fun c => "x_".toList.isPrefixOf c) = [] :=
    List.filter_eq_nil_iff.mpr fun c hc => by rw [hy c hc]; decide
  rw [xCols, seqCols_eq hne h, allCols, List.filter_append, List.filter_append, hleft, hright,
    List.filter_eq_self.mpr hx, List.nil_append, List.append_nil]

end Columns

/-! ### The numbers of a row -/

section Numbers
variable {histLen : ℕ} {s : SeqRow} (hs : Wide histLen s)
include hs

theorem nodup_numbers : ((numbers s).map Prod.fst).Nodup := by
  have hsub : ((numbers s).map Prod.fst).Sublist (allCols histLen) := by
    have hx : (((List.range s.x.length).map xCol).zip s.x).map Prod.fst = inputCols histLen := by
      rw [List.map_fst_zip (by rw [List.length_map, List.length_range]), hs.length_x]
      rfl
    have hy : (s.y.map fun p => (yCol p.1, p.2)).map Prod.fst = featureCols.map yCol := by
      rw [hs.y, List.map_map, List.map_map]
      rfl
    have hid : (["pid", "cpu", "window_id", "seq_pos", "seq_len"].map String.toList).Sublist
        identityCols := by decide
    unfold numbers allCols
    rw [List.map_append, List.map_append, hx, hy]
    exact (hid.append_right _).append_right _
  exact (nodup_allCols histLen).sublist hsub

theorem cell_of_mem {c : Text} {v : ℚ} (h : (c, v) ∈ numbers s) : cell s c = .ok v := by
  have hnodup := nodup_numbers hs
  have hlook : (numbers s).lookup c = some v := by
    rw [List.lookup_eq_some_iff]
    obtain ⟨l, l', hl⟩ := List.append_of_mem h
    refine ⟨l, l', hl, fun p hp => ?_⟩
    rw [hl, List.map_append, List.map_cons, List.nodup_append] at hnodup
    have hne := hnodup.2.2 p.1 (List.mem_map_of_mem hp) c List.mem_cons_self
    simpa using hne.symm
  rw [cell, hlook]

theorem cell_xCol {i : ℕ} {v : ℚ} (h : s.x[i]? = some v) : cell s (xCol i) = .ok v := by
  refine cell_of_mem hs (List.mem_append_left _ (List.mem_append_right _ ?_))
  obtain ⟨hi, rfl⟩ := List.getElem?_eq_some_iff.mp h
  refine List.mem_iff_getElem.mpr ⟨i, by simpa using hi, ?_⟩
  simp

theorem cell_yCol (f : Feature) : cell s (yCol f) = .ok (yValue s f) := by
  refine cell_of_mem hs (List.mem_append_right _ (List.mem_map.mpr ⟨(f, yValue s f), ?_, rfl⟩))
  rw [hs.y]
  exact List.mem_map.mpr ⟨f, by cases f <;> decide, rfl⟩

theorem mapM_inputCols : (inputCols histLen).mapM (cell s) = .ok s.x := by
  have hcell : ∀ i ∈ List.range (7 * histLen), (cell s ∘ xCol) i = .ok (s.x[i]?.getD 0) := by
    intro i hi
    rw [List.mem_range, ← hs.length_x] at hi
    have hv := List.getElem?_eq_getElem hi
    rw [Function.comp_apply, cell_xCol hs hv, hv, Option.getD_some]
  have hx : (List.range (7 * histLen)).map (fun i => s.x[i]?.getD 0) = s.x := by
    refine List.ext_getElem (by rw [List.length_map, List.length_range, hs.length_x]) ?_
    intro i _ hi
    rw [List.getElem_map, List.getElem_range, List.getElem?_eq_getElem hi, Option.getD_some]
  rw [inputCols, List.mapM_map, mapM_ok hcell, hx]

end Numbers

section Matrix
variable {histLen : ℕ} {seq : List SeqRow} (h : ∀ s ∈ seq, Wide histLen s)
include h

/-- `seq[x_cols]` -/
theorem matrix_inputCols : matrix (inputCols histLen) seq = .ok (seq.map SeqRow.x) :=
  mapM_ok fun s hs => mapM_inputCols (h s hs)

/-- `seq[y_cols]` -/
theorem matrix_yCols :
    matrix (featureCols.map yCol) seq = .ok (seq.map fun s => vector (yValue s)) := by
  refine mapM_ok fun s hs => ?_
  rw [List.mapM_map]
  exact mapM_ok fun f _ => cell_yCol (h s hs) f

/-- The models of `y_cols`. -/
theorem fitModels_eq (fit : Fit) (x : List (List ℚ)) : fitModels fit x seq =
    .ok (featureCols.map fun f => (yCol f, fit x (seq.map fun s => yValue s f))) := by
  refine mapM_ok fun f _ => ?_
  rw [mapM_ok fun s hs => cell_yCol (h s hs) f]
  rfl

end Matrix

/-! ### The window of a prediction -/

/-- The columns of a prediction that are those of a sequence. -/
structure PredictionOf (s : SeqRow) (r : PredRow) : Prop where
  loadType : r.loadType = s.loadType
  threadKey : r.threadKey = s.threadKey
  thread : r.thread = s.thread
  pid : r.pid = s.pid
  windowId : r.windowId = s.windowId

theorem exists_row_of_predRows {rows : List (SeqRow × Text)} {x : List (List ℚ)}
    {regs : List Regressor} {out : List PredRow} (h : predRows rows x regs = .ok out) :
    ∀ r ∈ out, ∃ p ∈ rows, PredictionOf p.1 r := by
  intro r hr
  obtain ⟨yTrue, -, h⟩ := exists_of_bind_ok h
  obtain ⟨statePred, -, h⟩ := exists_of_bind_ok h
  obtain rfl := Except.ok.inj h
  obtain ⟨q, hq, rfl⟩ := List.mem_map.mp hr
  exact ⟨q.1, (List.of_mem_zip hq).1, rfl, rfl, rfl, rfl, rfl⟩

/-- **A prediction is about a window of the table**, whatever the bundle. -/
theorem exists_window_of_predict {inner : Sorter (KeyLe WindowRow.windowId)} {bundle : Bundle}
    {df : List WindowRow} {live : List PredRow} (h : predict inner bundle df = .ok live) :
    ∀ r ∈ live, ∃ w ∈ df, threadOf w = some r.threadKey ∧ r.loadType = w.loadType ∧
      r.thread = w.thread ∧ r.pid = w.pid ∧ r.windowId = w.windowId := by
  intro r hr
  unfold predict at h
  dsimp only at h
  split_ifs at h
  obtain ⟨x, -, h⟩ := exists_of_bind_ok h
  obtain ⟨regs, -, h⟩ := exists_of_bind_ok h
  obtain ⟨p, hp, hpred⟩ := exists_row_of_predRows h r hr
  obtain ⟨s, hs, rfl⟩ := List.mem_map.mp hp
  obtain ⟨g, hg, hs⟩ := List.mem_flatMap.mp hs
  obtain ⟨k, -, rfl⟩ := List.mem_map.mp hg
  obtain ⟨p, -, hrow⟩ := mem_groupSequences.mp hs
  obtain ⟨w, hw, rfl⟩ := Option.map_eq_some_iff.mp hrow
  have hmem : w ∈ rowsOf threadOf (sortBy WindowRow.sortCols df) k :=
    inner.mem_run.mp (List.mem_of_getElem? hw)
  rw [mem_rowsOf, mem_sortBy] at hmem
  refine ⟨w, hmem.1, ?_, hpred.loadType, hpred.thread, hpred.pid, hpred.windowId⟩
  rw [hmem.2, hpred.threadKey]

end Magm.Predict.Inference
