import Magm.Predict.Input

/-! # The Top-Down labels of the predictor

Three scripts score a window for the same three states. `add_topdown_labels` of
`build_thread_windows.py` labels the rows of a table, `derive_state_from_matrix` of
`train_thread_predictor.py` the rows of a matrix whose columns it knows by their place in
`FEATURE_COLS`, and `predicted_intensity` of the planner keeps the largest score only. They agree
(`scorers_agree`), so a prediction that is right in its features is right in its label. -/

namespace Magm.Predict.Labels

open Magm.Lib.Chars Magm.Lib.Sorting Magm.Lib.GroupBy Magm.Table.Cells Magm.Planner.Score
open Magm.Features.Dataset Magm.Features.Normalize Magm.Predict.Sequences Magm.Predict.Input

/-! ### The labels of a table -/

/-- A row of a normalised table with the columns `add_topdown_labels` adds. -/
structure Labelled where
  norm : Feature → ℚ
  sFe : ℚ
  sBeCore : ℚ
  sBeMem : ℚ
  label : StateLabel

def addTopdownLabels (out : List (Feature → ℚ)) : List Labelled :=
  out.map fun x => ⟨x, sFe x, sBeCore x, sBeMem x, stateLabel x⟩

/-! ### The labels of a matrix -/

/-- `values[:, i]`; `none` is the `IndexError` of a column that is not there. -/
def column (values : List (List ℚ)) (i : ℕ) : Option (List ℚ) := values.mapM fun row => row[i]?

/-- The label for three scores. -/
def deriveState (fe core mem : ℚ) : Text :=
  if core ≤ mem ∧ fe ≤ mem then "BE-Mem".toList
  else if fe ≤ core then "BE-Core".toList
  else "FE-Bound".toList

def deriveStateFromMatrix (values : List (List ℚ)) : Option (List Text) := do
  let ipc ← column values 0
  let mpkiLlc ← column values 1
  let mpkiL1i ← column values 2
  let brmpki ← column values 5
  let mpkiTlb ← column values 6
  let sFe := List.zipWith (fun b l => 3 / 4 * b + 1 / 4 * l) brmpki mpkiL1i
  let sCore := List.zipWith (fun i m => 4 / 5 * i + 1 / 5 * (1 - m)) ipc mpkiLlc
  let sMem := List.zipWith (fun m t => 4 / 5 * m + 1 / 5 * t) mpkiLlc mpkiTlb
  return (sFe.zip (sCore.zip sMem)).map fun s => deriveState s.1 s.2.1 s.2.2

/-- A vector in the order of `FEATURE_COLS`. -/
def vector (x : Feature → ℚ) : List ℚ := featureCols.map x

theorem column_vector {i : ℕ} {f : Feature} (hf : featureCols[i]? = some f)
    (rows : List (Feature → ℚ)) : column (rows.map vector) i = some (rows.map fun x => x f) := by
  unfold column
  rw [mapM_eq_some_iff, List.map_map, List.map_map]
  refine List.map_congr_left fun x _ => ?_
  rw [Function.comp_apply, Function.comp_apply, vector, List.getElem?_map, hf]
  rfl

theorem deriveState_eq (x : Feature → ℚ) :
    deriveState (sFe x) (sBeCore x) (sBeMem x) = labelText (stateLabel x) := by
  unfold deriveState stateLabel
  split_ifs <;> rfl

/-- **The matrix is labelled as the table is.** -/
theorem deriveStateFromMatrix_vector (rows : List (Feature → ℚ)) :
    deriveStateFromMatrix (rows.map vector) =
      some (rows.map fun x => labelText (stateLabel x)) := by
  unfold deriveStateFromMatrix
  rw [column_vector (f := .IPC) rfl, column_vector (f := .MPKI_LLC) rfl,
    column_vector (f := .MPKI_L1I) rfl, column_vector (f := .BrMPKI) rfl,
    column_vector (f := .MPKI_TLB) rfl]
  simp only [Option.bind_eq_bind, Option.bind_some, Option.pure_def, Option.some.injEq,
    List.zipWith_map, List.zipWith_self, List.zip, List.map_map]
  exact List.map_congr_left fun x _ => deriveState_eq x

/-! ### The state of the largest score -/

def stateScore (x : Feature → ℚ) : StateLabel → ℚ
  | .beMem => sBeMem x
  | .beCore => sBeCore x
  | .feBound => sFe x

/-- The place of a state among states with one score: BE-Mem, BE-Core, FE-Bound. -/
def priority : StateLabel → ℕ
  | .beMem => 0
  | .beCore => 1
  | .feBound => 2

/-- The state attains the maximum of the scores, and is the first to do so. -/
structure TopState (x : Feature → ℚ) (s : StateLabel) : Prop where
  max : ∀ s', stateScore x s' ≤ stateScore x s
  first : ∀ s', stateScore x s' = stateScore x s → priority s ≤ priority s'

theorem priority_inj {s s' : StateLabel} (h : priority s = priority s') : s = s' := by
  cases s <;> cases s' <;> first | rfl | exact absurd h (by decide)

/-- There is one such state at most. -/
theorem TopState.unique {x : Feature → ℚ} {s s' : StateLabel} (h : TopState x s)
    (h' : TopState x s') : s = s' := by
  have hscore : stateScore x s = stateScore x s' := le_antisymm (h'.max s) (h.max s')
  exact priority_inj (le_antisymm (h.first s' hscore.symm) (h'.first s hscore))

/-- A score that is not the greatest of three is below the greater of the others. -/
theorem lt_of_not_greatest {a b c : ℚ} (h : ¬ (b ≤ a ∧ c ≤ a)) (hcb : c ≤ b) : a < b := by
  by_contra hle
  rw [not_lt] at hle
  exact h ⟨hle, hcb.trans hle⟩

theorem topState_stateLabel (x : Feature → ℚ) : TopState x (stateLabel x) := by
  unfold stateLabel
  split_ifs with hmem hcore
  · refine ⟨fun s' => ?_, fun s' _ => Nat.zero_le _⟩
    cases s' with
    | beMem => exact le_rfl
    | beCore => exact hmem.1
    | feBound => exact hmem.2
  · -- BE-Core is not below FE-Bound, so BE-Mem must be below it
    have hlt : sBeMem x < sBeCore x := lt_of_not_greatest hmem hcore
    refine ⟨fun s' => ?_, fun s' hs' => ?_⟩
    · cases s' with
      | beMem => exact hlt.le
      | beCore => exact le_rfl
      | feBound => exact hcore
    · cases s' with
      | beMem => exact absurd hs' hlt.ne
      | beCore => exact le_rfl
      | feBound => exact Nat.le_succ 1
  · rw [not_le] at hcore
    have hlt : sBeMem x < sFe x := lt_of_not_greatest (fun h => hmem h.symm) hcore.le
    refine ⟨fun s' => ?_, fun s' hs' => ?_⟩
    · cases s' with
      | beMem => exact hlt.le
      | beCore => exact hcore.le
      | feBound => exact le_rfl
    · cases s' with
      | beMem => exact absurd hs' hlt.ne
      | beCore => exact absurd hs' hcore.ne
      | feBound => exact le_rfl

/-- **The intensity of the planner is the score of the label.** -/
theorem predictedIntensity_eq (row : Row) :
    predictedIntensity row = stateScore row.pred (stateLabel row.pred) := by
  have hmax : predictedIntensity row =
      max (max (sFe row.pred) (sBeCore row.pred)) (sBeMem row.pred) := rfl
  have htop := (topState_stateLabel row.pred).max
  rw [hmax]
  refine le_antisymm (max_le (max_le (htop .feBound) (htop .beCore)) (htop .beMem)) ?_
  cases stateLabel row.pred with
  | beMem => exact le_max_right _ _
  | beCore => exact (le_max_right _ _).trans (le_max_left _ _)
  | feBound => exact (le_max_left _ _).trans (le_max_left _ _)

/-! ### A perfect prediction -/

/-- What a sequence has from its target window. -/
theorem exists_target {inner : Sorter (KeyLe WindowRow.windowId)} {df : List WindowRow}
    {histLen : ℕ} {s : SeqRow} (hs : s ∈ buildSequences inner df histLen) :
    ∃ w ∈ df, s.stateTrue = w.stateLabel ∧ s.y.map Prod.snd = vector w.norm := by
  obtain ⟨g, hg, hs⟩ := List.mem_flatMap.mp hs
  unfold groupSequences at hs
  split_ifs at hs
  · exact absurd hs List.not_mem_nil
  · obtain ⟨pos, -, hrow⟩ := List.mem_filterMap.mp hs
    obtain ⟨w, hw, rfl⟩ := Option.map_eq_some_iff.mp hrow
    obtain ⟨k, -, rfl⟩ := List.mem_map.mp hg
    have hmem : w ∈ rowsOf threadOf (sortBy WindowRow.sortCols df) k :=
      inner.mem_run.mp (List.mem_of_getElem? hw)
    exact ⟨w, (mem_sortBy _ _).mp (mem_rowsOf.mp hmem).1, rfl, rfl⟩

theorem labelText_read (l : StateLabel) : (Cell.ofCsv (labelText l)).val = some (labelText l) :=
  Cell.ofCsv_of_notMem (by cases l <;> decide)

/-- The sequences of the windows of a dataset have the label of their target features. -/
theorem exists_norm {inner : Sorter (KeyLe WindowRow.windowId)} {df : List DataRow} {windowNs : ℤ}
    {histLen : ℕ} {s : SeqRow} (hs : s ∈ buildSequences inner (readWindows df windowNs) histLen) :
    ∃ x : Feature → ℚ, s.y.map Prod.snd = vector x ∧
      s.stateTrue.val = some (labelText (stateLabel x)) := by
  obtain ⟨w, hw, hstate, hy⟩ := exists_target hs
  obtain ⟨n, hn, rfl⟩ := List.mem_map.mp hw
  refine ⟨n.norm, hy, ?_⟩
  rw [hstate, ← (mem_norm hn).2.2]
  exact labelText_read _

theorem exists_norms {inner : Sorter (KeyLe WindowRow.windowId)} {df : List DataRow}
    {windowNs : ℤ} {histLen : ℕ} : ∀ {seq : List SeqRow},
      (∀ s ∈ seq, s ∈ buildSequences inner (readWindows df windowNs) histLen) →
        ∃ xs : List (Feature → ℚ), seq.map (fun s => s.y.map Prod.snd) = xs.map vector ∧
          seq.map (fun s => s.stateTrue.val) = xs.map fun x => some (labelText (stateLabel x))
  | [], _ => ⟨[], rfl, rfl⟩
  | s :: seq, h => by
    obtain ⟨x, hy, hstate⟩ := exists_norm (h s List.mem_cons_self)
    obtain ⟨xs, hys, hstates⟩ := exists_norms fun s' hs' => h s' (List.mem_cons_of_mem _ hs')
    exact ⟨x :: xs, by simp only [List.map_cons, hy, hys], by
      simp only [List.map_cons, hstate, hstates]⟩

theorem vector_inj {x x' : Feature → ℚ} (h : vector x = vector x') : x = x' := by
  funext f
  have hmem : f ∈ featureCols := by cases f <;> decide
  exact List.map_inj_left.mp h f hmem

/-- **The three scorers agree** on every table, ties included: the matrix is labelled as the table
is, the label is the one state of largest score and first priority, and the intensity is its score.
So true features as a prediction give the true state of every sequence, and its score. -/
theorem scorers_agree :
    (∀ rows : List (Feature → ℚ), deriveStateFromMatrix (rows.map vector) =
        some ((addTopdownLabels rows).map fun r => labelText r.label) ∧
      ∀ r ∈ addTopdownLabels rows, (∀ s, TopState r.norm s ↔ s = r.label) ∧
        ∀ row : Row, row.pred = r.norm → predictedIntensity row = stateScore r.norm r.label) ∧
    ∀ (inner : Sorter (KeyLe WindowRow.windowId)) (df : List DataRow) (windowNs : ℤ) (histLen : ℕ),
      (∃ statePred, deriveStateFromMatrix ((buildSequences inner (readWindows df windowNs)
          histLen).map fun s => s.y.map Prod.snd) = some statePred ∧
        (buildSequences inner (readWindows df windowNs) histLen).map (fun s => s.stateTrue.val) =
          statePred.map some) ∧
      ∀ s ∈ buildSequences inner (readWindows df windowNs) histLen, ∀ row : Row,
        vector row.pred = s.y.map Prod.snd → ∃ l, s.stateTrue.val = some (labelText l) ∧
          predictedIntensity row = stateScore row.pred l := by
  refine ⟨fun rows => ⟨?_, fun r hr => ?_⟩, fun inner df windowNs histLen => ⟨?_, ?_⟩⟩
  · rw [deriveStateFromMatrix_vector, addTopdownLabels, List.map_map]
    rfl
  · obtain ⟨x, -, rfl⟩ := List.mem_map.mp hr
    refine ⟨fun s => ⟨fun h => h.unique (topState_stateLabel x), ?_⟩, fun row hrow => ?_⟩
    · rintro rfl
      exact topState_stateLabel x
    · rw [predictedIntensity_eq, hrow]
  · obtain ⟨xs, hy, hstate⟩ := exists_norms fun s hs => hs
    exact ⟨_, by rw [hy]; exact deriveStateFromMatrix_vector xs, by rw [hstate, List.map_map]; rfl⟩
  · intro s hs row hrow
    obtain ⟨x, hy, hstate⟩ := exists_norm hs
    have hpred : row.pred = x := vector_inj (hrow.trans hy)
    exact ⟨stateLabel x, hstate, by rw [predictedIntensity_eq, hpred]⟩

/-- A tie of the three scores. -/
example : deriveStateFromMatrix [[0, 1 / 5, 4 / 25, 0, 0, 4 / 25, 0]] = some ["BE-Mem".toList] := by
  decide +kernel

end Magm.Predict.Labels
