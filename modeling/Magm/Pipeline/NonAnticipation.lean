import Magm.Planner.Windows
import Magm.Predict.Trained

/-! # The plan of a window does not look ahead

The predictor gives a window to the planner that it has predicted from the windows before. So the
decisions for all windows up to `W` depend on which threads run in these windows and on what was
measured before `W`, and on nothing else of the table (`plan_nonAnticipating`): not on the counters,
the CPU or the label of a thread in `W` itself, and not on any later window or thread. -/

namespace Magm.Pipeline.NonAnticipation

open Magm.Lib.Chars Magm.Lib.Sorting Magm.Lib.GroupBy Magm.Lib.History Magm.Lib.Ascending
open Magm.Table.Cells Magm.Planner.Score Magm.Planner.Schedule Magm.Planner.Windows
open Magm.Features.Dataset Magm.Features.ThreadWindows Magm.Features.Normalize
open Magm.Table.Names Magm.Predict.Sequences Magm.Predict.Input Magm.Predict.Inference
open Magm.Predict.Trained

/-! ### From the table to the plan -/

/-- `thread_windows_norm.csv`: a thread key tells its scene, and a thread has one row for a
window. -/
structure NormTable where
  rows : List WindowRow
  nodup : (rows.map WindowRow.key).Nodup
  load : ∀ v ∈ rows, ∀ w ∈ rows, v.threadKey = w.threadKey → v.loadType = w.loadType

/-- The tables of `build_windows` are of this kind. -/
theorem load_readWindows {df : List DataRow} {windowNs : ℤ}
    (hscene : ∀ r ∈ df, ¬ "pid=".toList <:+: r.loadType) :
    ∀ v ∈ readWindows df windowNs, ∀ w ∈ readWindows df windowNs, v.threadKey = w.threadKey →
      v.loadType = w.loadType := by
  have hsum : ∀ v ∈ readWindows df windowNs, ∃ s, SumOf df windowNs s ∧
      v.loadType = Cell.ofCsv s.loadType ∧ v.threadKey = Cell.ofCsv s.threadKey := by
    intro v hv
    obtain ⟨n, hn, rfl⟩ := List.mem_map.mp hv
    exact ⟨_, mem_aggregate (mem_rawWindows (mem_norm hn).1).1, rfl, rfl⟩
  have hload : ∀ {s}, SumOf df windowNs s → ¬ "pid=".toList <:+: s.loadType := by
    intro s hs
    obtain ⟨r, hr, hgroup⟩ := hs.row
    rw [rowGroup, WindowSum.group, Group.mk.injEq] at hgroup
    rw [← hgroup.1]
    exact hscene r hr
  intro v hv w hw hkey
  obtain ⟨s, hs, hl, hk⟩ := hsum v hv
  obtain ⟨s', hs', hl', hk'⟩ := hsum w hw
  have htext : threadKeyText s.loadType s.pid s.thread =
      threadKeyText s'.loadType s'.pid s'.thread := by
    rw [hk, hk', hs.threadKey, hs'.threadKey] at hkey
    have hval := congrArg Cell.val hkey
    rw [Cell.ofCsv_of_notMem (threadKeyText_read _ _ _),
      Cell.ofCsv_of_notMem (threadKeyText_read _ _ _)] at hval
    exact Option.some.inj hval
  rw [hl, hl', loadType_of_threadKeyText (hload hs) (hload hs') htext]

def NormTable.ofDataset (df : List DataRow) (windowNs : ℤ)
    (hscene : ∀ r ∈ df, ¬ "pid=".toList <:+: r.loadType) : NormTable :=
  ⟨readWindows df windowNs, nodup_readWindows hscene, load_readWindows hscene⟩

/-- A window without what is measured in it, unless it is before `W`. -/
def blank (W : ℤ) (w : WindowRow) : WindowRow :=
  if w.windowId < W then w
  else { w with cpu := 0, stateLabel := Cell.missing, norm := fun _ => 0 }

/-- The windows up to `W`, as far as they are known when `W` begins. -/
def known (W : ℤ) (df : List WindowRow) : List WindowRow :=
  (df.filter fun w => w.windowId ≤ W).map (blank W)

@[simp] theorem windowId_blank (W : ℤ) (w : WindowRow) : (blank W w).windowId = w.windowId := by
  unfold blank
  split_ifs <;> rfl

@[simp] theorem threadKey_blank (W : ℤ) (w : WindowRow) : (blank W w).threadKey = w.threadKey := by
  unfold blank
  split_ifs <;> rfl

/-- What a blank window still tells. -/
structure SameIdentity (v w : WindowRow) : Prop where
  loadType : v.loadType = w.loadType
  thread : v.thread = w.thread
  pid : v.pid = w.pid
  windowId : v.windowId = w.windowId

theorem sameIdentity_of_blank {W : ℤ} {v w : WindowRow} (h : blank W v = blank W w) :
    SameIdentity v w := by
  have hid : v.windowId = w.windowId := by
    rw [← windowId_blank W v, h, windowId_blank]
  unfold blank at h
  rw [hid] at h
  split_ifs at h
  · rw [h]
    exact ⟨rfl, rfl, rfl, rfl⟩
  · rw [WindowRow.mk.injEq] at h
    exact ⟨h.1, h.2.2.1, h.2.2.2.1, hid⟩

theorem eq_of_blank {W : ℤ} {v w : WindowRow} (h : blank W v = blank W w)
    (hlt : v.windowId < W) : v = w := by
  have hid := (sameIdentity_of_blank h).windowId
  rw [blank, blank, if_pos hlt, if_pos (hid ▸ hlt)] at h
  exact h

/-! ### The windows of a thread -/

/-- The windows of a thread in their order. -/
def series (inner : Sorter (KeyLe WindowRow.windowId)) (df : List WindowRow) (k : Text) :
    List WindowRow :=
  inner.run (rowsOf threadOf (sortBy WindowRow.sortCols df) k)

section Thread
variable {W : ℤ} {df df' ws ws' : List WindowRow} {k : Text}

theorem known_series (hws : Series df k ws) (hws' : Series df' k ws')
    (hknown : (known W df).Perm (known W df')) : known W ws = known W ws' := by
  have hperm : ∀ {df ws : List WindowRow}, Series df k ws →
      (known W ws).Perm (rowsOf threadOf (known W df) k) := by
    intro df ws hws
    have hfilter : rowsOf threadOf (known W df) k = known W (rowsOf threadOf df k) := by
      unfold known rowsOf
      rw [List.filter_map, List.filter_filter, List.filter_filter]
      congr 1
      refine List.filter_congr fun w _ => ?_
      rw [Bool.and_comm, Function.comp_apply, threadOf, threadOf, threadKey_blank]
    rw [hfilter]
    exact (hws.perm.filter _).map _
  have hsorted : ∀ {df ws : List WindowRow}, Series df k ws →
      (known W ws).Pairwise fun v w => v.windowId < w.windowId := by
    intro df ws hws
    refine List.pairwise_map.mpr ((hws.ascending.filter _).imp fun h => ?_)
    rw [windowId_blank, windowId_blank]
    exact h
  have hmem := (hperm hws).trans ((hknown.filter _).trans (hperm hws').symm)
  exact eq_of_ascending _ (hsorted hws) (hsorted hws') fun w => hmem.mem_iff

theorem filter_append_filter (hws : Series df k ws) (W : ℤ) :
    ws.filter (fun v => v.windowId ≤ W) ++ ws.filter (fun v => W < v.windowId) = ws := by
  have h := filter_not_append_filter (p := fun v : WindowRow => W < v.windowId) (l := ws)
    (hws.ascending.imp fun hlt h => decide_eq_true ((of_decide_eq_true h).trans hlt))
  simpa only [← decide_not, not_lt] using h

/-- Up to `W` the places of a thread are those of its known windows. -/
theorem getElem?_known (hws : Series df k ws) {p : ℕ} {w : WindowRow} (hw : ws[p]? = some w)
    (hle : w.windowId ≤ W) : (known W ws)[p]? = some (blank W w) := by
  have hsplit := filter_append_filter hws W
  have hp : p < (ws.filter fun v => v.windowId ≤ W).length := by
    by_contra hge
    rw [← hsplit, List.getElem?_append_right (not_lt.mp hge)] at hw
    have hlater := (List.mem_filter.mp (List.mem_of_getElem? hw)).2
    exact absurd hle (not_le.mpr (of_decide_eq_true hlater))
  rw [← hsplit, List.getElem?_append_left hp] at hw
  rw [known, List.getElem?_map, hw]
  rfl

theorem exists_of_known (hws : Series df k ws) {p : ℕ} {v : WindowRow}
    (hv : (known W ws)[p]? = some v) : ∃ w, ws[p]? = some w ∧ blank W w = v := by
  rw [known, List.getElem?_map, Option.map_eq_some_iff] at hv
  obtain ⟨w, hw, hblank⟩ := hv
  refine ⟨w, ?_, hblank⟩
  rw [← filter_append_filter hws W,
    List.getElem?_append_left (List.getElem?_eq_some_iff.mp hw).1, hw]

section Same
variable (hws : Series df k ws) (hws' : Series df' k ws')
  (hknown : (known W df).Perm (known W df'))
include hws hws' hknown

/-- A window up to `W` has its place in both tables. -/
theorem exists_same {p : ℕ} {w : WindowRow} (hw : ws[p]? = some w) (hle : w.windowId ≤ W) :
    ∃ w', ws'[p]? = some w' ∧ blank W w' = blank W w := by
  have hplace := getElem?_known hws hw hle
  rw [known_series hws hws' hknown] at hplace
  exact exists_of_known hws' hplace

/-- What is in front of it is the same in both. -/
theorem take_eq {p : ℕ} {w : WindowRow} (hw : ws[p]? = some w) (hle : w.windowId ≤ W) :
    ws.take p = ws'.take p := by
  refine List.ext_getElem? fun i => ?_
  rcases Nat.lt_or_ge i p with hi | hi
  · have hlt := hi.trans (List.getElem?_eq_some_iff.mp hw).1
    have hv : ws[i]? = some ws[i] := List.getElem?_eq_getElem hlt
    have hid : ws[i].windowId < w.windowId := key_lt hws.ascending hv hw hi
    obtain ⟨v', hv', hblank⟩ := exists_same hws hws' hknown hv (hid.le.trans hle)
    rw [List.getElem?_take_of_lt hi, List.getElem?_take_of_lt hi, hv, hv',
      eq_of_blank hblank.symm (hid.trans_le hle)]
  · rw [List.getElem?_eq_none (List.length_take_le p ws |>.trans hi),
      List.getElem?_eq_none (List.length_take_le p ws' |>.trans hi)]

end Same

end Thread

/-! ### The rows of the planner -/

/-- What the planner is given for a sequence. -/
def planRow (reg : Feature → Regressor) (s : SeqRow) : Row :=
  readPrediction (rowOf reg s "live".toList)

theorem planRow_congr (reg : Feature → Regressor) {s s' : SeqRow} (hl : s.loadType = s'.loadType)
    (hk : s.threadKey = s'.threadKey) (ht : s.thread = s'.thread) (hp : s.pid = s'.pid)
    (hw : s.windowId = s'.windowId) (hx : s.x = s'.x) : planRow reg s = planRow reg s' := by
  unfold planRow readPrediction rowOf predRow prediction
  rw [hl, hk, ht, hp, hw, hx]

/-- **A sequence up to `W`** is given to the planner as it is in the other table. -/
theorem exists_sameRow {W : ℤ} {df df' ws ws' : List WindowRow} {k : Text} (hws : Series df k ws)
    (hws' : Series df' k ws') (hknown : (known W df).Perm (known W df'))
    (reg : Feature → Regressor) {histLen p : ℕ} {s : SeqRow}
    (hs : sequenceRow k ws histLen p = some s) (hle : s.windowId ≤ W) :
    ∃ s', sequenceRow k ws' histLen p = some s' ∧ planRow reg s' = planRow reg s := by
  obtain ⟨w, hw, rfl⟩ := Option.map_eq_some_iff.mp hs
  obtain ⟨w', hw', hblank⟩ := exists_same hws hws' hknown hw hle
  have hsame := sameIdentity_of_blank hblank
  refine ⟨_, Option.map_eq_some_iff.mpr ⟨w', hw', rfl⟩, ?_⟩
  refine planRow_congr reg hsame.loadType rfl hsame.thread hsame.pid hsame.windowId ?_
  simp only [history_map]
  rw [take_eq hws hws' hknown hw hle]

/-! ### The order of the sequences -/

section Order
variable {inner : Sorter (KeyLe WindowRow.windowId)} {df : List WindowRow} {histLen : ℕ}

/-- Where a sequence comes from. -/
theorem mem_buildSequences {s : SeqRow} : s ∈ buildSequences inner df histLen ↔
    ∃ k p, histLen ≤ p ∧ sequenceRow k (series inner df k) histLen p = some s := by
  unfold buildSequences groupByFirst
  rw [List.flatMap_map, List.mem_flatMap]
  constructor
  · rintro ⟨k, -, hs⟩
    exact ⟨k, mem_groupSequences.mp hs⟩
  · rintro ⟨k, p, hp, hrow⟩
    obtain ⟨w, hw, -⟩ := Option.map_eq_some_iff.mp hrow
    have hmem : w ∈ rowsOf threadOf (sortBy WindowRow.sortCols df) k :=
      inner.mem_run.mp (List.mem_of_getElem? hw)
    exact ⟨k, mem_firstKeys.mpr ⟨w, mem_rowsOf.mp hmem⟩,
      mem_groupSequences.mpr ⟨p, hp, hrow⟩⟩

/-- The window a sequence is for. -/
theorem exists_window {k : Text} {p : ℕ} {s : SeqRow}
    (hs : sequenceRow k (series inner df k) histLen p = some s) :
    ∃ w ∈ df, (series inner df k)[p]? = some w ∧ threadOf w = some k ∧ s.threadKey = k ∧
      s.loadType = w.loadType ∧ s.windowId = w.windowId := by
  obtain ⟨w, hw, rfl⟩ := Option.map_eq_some_iff.mp hs
  have hmem : w ∈ rowsOf threadOf (sortBy WindowRow.sortCols df) k :=
    inner.mem_run.mp (List.mem_of_getElem? hw)
  rw [mem_rowsOf, mem_sortBy] at hmem
  exact ⟨w, hmem.1, hw, hmem.2, rfl, rfl, rfl⟩

/-- The place of a row of the planner in the table of predictions. -/
def rowKey (r : Row) : WithTop Text ×ₗ WithTop Text ×ₗ ℤ :=
  toLex (r.loadType.sortKey, toLex (r.threadKey.sortKey, r.windowId))

theorem rowKey_planRow (reg : Feature → Regressor) {k : Text} {s : SeqRow} {w : WindowRow}
    (hw : threadOf w = some k) (hk : s.threadKey = k) (hl : s.loadType = w.loadType)
    (hid : s.windowId = w.windowId) : rowKey (planRow reg s) = w.sortCols := by
  have hread : (Cell.ofCsv k).val = w.threadKey.val := by
    rw [Cell.ofCsv_of_notMem (w.threadKey.read k hw)]
    exact hw.symm
  have hcell : Cell.ofCsv s.threadKey = w.threadKey := by
    rw [hk]
    exact Cell.ext hread
  unfold rowKey planRow readPrediction rowOf predRow WindowRow.sortCols
  rw [hcell, hl, hid]

/-- The sequences of a thread are in the order of its windows. -/
theorem pairwise_groupSequences (hdf : (df.map WindowRow.key).Nodup) (k : Text)
    {R : SeqRow → SeqRow → Prop} (hR : ∀ s ∈ groupSequences k (series inner df k) histLen,
      ∀ s' ∈ groupSequences k (series inner df k) histLen, s.windowId < s'.windowId → R s s') :
    (groupSequences k (series inner df k) histLen).Pairwise R := by
  have hasc : (groupSequences k (series inner df k) histLen).Pairwise fun s s' =>
      s.windowId < s'.windowId := by
    unfold groupSequences
    split_ifs
    · exact List.Pairwise.nil
    · rw [List.pairwise_filterMap]
      refine List.Pairwise.imp (fun {p p'} hlt s hs s' hs' => ?_) List.pairwise_lt_range'
      obtain ⟨w, -, hw, -, -, -, hid⟩ := exists_window hs
      obtain ⟨w', -, hw', -, -, -, hid'⟩ := exists_window hs'
      rw [hid, hid']
      exact key_lt (series_run inner hdf k).ascending hw hw' hlt
  exact hasc.imp_of_mem fun hs hs' h => hR _ hs _ hs' h

end Order

section Sorted
variable {inner : Sorter (KeyLe WindowRow.windowId)} {histLen : ℕ} (t : NormTable)
  (reg : Feature → Regressor)

/-- A window of a thread, with the keys of the planner's row for it. -/
theorem exists_sortCols {k : Text} {s : SeqRow}
    (hs : s ∈ groupSequences k (series inner t.rows k) histLen) :
    ∃ w ∈ t.rows, threadOf w = some k ∧ s.windowId = w.windowId ∧
      rowKey (planRow reg s) = w.sortCols := by
  obtain ⟨p, -, hrow⟩ := mem_groupSequences.mp hs
  obtain ⟨w, hmem, -, hthread, hk, hl, hid⟩ := exists_window hrow
  exact ⟨w, hmem, hthread, hid, rowKey_planRow reg hthread hk hl hid⟩

/-- The threads are in the order of their scenes and keys. -/
theorem pairwise_firstKeys : (firstKeys threadOf (sortBy WindowRow.sortCols t.rows)).Pairwise
    fun k k' => k ≠ k' ∧ ∃ a ∈ t.rows, ∃ b ∈ t.rows, threadOf a = some k ∧ threadOf b = some k' ∧
      a.sortCols ≤ b.sortCols := by
  have hsorted := (sortBy_sorted WindowRow.sortCols t.rows).imp_of_mem fun {a b} ha hb hle =>
    show a ∈ t.rows ∧ b ∈ t.rows ∧ a.sortCols ≤ b.sortCols from
      ⟨(mem_sortBy _ _).mp ha, (mem_sortBy _ _).mp hb, hle⟩
  have hkeys : ((sortBy WindowRow.sortCols t.rows).filterMap threadOf).Pairwise fun k k' =>
      ∃ a ∈ t.rows, ∃ b ∈ t.rows, threadOf a = some k ∧ threadOf b = some k' ∧
        a.sortCols ≤ b.sortCols := by
    rw [List.pairwise_filterMap]
    refine hsorted.imp fun {a b} h k hk k' hk' => ?_
    exact ⟨a, h.1, b, h.2.1, hk, hk', h.2.2⟩
  exact (nodup_eraseDups _).and (hkeys.sublist (sublist_eraseDups _))

/-- Scenes and threads decide an order that they tell apart. -/
theorem lex_lt_of_le {α β γ : Type*} [PartialOrder α] [PartialOrder β] [Preorder γ] {a a' : α}
    {b b' : β} {c c' : γ} (hne : b ≠ b') (d d' : γ)
    (h : toLex (a, toLex (b, c)) ≤ toLex (a', toLex (b', c'))) :
    toLex (a, toLex (b, d)) < toLex (a', toLex (b', d')) := by
  rw [Prod.Lex.toLex_le_toLex] at h
  rw [Prod.Lex.toLex_lt_toLex]
  refine h.imp_right fun ⟨heq, hle⟩ => ⟨heq, ?_⟩
  rw [Prod.Lex.toLex_le_toLex] at hle
  rw [Prod.Lex.toLex_lt_toLex]
  exact Or.inl (hle.resolve_right fun h => hne h.1)

/-- **The planner's rows are in strictly ascending order.** -/
theorem ascending_planRows : ((buildSequences inner t.rows histLen).map (planRow reg)).Pairwise
    fun r r' => rowKey r < rowKey r' := by
  unfold buildSequences groupByFirst
  rw [List.flatMap_map, List.pairwise_map, List.pairwise_flatMap]
  constructor
  · intro k _
    refine pairwise_groupSequences t.nodup k fun s hs s' hs' hlt => ?_
    obtain ⟨w, hw, hk, hid, hkey⟩ := exists_sortCols t reg hs
    obtain ⟨w', hw', hk', hid', hkey'⟩ := exists_sortCols t reg hs'
    have hcell : w.threadKey = w'.threadKey := Cell.ext (hk.trans hk'.symm)
    rw [hkey, hkey', WindowRow.sortCols, WindowRow.sortCols, t.load w hw w' hw' hcell, hcell,
      Prod.Lex.toLex_lt_toLex, Prod.Lex.toLex_lt_toLex]
    exact Or.inr ⟨rfl, Or.inr ⟨rfl, by rw [← hid, ← hid']; exact hlt⟩⟩
  · refine (pairwise_firstKeys t).imp fun {k k'} h s hs s' hs' => ?_
    obtain ⟨hne, a, ha, b, hb, hka, hkb, hle⟩ := h
    obtain ⟨w, hw, hk, -, hkey⟩ := exists_sortCols t reg hs
    obtain ⟨w', hw', hk', -, hkey'⟩ := exists_sortCols t reg hs'
    have hcell : w.threadKey = a.threadKey := Cell.ext (hk.trans hka.symm)
    have hcell' : w'.threadKey = b.threadKey := Cell.ext (hk'.trans hkb.symm)
    have hkeys : a.threadKey.sortKey ≠ b.threadKey.sortKey := by
      intro heq
      have hval : threadOf a = threadOf b := heq
      rw [hka, hkb] at hval
      exact hne (Option.some.inj hval)
    rw [hkey, hkey', WindowRow.sortCols, WindowRow.sortCols, t.load w hw a ha hcell,
      t.load w' hw' b hb hcell', hcell, hcell']
    exact lex_lt_of_le hkeys _ _ hle

end Sorted

/-! ### The predictions up to a window -/

section Rows
variable {t t' : NormTable} {W : ℤ} (hknown : (known W t.rows).Perm (known W t'.rows))
  (inner : Sorter (KeyLe WindowRow.windowId)) (reg : Feature → Regressor) (histLen : ℕ)
include hknown

theorem mem_planRows_of_mem {r : Row}
    (hr : r ∈ (buildSequences inner t.rows histLen).map (planRow reg)) (hle : r.windowId ≤ W) :
    r ∈ (buildSequences inner t'.rows histLen).map (planRow reg) := by
  obtain ⟨s, hs, rfl⟩ := List.mem_map.mp hr
  obtain ⟨k, p, hp, hrow⟩ := mem_buildSequences.mp hs
  obtain ⟨s', hrow', hsame⟩ := exists_sameRow (series_run inner t.nodup k)
    (series_run inner t'.nodup k) hknown reg hrow hle
  exact List.mem_map.mpr ⟨s', mem_buildSequences.mpr ⟨k, p, hp, hrow'⟩, hsame⟩

/-- **The planner is given the same rows up to `W`**, in the same order. -/
theorem planRows_eq :
    ((buildSequences inner t.rows histLen).map (planRow reg)).filter (fun r => r.windowId ≤ W) =
      ((buildSequences inner t'.rows histLen).map (planRow reg)).filter fun r =>
        r.windowId ≤ W := by
  refine eq_of_ascending rowKey ((ascending_planRows t reg).filter _)
    ((ascending_planRows t' reg).filter _) fun r => ?_
  rw [List.mem_filter, List.mem_filter]
  constructor
  · rintro ⟨hr, hle⟩
    exact ⟨mem_planRows_of_mem hknown inner reg histLen hr (of_decide_eq_true hle), hle⟩
  · rintro ⟨hr, hle⟩
    exact ⟨mem_planRows_of_mem hknown.symm inner reg histLen hr (of_decide_eq_true hle), hle⟩

end Rows

/-! ### The plan up to a window -/

section Plan
variable (sortValues : IntensitySort) {physicalCores : ℕ} (theta : ℚ) (topK : ℕ) {W : ℤ}

theorem windowKey_filter (r : Row) (k : Text ×ₗ ℤ) (hk : windowKey r = some k) :
    decide (r.windowId ≤ W) = decide ((ofLex k).2 ≤ W) := by
  rw [windowKey, Option.map_eq_some_iff] at hk
  obtain ⟨t, -, rfl⟩ := hk
  rfl

/-- What is scheduled for a group of the rows up to `W`. -/
theorem rowsOf_until {df : List Row} {k : Text ×ₗ ℤ} (hk : (ofLex k).2 ≤ W) :
    rowsOf windowKey (df.filter fun r => r.windowId ≤ W) k = rowsOf windowKey df k :=
  rowsOf_filter windowKey_filter (decide_eq_true hk)

theorem groupKeys_until (df : List Row) :
    groupKeys windowKey (df.filter fun r => r.windowId ≤ W) =
      (groupKeys windowKey df).filter fun k => (ofLex k).2 ≤ W :=
  (groupKeys_filter windowKey_filter).symm

/-- The decisions up to `W` are those for the rows up to `W`. -/
theorem filter_decisions (h1 : 1 ≤ physicalCores) (df : List Row) :
    (scheduleAll sortValues df physicalCores theta topK).1.filter (fun d => d.windowId ≤ W) =
      (scheduleAll sortValues (df.filter fun r => r.windowId ≤ W) physicalCores theta topK).1 := by
  simp only [scheduleAll, groupBy, List.map_map, List.flatMap_map, Function.comp_apply]
  rw [groupKeys_until, filter_flatMap fun k _ d hd => ?_]
  · refine List.flatMap_congr fun k hk => ?_
    rw [rowsOf_until (of_decide_eq_true (List.mem_filter.mp hk).2)]
  · rw [(window_of_mem h1 hd).2]

theorem filter_summaries (df : List Row) :
    (scheduleAll sortValues df physicalCores theta topK).2.filter
        (fun p => (ofLex p.2).2 ≤ W) =
      (scheduleAll sortValues (df.filter fun r => r.windowId ≤ W) physicalCores theta topK).2 := by
  simp only [scheduleAll, groupBy, List.map_map]
  rw [groupKeys_until, List.filter_map]
  refine List.map_congr_left fun k hk => ?_
  have hle : (ofLex k).2 ≤ W := of_decide_eq_true (List.mem_filter.mp hk).2
  simp only [Function.comp_apply, rowsOf_until hle]

end Plan

/-! ### The result -/

/-- The decisions and the summaries for the windows up to `W`. -/
def upTo (W : ℤ) (plan : List Decision × List (Summary × Text ×ₗ ℤ)) :
    List Decision × List (Summary × Text ×ₗ ℤ) :=
  (plan.1.filter fun d => d.windowId ≤ W, plan.2.filter fun p => (ofLex p.2).2 ≤ W)

/-- **The plan does not look ahead**: where two tables have the same threads in the windows up to
`W` and the same measurements before `W`, the predictions of a trained bundle for them are planned
alike up to `W`. -/
theorem plan_nonAnticipating (inner inner' : Sorter (KeyLe WindowRow.windowId)) {fit : Fit}
    {df₀ : List WindowRow} {histLen : ℕ} {trained : Trained}
    (htrain : train inner fit df₀ histLen = .ok trained) {b : Bundle}
    (hb : b = trained.bundle ∨ b = trained.fullBundle) {t t' : NormTable} {W : ℤ}
    (hknown : (known W t.rows).Perm (known W t'.rows)) {live live' : List PredRow}
    (hlive : predict inner' b t.rows = .ok live) (hlive' : predict inner' b t'.rows = .ok live')
    (sortValues : IntensitySort) {physicalCores : ℕ} (h1 : 1 ≤ physicalCores) (theta : ℚ)
    (topK : ℕ) :
    upTo W (scheduleAll sortValues (live.map readPrediction) physicalCores theta topK) =
      upTo W (scheduleAll sortValues (live'.map readPrediction) physicalCores theta topK) := by
  obtain ⟨-, reg, hserves⟩ := exists_serves htrain hb
  have hrows : ∀ {t : NormTable} {live : List PredRow}, predict inner' b t.rows = .ok live →
      live.map readPrediction = (buildSequences inner' t.rows b.histLen).map (planRow reg) := by
    intro t live hlive
    rw [predict_eq inner' hserves] at hlive
    split_ifs at hlive
    rw [← Except.ok.inj hlive, List.map_map]
    rfl
  have hsame := planRows_eq hknown inner' reg b.histLen
  rw [hrows hlive, hrows hlive', upTo, upTo, filter_decisions sortValues theta topK h1,
    filter_decisions sortValues theta topK h1, filter_summaries, filter_summaries, hsame]

/-! ### Two recordings -/

/-- The windows of two threads, up to window 6. -/
def early : NormTable where
  rows := [windowOf "a" 4 (1 / 4), windowOf "b" 4 1, windowOf "a" 5 (1 / 2), windowOf "b" 5 0,
    windowOf "a" 6 1]
  nodup := by decide +kernel
  load := by decide +kernel

/-- The same with another window 6 and what comes later. -/
def late : NormTable where
  rows := [windowOf "c" 7 1, windowOf "a" 4 (1 / 4), windowOf "b" 4 1, windowOf "a" 5 (1 / 2),
    windowOf "b" 5 0, windowOf "a" 6 0, windowOf "a" 7 (1 / 3), windowOf "c" 8 1]
  nodup := by decide +kernel
  load := by decide +kernel

theorem known_early : (known 6 early.rows).Perm (known 6 late.rows) := by
  have hsame : known 6 early.rows = known 6 late.rows := rfl
  rw [hsame]

/-- The bundle of a training. -/
def meanBundle : Bundle :=
  (trained meanFit (buildSequences (Sorter.insertion _) interleaved 1) 1).bundle

theorem exists_live (df : List WindowRow)
    (hne : (buildSequences (Sorter.insertion _) df 1).length ≠ 0) :
    ∃ live, predict (Sorter.insertion _) meanBundle df = .ok live := by
  obtain ⟨hlen, reg, hserves⟩ := exists_serves train_interleaved (b := meanBundle) (Or.inl rfl)
  rw [predict_eq _ hserves, hlen, if_neg fun h => hne (List.length_eq_zero_iff.mpr h)]
  exact ⟨_, rfl⟩

theorem plan_nonAnticipating_early : ∃ live live',
    predict (Sorter.insertion _) meanBundle early.rows = .ok live ∧
    predict (Sorter.insertion _) meanBundle late.rows = .ok live' ∧
    upTo 6 (scheduleAll intensitySort (live.map readPrediction) 1 (3 / 5) 32) =
      upTo 6 (scheduleAll intensitySort (live'.map readPrediction) 1 (3 / 5) 32) := by
  obtain ⟨live, hlive⟩ := exists_live early.rows (by decide +kernel)
  obtain ⟨live', hlive'⟩ := exists_live late.rows (by decide +kernel)
  exact ⟨live, live', hlive, hlive', plan_nonAnticipating _ _ train_interleaved (Or.inl rfl)
    known_early hlive hlive' intensitySort le_rfl _ _⟩

end Magm.Pipeline.NonAnticipation
