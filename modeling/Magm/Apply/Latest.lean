import Magm.Apply.Affinity
import Magm.Export.Lossless

/-! # The latest window, three times

The final view of the exporter, `choose_rows` of `apply_cpu_affinity.py` and `load_cpu_plan` of
`run_live_affinity_validation.py` each keep the rows of the newest window of a load type: one merges
the selection with the largest window ids, one compares with a `transform`, one takes the maximum
behind a filter. They keep the same rows, and the two scripts have them in one order
(`latest_agree`). -/

namespace Magm.Apply.Latest

open Magm.Lib.Chars Magm.Lib.PyStr Magm.Lib.Sorting Magm.Lib.GroupBy Magm.Table.Cells
open Magm.Planner.Score Magm.Planner.Schedule Magm.Planner.Placement Magm.Planner.Windows
open Magm.Export.Selection Magm.Export.Lossless Magm.Apply.Affinity

/-! ### Exported tables -/

/-- Where a row puts its thread. -/
def rowAddress (r : SelectionRow) : (Cell × ℤ) × ℕ := ((r.loadType, r.windowId), r.targetCpu)

/-- A table as the exporter writes it, in any order of its rows: every CPU is taken apart into its
core and its sibling, and no window gives a CPU twice. -/
structure SelectionTable where
  rows : List SelectionRow
  load : ∀ r ∈ rows, r.loadType ≠ Cell.missing
  core : ∀ r ∈ rows, r.physicalCore = r.targetCpu / 2
  slot : ∀ r ∈ rows, r.smtSlot = r.targetCpu % 2
  address_nodup : (rows.map rowAddress).Nodup

/-- **The planner's decisions are exported to such a table**, and any order of its rows is one. -/
def SelectionTable.ofPlanned {ds : List Decision} (hds : Planned ds) {rows : List SelectionRow}
    (hrows : rows.Perm (ds.map shown)) : SelectionTable where
  rows := rows
  load r hr := by
    obtain ⟨d, hd, rfl⟩ := List.mem_map.mp (hrows.mem_iff.mp hr)
    exact hds.load d hd
  core r hr := by
    obtain ⟨d, -, rfl⟩ := List.mem_map.mp (hrows.mem_iff.mp hr)
    rfl
  slot r hr := by
    obtain ⟨d, -, rfl⟩ := List.mem_map.mp (hrows.mem_iff.mp hr)
    rfl
  address_nodup := by
    have haddress : rowAddress ∘ shown = address := by
      funext d
      rfl
    rw [(hrows.map rowAddress).nodup_iff, List.map_map, haddress]
    exact hds.address_nodup

/-- The load types of a table. -/
def loadTypes (rows : List SelectionRow) : List Text := groupKeys (fun r => r.loadType.val) rows

/-! ### `load_cpu_plan` -/

/-- The columns the plan is sorted by. -/
def cpuPlanKey (r : SelectionRow) : ℕ ×ₗ ℕ ×ₗ ℕ :=
  toLex (r.physicalCore, toLex (r.smtSlot, r.targetCpu))

/-- The rows of `--window-id`; `none` is the `ValueError` of a text that is no number. -/
def windowOf (df : List SelectionRow) (windowId : Text) : Option (List SelectionRow) :=
  if windowId = "latest".toList then
    some (df.filter fun r => (df.map SelectionRow.windowId).max? = some r.windowId)
  else (pyInt windowId).map fun w => df.filter fun r => r.windowId = w

/-- `load_cpu_plan` on the table that `read_csv` yields; `none` is one of its `ValueError`s. -/
def loadCpuPlan (df : List SelectionRow) (loadType windowId : Text) : Option (List SelectionRow) :=
  let df := df.filter fun r => r.loadType.str = loadType
  if df.isEmpty then none
  else (windowOf df windowId).bind fun df =>
    if df.isEmpty then none else some (sortBy cpuPlanKey df)

/-! ### The newest rows -/

/-- No row of its load type is of a later window. -/
def Newest (rows : List SelectionRow) (r : SelectionRow) : Prop :=
  ∀ r' ∈ rows, r'.loadType = r.loadType → r'.windowId ≤ r.windowId

instance (rows : List SelectionRow) (r : SelectionRow) : Decidable (Newest rows r) := by
  unfold Newest; infer_instance

/-- The newest rows of a load type. -/
def newestOf (rows : List SelectionRow) (L : Text) : List SelectionRow :=
  rows.filter fun r => r.loadType.val = some L ∧ Newest rows r

theorem mem_newestOf {rows : List SelectionRow} {L : Text} {r : SelectionRow} :
    r ∈ newestOf rows L ↔ r ∈ rows ∧ r.loadType.val = some L ∧ Newest rows r := by
  unfold newestOf
  rw [List.mem_filter, decide_eq_true_eq]

theorem loadType_eq {r r' : SelectionRow} {L : Text} (h : r.loadType.val = some L)
    (h' : r'.loadType.val = some L) : r.loadType = r'.loadType := by
  ext1
  rw [h, h']

/-- `astype(str)` compares load types that are not missing. -/
theorem str_eq_iff {rows : List SelectionRow} {L : Text} (hL : L ∈ loadTypes rows)
    (r : SelectionRow) : r.loadType.str = L ↔ r.loadType.val = some L := by
  obtain ⟨r₀, -, hr₀⟩ := mem_groupKeys.mp hL
  have hread : L ∉ missingTokens := r₀.loadType.read L hr₀
  unfold Cell.str
  rcases hval : r.loadType.val with _ | t
  · refine iff_of_false (fun hnan => ?_) (by simp)
    rw [Option.getD_none] at hnan
    rw [← hnan] at hread
    exact hread (by decide)
  · rw [Option.getD_some, Option.some_inj]

/-- The rows of a load type. -/
theorem filter_str {rows : List SelectionRow} {L : Text} (hL : L ∈ loadTypes rows) :
    rows.filter (fun r => r.loadType.str = L) = rows.filter fun r => r.loadType.val = some L :=
  List.filter_congr fun r _ => decide_eq_decide.mpr (str_eq_iff hL r)

theorem max_windowId {rows : List SelectionRow} {L : Text} {r : SelectionRow} (hr : r ∈ rows)
    (hload : r.loadType.val = some L) :
    ((rows.filter fun r => r.loadType.val = some L).map SelectionRow.windowId).max? =
      some r.windowId ↔ Newest rows r := by
  rw [List.max?_eq_some_iff]
  simp only [List.mem_map, List.mem_filter, decide_eq_true_eq]
  constructor
  · rintro ⟨-, hmax⟩ r' hr' heq
    exact hmax _ ⟨r', ⟨hr', by rw [heq, hload]⟩, rfl⟩
  · intro hnew
    refine ⟨⟨r, ⟨hr, hload⟩, rfl⟩, ?_⟩
    rintro _ ⟨r', ⟨hr', hload'⟩, rfl⟩
    exact hnew r' hr' (loadType_eq hload' hload)

theorem newestOf_ne_nil {rows : List SelectionRow} {L : Text} (hL : L ∈ loadTypes rows) :
    newestOf rows L ≠ [] := by
  obtain ⟨r₀, hr₀, hload₀⟩ := mem_groupKeys.mp hL
  have hmem : r₀.windowId ∈
      (rows.filter fun r => r.loadType.val = some L).map SelectionRow.windowId :=
    List.mem_map.mpr ⟨r₀, List.mem_filter.mpr ⟨hr₀, decide_eq_true hload₀⟩, rfl⟩
  obtain ⟨w, hw⟩ := Option.ne_none_iff_exists'.mp
    (mt List.max?_eq_none_iff.mp (List.ne_nil_of_mem hmem))
  obtain ⟨r, hr, rfl⟩ := List.mem_map.mp (List.max?_eq_some_iff.mp hw).1
  rw [List.mem_filter, decide_eq_true_eq] at hr
  exact List.ne_nil_of_mem
    (mem_newestOf.mpr ⟨hr.1, hr.2, (max_windowId hr.1 hr.2).mp hw⟩)

/-- **What `load_cpu_plan` returns.** -/
theorem loadCpuPlan_latest {rows : List SelectionRow} {L : Text} (hL : L ∈ loadTypes rows) :
    loadCpuPlan rows L "latest".toList = some (sortBy cpuPlanKey (newestOf rows L)) := by
  have hfilter : (rows.filter fun r => r.loadType.val = some L).filter (fun r =>
      ((rows.filter fun r => r.loadType.val = some L).map SelectionRow.windowId).max? =
        some r.windowId) = newestOf rows L := by
    rw [List.filter_filter, newestOf]
    refine List.filter_congr fun r hr => ?_
    rw [← Bool.decide_and, decide_eq_decide, and_comm]
    exact and_congr_right fun hload => max_windowId hr hload
  have hne := newestOf_ne_nil hL
  have hne' : rows.filter (fun r => r.loadType.val = some L) ≠ [] := by
    intro hnil
    rw [hnil] at hfilter
    exact hne hfilter.symm
  unfold loadCpuPlan windowOf
  simp only [filter_str hL]
  rw [if_neg (by simpa using hne'), if_pos trivial, Option.bind_some, hfilter,
    if_neg (by simpa using hne)]

/-! ### `choose_rows` -/

section Choose
variable {rows : List SelectionRow}

/-- The comparison with `transform("max")`. -/
theorem latest_entryOf {df : List SelectionRow} {r : SelectionRow} (hr : r ∈ df)
    (hload : r.loadType ≠ Cell.missing) :
    latest (df.map entryOf) (entryOf r) = some r.windowId ↔ Newest df r := by
  obtain ⟨L, hL⟩ : ∃ L, r.loadType.val = some L :=
    Option.ne_none_iff_exists'.mp fun hnone => hload (by ext1; exact hnone)
  have hfilter : ((df.map entryOf).filter fun e => e.loadType = (entryOf r).loadType).map
      PlanEntry.windowId = (df.filter fun r => r.loadType.val = some L).map
        SelectionRow.windowId := by
    rw [List.filter_map, List.map_map]
    have hcongr : df.filter ((fun e : PlanEntry => decide (e.loadType = (entryOf r).loadType)) ∘
        entryOf) = df.filter fun r => r.loadType.val = some L := by
      refine List.filter_congr fun r' _ => decide_eq_decide.mpr ?_
      exact ⟨fun heq => (congrArg Cell.val heq).trans hL, fun hval => loadType_eq hval hL⟩
    rw [hcongr]
    rfl
  unfold latest
  rw [hfilter, ← max_windowId hr hL]
  have hval : (entryOf r).loadType.val = some L := hL
  rw [hval, Option.bind_some]

theorem filter_latest {df : List SelectionRow} (hload : ∀ r ∈ df, r.loadType ≠ Cell.missing) :
    (df.map entryOf).filter (fun e => latest (df.map entryOf) e = some e.windowId) =
      (df.filter fun r => Newest df r).map entryOf := by
  rw [List.filter_map]
  congr 1
  refine List.filter_congr fun r hr => ?_
  exact decide_eq_decide.mpr (latest_entryOf hr (hload r hr))

/-- The rows that `choose_rows` keeps, before it sorts them. -/
theorem chooseRows_ofLoadType {df : List SelectionRow} {loadType : Option Text}
    (h : ofLoadType (rows.map entryOf) loadType = df.map entryOf)
    (hload : ∀ r ∈ df, r.loadType ≠ Cell.missing) :
    chooseRows (rows.map entryOf) loadType "latest".toList =
      some (sortBy entryKey ((df.filter fun r => Newest df r).map entryOf)) := by
  unfold chooseRows
  simp only [h]
  by_cases hnil : df = []
  · subst hnil
    rfl
  · rw [if_neg (by simpa using hnil), if_pos trivial, filter_latest hload]

theorem chooseRows_some (hload : ∀ r ∈ rows, r.loadType ≠ Cell.missing) {L : Text}
    (hL : L ∈ loadTypes rows) :
    chooseRows (rows.map entryOf) (some L) "latest".toList =
      some (sortBy entryKey ((newestOf rows L).map entryOf)) := by
  obtain ⟨r₀, -, hr₀⟩ := mem_groupKeys.mp hL
  have hne : L ≠ [] := by
    rintro rfl
    exact r₀.loadType.read [] hr₀ Cell.nil_mem_missingTokens
  have hof : ofLoadType (rows.map entryOf) (some L) =
      (rows.filter fun r => r.loadType.val = some L).map entryOf := by
    unfold ofLoadType
    simp only
    rw [if_neg hne, List.filter_map, ← filter_str hL]
    rfl
  have hsub : ∀ r ∈ rows.filter (fun r => r.loadType.val = some L), r.loadType ≠ Cell.missing :=
    fun r hr => hload r (List.mem_filter.mp hr).1
  rw [chooseRows_ofLoadType hof hsub, List.filter_filter, newestOf]
  congr 3
  refine List.filter_congr fun r _ => ?_
  rw [← Bool.decide_and, decide_eq_decide, and_comm]
  refine and_congr_right fun hval => ?_
  simp only [Newest, List.mem_filter, decide_eq_true_eq]
  exact ⟨fun h r' hr' heq => h r' ⟨hr', by rw [heq, hval]⟩ heq, fun h r' hr' => h r' hr'.1⟩

end Choose

/-! ### One order -/

section Order
variable (t : SelectionTable)

namespace SelectionTable

theorem nodup_rows : t.rows.Nodup := t.address_nodup.of_map _

/-- A row is told by what `choose_rows` sees of it. -/
theorem entryOf_injOn {r r' : SelectionRow} (hr : r ∈ t.rows) (hr' : r' ∈ t.rows)
    (heq : entryOf r = entryOf r') : r = r' := by
  rw [entryOf, entryOf, PlanEntry.mk.injEq] at heq
  refine List.inj_on_of_nodup_map t.address_nodup hr hr' ?_
  rw [rowAddress, rowAddress, heq.1, heq.2.1, Int.ofNat_inj.mp heq.2.2.2]

/-- Core, sibling and CPU order the rows by the CPU. -/
theorem cpuPlanKey_le {r r' : SelectionRow} (hr : r ∈ t.rows) (hr' : r' ∈ t.rows) :
    cpuPlanKey r ≤ cpuPlanKey r' ↔ r.targetCpu ≤ r'.targetCpu := by
  unfold cpuPlanKey
  rw [t.core r hr, t.core r' hr', t.slot r hr, t.slot r' hr', Prod.Lex.toLex_le_toLex,
    Prod.Lex.toLex_le_toLex]
  simp only
  omega

/-- Two rows of the newest window of a load type have different CPUs. -/
theorem targetCpu_ne {L : Text} :
    (newestOf t.rows L).Pairwise fun r r' => r.targetCpu ≠ r'.targetCpu := by
  have hne := List.pairwise_map.mp t.address_nodup
  refine (hne.filter _).imp_of_mem fun {r r'} hr hr' haddress hcpu => haddress ?_
  obtain ⟨hmem, hload, hnew⟩ := mem_newestOf.mp hr
  obtain ⟨hmem', hload', hnew'⟩ := mem_newestOf.mp hr'
  have htype := loadType_eq hload hload'
  have hwin : r.windowId = r'.windowId :=
    le_antisymm (hnew' r hmem htype) (hnew r' hmem' htype.symm)
  rw [rowAddress, rowAddress, htype, hwin, hcpu]

/-- **The plan of a load type** is in the order of its CPUs. -/
theorem plan_ascending {L : Text} :
    (sortBy cpuPlanKey (newestOf t.rows L)).Pairwise fun r r' => r.targetCpu < r'.targetCpu := by
  have hperm := sortBy_perm cpuPlanKey (newestOf t.rows L)
  have hne : (sortBy cpuPlanKey (newestOf t.rows L)).Pairwise fun r r' =>
      r.targetCpu ≠ r'.targetCpu :=
    (hperm.pairwise_iff fun {_ _} h => h.symm).mpr t.targetCpu_ne
  refine ((sortBy_sorted cpuPlanKey _).and hne).imp_of_mem fun {r r'} hr hr' h => ?_
  have hmem := (mem_newestOf.mp (hperm.mem_iff.mp hr)).1
  have hmem' := (mem_newestOf.mp (hperm.mem_iff.mp hr')).1
  exact lt_of_le_of_ne ((t.cpuPlanKey_le hmem hmem').mp h.1) h.2

/-- `choose_rows` sorts entries into the order of their CPUs, load type by load type. -/
theorem sortBy_entryKey {l l' : List SelectionRow} (hp : l.Perm l') (hsub : l ⊆ t.rows)
    (hsorted : l'.Pairwise fun r r' => entryKey (entryOf r) ≤ entryKey (entryOf r'))
    (hl : l.Nodup) : sortBy entryKey (l.map entryOf) = l'.map entryOf := by
  have hkey : ((l.map entryOf).map entryKey).Nodup := by
    rw [List.map_map]
    refine List.Nodup.map_on (fun r hr r' hr' heq => ?_) hl
    refine List.inj_on_of_nodup_map t.address_nodup (hsub hr) (hsub hr') ?_
    rw [Function.comp_apply, Function.comp_apply, entryKey, entryKey, toLex_inj, Prod.mk.injEq,
      toLex_inj, Prod.mk.injEq] at heq
    have hload : r.loadType = r'.loadType := Cell.ext heq.1
    have hwin : r.windowId = r'.windowId := heq.2.1
    rw [rowAddress, rowAddress, hload, hwin, Int.ofNat_inj.mp heq.2.2]
  rw [sortBy_eq_of_perm entryKey (hp.map entryOf) hkey]
  exact sortBy_eq_self _ (List.pairwise_map.mpr hsorted)

/-- The entries of a plan are in the order of `choose_rows`. -/
theorem plan_sorted {L : Text} : (sortBy cpuPlanKey (newestOf t.rows L)).Pairwise fun r r' =>
    entryKey (entryOf r) ≤ entryKey (entryOf r') := by
  refine t.plan_ascending.imp_of_mem fun {r r'} hr hr' hlt => ?_
  rw [mem_sortBy] at hr hr'
  obtain ⟨hmem, hload, hnew⟩ := mem_newestOf.mp hr
  obtain ⟨hmem', hload', hnew'⟩ := mem_newestOf.mp hr'
  have htype := loadType_eq hload hload'
  have hwin : r.windowId = r'.windowId :=
    le_antisymm (hnew' r hmem htype) (hnew r' hmem' htype.symm)
  simp only [entryKey, entryOf, htype, hwin, Prod.Lex.toLex_le_toLex, lt_irrefl, true_and,
    false_or]
  exact Int.ofNat_le.mpr hlt.le

/-- **The two scripts agree on a load type.** -/
theorem chooseRows_eq_plan {L : Text} (hL : L ∈ loadTypes t.rows) :
    chooseRows (t.rows.map entryOf) (some L) "latest".toList =
      some ((sortBy cpuPlanKey (newestOf t.rows L)).map entryOf) := by
  have hsub : newestOf t.rows L ⊆ t.rows := fun r hr => (mem_newestOf.mp hr).1
  rw [chooseRows_some t.load hL, t.sortBy_entryKey (sortBy_perm cpuPlanKey _).symm hsub
    t.plan_sorted (t.nodup_rows.filter _)]

/-- The final view has the newest rows of a load type. -/
theorem finalView_filter (L : Text) :
    (finalView t.rows).filter (fun r => r.loadType.val = some L) = newestOf t.rows L := by
  rw [finalView_eq t.load, List.filter_filter, newestOf]
  refine List.filter_congr fun r _ => ?_
  rw [← Bool.decide_and, decide_eq_decide]
  exact Iff.rfl

/-! ### All load types -/

/-- The plans of all load types. -/
def plans : List SelectionRow :=
  (loadTypes t.rows).flatMap fun L => sortBy cpuPlanKey (newestOf t.rows L)

theorem mem_plans {r : SelectionRow} : r ∈ t.plans ↔ r ∈ t.rows ∧ Newest t.rows r := by
  simp only [plans, List.mem_flatMap, mem_sortBy, mem_newestOf]
  constructor
  · rintro ⟨L, -, hr, -, hnew⟩
    exact ⟨hr, hnew⟩
  · rintro ⟨hr, hnew⟩
    obtain ⟨L, hL⟩ : ∃ L, r.loadType.val = some L :=
      Option.ne_none_iff_exists'.mp fun hnone => t.load r hr (by ext1; exact hnone)
    exact ⟨L, mem_groupKeys.mpr ⟨r, hr, hL⟩, hr, hL, hnew⟩

theorem nodup_plans : t.plans.Nodup := by
  refine List.nodup_flatMap.mpr ⟨fun L _ => ?_, ?_⟩
  · exact (sortBy_perm cpuPlanKey _).nodup_iff.mpr (t.nodup_rows.filter _)
  · refine (nodup_groupKeys _ t.rows).imp fun {L L'} hne => List.disjoint_left.mpr ?_
    intro r hr hr'
    have hload := (mem_newestOf.mp ((mem_sortBy _ _).mp hr)).2.1
    have hload' := (mem_newestOf.mp ((mem_sortBy _ _).mp hr')).2.1
    exact hne (Option.some.inj (hload.symm.trans hload'))

theorem plans_sorted :
    t.plans.Pairwise fun r r' => entryKey (entryOf r) ≤ entryKey (entryOf r') := by
  have hkeys : (loadTypes t.rows).Pairwise (· < ·) := by
    have hle : (loadTypes t.rows).Pairwise (· ≤ ·) := List.pairwise_insertionSort _ _
    exact (hle.and (nodup_groupKeys _ t.rows)).imp fun h => lt_of_le_of_ne h.1 h.2
  refine List.pairwise_flatMap.mpr ⟨fun L _ => t.plan_sorted, hkeys.imp fun {L L'} hlt => ?_⟩
  intro r hr r' hr'
  have hload := (mem_newestOf.mp ((mem_sortBy _ _).mp hr)).2.1
  have hload' := (mem_newestOf.mp ((mem_sortBy _ _).mp hr')).2.1
  have hsort : r.loadType.sortKey < r'.loadType.sortKey := by
    unfold Cell.sortKey
    rw [hload, hload']
    exact WithTop.coe_lt_coe.mpr hlt
  simp only [entryKey, entryOf, Prod.Lex.toLex_le_toLex]
  exact Or.inl hsort

/-- Without a load type the plans of all load types are chosen. -/
theorem chooseRows_none :
    chooseRows (t.rows.map entryOf) none "latest".toList = some (t.plans.map entryOf) := by
  have hperm : (t.rows.filter fun r => Newest t.rows r).Perm t.plans := by
    refine (List.perm_ext_iff_of_nodup (t.nodup_rows.filter _) t.nodup_plans).mpr fun r => ?_
    rw [t.mem_plans, List.mem_filter, decide_eq_true_eq]
  have hsub : (t.rows.filter fun r => Newest t.rows r) ⊆ t.rows :=
    fun r hr => (List.mem_filter.mp hr).1
  rw [chooseRows_ofLoadType rfl t.load, t.sortBy_entryKey hperm hsub t.plans_sorted
    (t.nodup_rows.filter _)]

end SelectionTable

end Order

/-- **Three ways to the latest window.** For every load type of an exported table, in any order of
its rows, `load_cpu_plan` and `choose_rows` return the same rows in the same order, by ascending
CPU, and the final view has these rows; without a load type `choose_rows` returns those of all load
types. A row is told by its entry, so these are the same rows of the table. -/
theorem latest_agree (t : SelectionTable) :
    (∀ L ∈ loadTypes t.rows, ∃ plan, loadCpuPlan t.rows L "latest".toList = some plan ∧
      chooseRows (t.rows.map entryOf) (some L) "latest".toList = some (plan.map entryOf) ∧
      ((finalView t.rows).filter fun r => r.loadType.val = some L).Perm plan ∧
      plan.Pairwise fun r r' => r.targetCpu < r'.targetCpu) ∧
    (∃ plans : List (List SelectionRow), (loadTypes t.rows).map (fun L =>
        loadCpuPlan t.rows L "latest".toList) = plans.map some ∧
      chooseRows (t.rows.map entryOf) none "latest".toList = some (plans.flatten.map entryOf)) ∧
    ∀ r ∈ t.rows, ∀ r' ∈ t.rows, entryOf r = entryOf r' → r = r' := by
  refine ⟨fun L hL => ?_, ?_, fun r hr r' hr' => t.entryOf_injOn hr hr'⟩
  · refine ⟨_, loadCpuPlan_latest hL, t.chooseRows_eq_plan hL, ?_, t.plan_ascending⟩
    rw [t.finalView_filter]
    exact (sortBy_perm _ _).symm
  · refine ⟨(loadTypes t.rows).map fun L => sortBy cpuPlanKey (newestOf t.rows L), ?_, ?_⟩
    · rw [List.map_map]
      exact List.map_congr_left fun L hL => loadCpuPlan_latest hL
    · rw [← List.flatMap_def]
      exact t.chooseRows_none

/-- The exported decisions for the window of three threads. -/
def threeTable : SelectionTable :=
  SelectionTable.ofPlanned (planned_scheduleAll intensitySort threeRows 1 (3 / 5) 32 (by decide))
    (List.Perm.refl _)

theorem latest_agree_threeTable :
    ∃ plan, loadCpuPlan threeTable.rows "cpu".toList "latest".toList = some plan ∧
      chooseRows (threeTable.rows.map entryOf) (some "cpu".toList) "latest".toList =
        some (plan.map entryOf) ∧
      ((finalView threeTable.rows).filter fun r => r.loadType.val = some "cpu".toList).Perm plan ∧
      plan.Pairwise fun r r' => r.targetCpu < r'.targetCpu :=
  (latest_agree threeTable).1 _ (by decide +kernel)

end Magm.Apply.Latest
