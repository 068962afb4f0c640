import Magm.Features.ThreadWindows

/-! # No counter is lost between samples and thread windows

Every attributed sample is in the group of its scene, its thread and its time, a window is the sum
of the samples of its group, and the groups that are left out have no instructions or no cycles. So
the windows of a scene, the dropped groups and the samples without a thread add up to all samples
(`conserved_rawWindows`). -/

namespace Magm.Features.Conservation

open Magm.Lib.Chars Magm.Lib.Sorting Magm.Lib.GroupBy Magm.Table.Cells Magm.Table.Names
open Magm.Collect.SwitchLog Magm.Collect.Attribution Magm.Features.Dataset
open Magm.Features.ThreadWindows

/-- The group of a sample: its scene, the thread it is given, and the window of its time. -/
def sampleGroup (windowNs : ℤ) (scene : SceneData) (s : Sample) : Option Group :=
  (runs scene s).map fun t => ⟨scene.name, t.1, t.2, s.ts.fdiv windowNs⟩

/-- The samples of a scene in a group. -/
def members (windowNs : ℤ) (g : Group) (scene : SceneData) : List Sample :=
  scene.samples.filter fun s => sampleGroup windowNs scene s = some g

/-- A counter of a list of samples. -/
def counted (e : Event) (samples : List Sample) : ℕ := (samples.map fun s => s.counters e).sum

/-- A counter of all samples of a group. -/
def groupTotal (scenes : List SceneData) (windowNs : ℤ) (g : Group) (e : Event) : ℕ :=
  (scenes.map fun scene => counted e (members windowNs g scene)).sum

/-- The group has instructions and cycles. -/
def Kept (scenes : List SceneData) (windowNs : ℤ) (g : Group) : Prop :=
  0 < groupTotal scenes windowNs g .instructions ∧ 0 < groupTotal scenes windowNs g .cpuCycles

instance (scenes : List SceneData) (windowNs : ℤ) : DecidablePred (Kept scenes windowNs) :=
  fun g => by unfold Kept; infer_instance

/-- The samples of a scene in the groups that are left out. -/
def dropped (scenes : List SceneData) (windowNs : ℤ) (scene : SceneData) : List Sample :=
  scene.samples.filter fun s =>
    (sampleGroup windowNs scene s).any fun g => ¬ Kept scenes windowNs g

/-- The samples of a scene without a thread. -/
def unattributed (windowNs : ℤ) (scene : SceneData) : List Sample :=
  scene.samples.filter fun s => (sampleGroup windowNs scene s).isNone

/-- **Nothing is lost, doubled or invented** between the samples and the windows. -/
structure Conserved (scenes : List SceneData) (windowNs : ℤ) (out : List ThreadWindow) : Prop where
  unique : (out.map fun w => w.sum.key).Nodup
  encoded : ∀ w ∈ out, w.sum.threadKey = threadKeyText w.sum.loadType w.sum.pid w.sum.thread
  attributed : ∀ scene ∈ scenes, ∀ s ∈ scene.samples,
    (∃ r ∈ scene.sched, Precedes r s) ↔ ∃ g, sampleGroup windowNs scene s = some g
  sums : ∀ w ∈ out, ∀ e, w.sum.counters e = groupTotal scenes windowNs w.sum.group e
  once : ∀ scene ∈ scenes, ∀ s ∈ scene.samples, ∀ g, sampleGroup windowNs scene s = some g →
    Kept scenes windowNs g → ∃! w, w ∈ out ∧ w.sum.group = g
  left_out : ∀ g, ¬ Kept scenes windowNs g → ∀ w ∈ out, w.sum.group ≠ g
  total : ∀ scene ∈ scenes, ∀ e,
    ((out.filter fun w => w.sum.loadType = scene.name).map fun w => w.sum.counters e).sum +
      counted e (dropped scenes windowNs scene) + counted e (unattributed windowNs scene) =
        counted e scene.samples

/-! ### Groups of rows and groups of samples -/

section Groups
variable {scenes : List SceneData} {windowNs : ℤ} {g : Group} {e : Event}

theorem rowGroup_dataRow (windowNs : ℤ) {scene : SceneData} {s : Sample} {r : DataRow}
    (h : dataRow scene s = some r) :
    some (rowGroup windowNs r) = sampleGroup windowNs scene s := by
  obtain ⟨t, ht, rfl⟩ := Option.map_eq_some_iff.mp h
  rw [sampleGroup, ht]
  rfl

theorem counters_dataRow {scene : SceneData} {s : Sample} {r : DataRow}
    (h : dataRow scene s = some r) : r.counters = s.counters := by
  obtain ⟨t, -, rfl⟩ := Option.map_eq_some_iff.mp h
  rfl

/-- The rows of a scene in a group are its samples in the group, in the order of the scripts. -/
theorem counters_rows (scene : SceneData) (g : Group) (e : Event) :
    ((((sortBy sampleKey scene.samples).filterMap (dataRow scene)).filter
        fun r => rowGroup windowNs r = g).map fun r => r.counters e).sum =
      counted e (members windowNs g scene) := by
  have hq : ∀ s, decide (sampleGroup windowNs scene s = some g) =
      (dataRow scene s).any fun r => decide (rowGroup windowNs r = g) := by
    intro s
    rcases hr : dataRow scene s with _ | r
    · have hnone : sampleGroup windowNs scene s = none := by
        rw [sampleGroup, Option.map_eq_none_iff]
        exact Option.map_eq_none_iff.mp hr
      rw [hnone]
      rfl
    · rw [← rowGroup_dataRow windowNs hr, Option.any_some]
      exact decide_eq_decide.mpr Option.some_inj
  have hc : ∀ s r, dataRow scene s = some r → r.counters e = s.counters e := fun s r hr => by
    rw [counters_dataRow hr]
  rw [map_filter_filterMap hq hc]
  exact ((((sortBy_perm sampleKey scene.samples).filter _).map _)).sum_eq

/-- **The sum over the rows of a group is the sum over its samples.** -/
theorem sum_rows : ∀ (scenes : List SceneData) (g : Group) (e : Event),
    (((scenes.flatMap fun scene => (sortBy sampleKey scene.samples).filterMap
        (dataRow scene)).filter fun r => rowGroup windowNs r = g).map fun r => r.counters e).sum =
      groupTotal scenes windowNs g e
  | [], _, _ => rfl
  | scene :: scenes, g, e => by
    rw [List.flatMap_cons, List.filter_append, List.map_append, List.sum_append, counters_rows,
      sum_rows scenes g e]
    rfl

/-- A group of one scene has samples of no other scene. -/
theorem members_eq_nil {scene : SceneData} (h : g.loadType ≠ scene.name) :
    members windowNs g scene = [] := by
  refine List.filter_eq_nil_iff.mpr fun s _ => ?_
  rw [decide_eq_true_eq, sampleGroup, Option.map_eq_some_iff]
  rintro ⟨t, -, rfl⟩
  exact h rfl

theorem groupTotal_of_ne (e : Event) : ∀ {scenes : List SceneData},
    (∀ scene ∈ scenes, g.loadType ≠ scene.name) → groupTotal scenes windowNs g e = 0
  | [], _ => rfl
  | scene :: scenes, h => by
    have ih := groupTotal_of_ne e fun scene' hs => h scene' (List.mem_cons_of_mem _ hs)
    unfold groupTotal at ih ⊢
    rw [List.map_cons, List.sum_cons, members_eq_nil (h scene (by simp)), ih]
    rfl

/-- The sum over a group is the sum over the samples of its scene. -/
theorem groupTotal_eq : ∀ {scenes : List SceneData}, (scenes.map SceneData.name).Nodup →
    ∀ {scene : SceneData}, scene ∈ scenes → g.loadType = scene.name →
      groupTotal scenes windowNs g e = counted e (members windowNs g scene)
  | scene' :: scenes, hn, scene, hmem, hg => by
    rw [List.map_cons, List.nodup_cons] at hn
    have hcons : groupTotal (scene' :: scenes) windowNs g e =
        counted e (members windowNs g scene') + groupTotal scenes windowNs g e := rfl
    rcases List.mem_cons.mp hmem with rfl | hmem
    · have hrest : groupTotal scenes windowNs g e = 0 := groupTotal_of_ne e fun scene' hs heq =>
        hn.1 (List.mem_map.mpr ⟨scene', hs, heq.symm.trans hg⟩)
      rw [hcons, hrest, Nat.add_zero]
    · have hfirst : members windowNs g scene' = [] := members_eq_nil fun heq =>
        hn.1 (List.mem_map.mpr ⟨scene, hmem, hg.symm.trans heq⟩)
      rw [hcons, hfirst, groupTotal_eq hn.2 hmem hg]
      exact Nat.zero_add _

end Groups

/-! ### The windows of the samples -/

section Windows
variable {scenes : List SceneData} {windowNs : ℤ}
  (h : ∀ scene ∈ scenes, ∀ r ∈ scene.sched, Complete r)
include h

/-- What the grouped table of the samples says. -/
theorem sums_aggregate {w : WindowSum}
    (hw : w ∈ aggregate (loadFullDataset (mergeResults scenes)) windowNs) (e : Event) :
    w.counters e = groupTotal scenes windowNs w.group e := by
  rw [(mem_aggregate hw).counters, loadFullDataset_mergeResults h, sum_rows]

theorem ran_iff {w : WindowSum}
    (hw : w ∈ aggregate (loadFullDataset (mergeResults scenes)) windowNs) :
    Ran w ↔ Kept scenes windowNs w.group := by
  unfold Ran Kept
  rw [sums_aggregate h hw, sums_aggregate h hw]

/-- A sample with a thread is in a row of the grouped table. -/
theorem exists_aggregate_of_sample {scene : SceneData} (hscene : scene ∈ scenes) {s : Sample}
    (hs : s ∈ scene.samples) {g : Group} (hg : sampleGroup windowNs scene s = some g) :
    ∃ w ∈ aggregate (loadFullDataset (mergeResults scenes)) windowNs, w.group = g := by
  obtain ⟨t, ht, -⟩ := Option.map_eq_some_iff.mp hg
  obtain ⟨r, hr⟩ : ∃ r, dataRow scene s = some r := ⟨_, by rw [dataRow, ht]; rfl⟩
  have hmem : r ∈ loadFullDataset (mergeResults scenes) := by
    rw [loadFullDataset_mergeResults h, List.mem_flatMap]
    exact ⟨scene, hscene, List.mem_filterMap.mpr ⟨s, (mem_sortBy _ _).mpr hs, hr⟩⟩
  obtain ⟨w, hw, hgroup⟩ := exists_aggregate windowNs hmem
  have hgr := rowGroup_dataRow windowNs hr
  rw [hg, Option.some_inj] at hgr
  exact ⟨w, hw, hgroup.trans hgr⟩

/-- A kept group has its window. -/
theorem exists_window_of_sample {scene : SceneData} (hscene : scene ∈ scenes) {s : Sample}
    (hs : s ∈ scene.samples) {g : Group} (hg : sampleGroup windowNs scene s = some g)
    (hkept : Kept scenes windowNs g) :
    ∃ w ∈ rawWindows (loadFullDataset (mergeResults scenes)) windowNs, w.sum.group = g := by
  obtain ⟨w, hw, rfl⟩ := exists_aggregate_of_sample h hscene hs hg
  obtain ⟨t, ht, rfl⟩ := exists_rawWindow hw ((ran_iff h hw).mpr hkept)
  exact ⟨t, ht, rfl⟩

/-- The windows of a scene. -/
def sceneWindows (scenes : List SceneData) (windowNs : ℤ) (scene : SceneData) :
    List ThreadWindow :=
  (rawWindows (loadFullDataset (mergeResults scenes)) windowNs).filter
    fun w => w.sum.loadType = scene.name

omit h in
theorem mem_sceneWindows {scene : SceneData} {w : ThreadWindow}
    (hw : w ∈ sceneWindows scenes windowNs scene) :
    w.sum ∈ aggregate (loadFullDataset (mergeResults scenes)) windowNs ∧ Ran w.sum ∧
      w.sum.loadType = scene.name := by
  obtain ⟨hraw, hload⟩ := List.mem_filter.mp hw
  exact ⟨(mem_rawWindows hraw).1, (mem_rawWindows hraw).2, of_decide_eq_true hload⟩

omit h in
theorem nodup_group_sceneWindows (scene : SceneData) :
    ((sceneWindows scenes windowNs scene).map fun w => w.sum.group).Nodup := by
  have hkeys : ((sceneWindows scenes windowNs scene).map fun w => w.sum.key).Nodup :=
    (nodup_rawWindows _ _).sublist (List.filter_sublist.map _)
  rw [List.Nodup, List.pairwise_map] at hkeys ⊢
  exact hkeys.imp_of_mem fun hw hw' hne hg =>
    hne (key_of_group (mem_sceneWindows hw).1 (mem_sceneWindows hw').1 hg)

/-- The group of a sample has a window exactly when it is kept. -/
theorem group_mem_sceneWindows {scene : SceneData} (hscene : scene ∈ scenes) {s : Sample}
    (hs : s ∈ scene.samples) {g : Group} (hg : sampleGroup windowNs scene s = some g) :
    g ∈ (sceneWindows scenes windowNs scene).map (fun w => w.sum.group) ↔
      Kept scenes windowNs g := by
  rw [List.mem_map]
  constructor
  · rintro ⟨w, hw, rfl⟩
    exact (ran_iff h (mem_sceneWindows hw).1).mp (mem_sceneWindows hw).2.1
  · intro hkept
    obtain ⟨w, hw, hwg⟩ := exists_window_of_sample h hscene hs hg hkept
    have hload : w.sum.loadType = scene.name := by
      obtain ⟨t, -, rfl⟩ := Option.map_eq_some_iff.mp hg
      exact congrArg Group.loadType hwg
    exact ⟨w, List.mem_filter.mpr ⟨hw, decide_eq_true hload⟩, hwg⟩

/-- The windows of a scene add up to its samples in kept groups. -/
theorem sum_sceneWindows (hn : (scenes.map SceneData.name).Nodup) {scene : SceneData}
    (hscene : scene ∈ scenes) (e : Event) :
    ((sceneWindows scenes windowNs scene).map fun w => w.sum.counters e).sum =
      ((scene.samples.filter fun s => (sampleGroup windowNs scene s).any
        fun g => Kept scenes windowNs g).map fun s => s.counters e).sum := by
  have hsums : ((sceneWindows scenes windowNs scene).map fun w => w.sum.counters e) =
      ((sceneWindows scenes windowNs scene).map fun w => w.sum.group).map
        fun g => counted e (members windowNs g scene) := by
    rw [List.map_map]
    refine List.map_congr_left fun w hw => ?_
    obtain ⟨hagg, -, hload⟩ := mem_sceneWindows hw
    exact (sums_aggregate h hagg e).trans (groupTotal_eq hn hscene hload)
  have hgroups : ((sceneWindows scenes windowNs scene).map fun w => w.sum.group).Nodup :=
    nodup_group_sceneWindows scene
  refine (congrArg List.sum hsums).trans ((sum_map_filter (fun s : Sample => s.counters e)
    (sampleGroup windowNs scene) hgroups scene.samples).trans ?_)
  refine congrArg (fun l => (l.map fun s : Sample => s.counters e).sum)
    (List.filter_congr fun s hs => ?_)
  rcases hg : sampleGroup windowNs scene s with _ | g
  · rw [Option.any_none, Option.any_none]
  · rw [Option.any_some, Option.any_some]
    exact decide_eq_decide.mpr (group_mem_sceneWindows h hscene hs hg)

/-- **Counters are conserved** from the samples of any scenes to their thread windows. -/
theorem conserved_rawWindows (hn : (scenes.map SceneData.name).Nodup) :
    Conserved scenes windowNs (rawWindows (loadFullDataset (mergeResults scenes)) windowNs) := by
  have hagg : ∀ w ∈ rawWindows (loadFullDataset (mergeResults scenes)) windowNs,
      w.sum ∈ aggregate (loadFullDataset (mergeResults scenes)) windowNs := fun w hw =>
    (mem_rawWindows hw).1
  refine
    { unique := nodup_rawWindows _ _
      encoded := fun w hw => (mem_aggregate (hagg w hw)).threadKey
      attributed := fun scene hscene s _ => ?_
      sums := fun w hw e => sums_aggregate h (hagg w hw) e
      once := fun scene hscene s hs g hg hkept => ?_
      left_out := fun g hnot w hw hgroup => ?_
      total := fun scene hscene e => ?_ }
  · rw [← runs_ne_none_iff (h scene hscene) s, ← Option.ne_none_iff_exists', sampleGroup, Ne, Ne,
      Option.map_eq_none_iff]
  · obtain ⟨w, hw, hwg⟩ := exists_window_of_sample h hscene hs hg hkept
    refine ⟨w, ⟨hw, hwg⟩, fun w' hw' => ?_⟩
    refine List.inj_on_of_nodup_map (nodup_rawWindows _ _) hw'.1 hw ?_
    exact key_of_group (hagg w' hw'.1) (hagg w hw) (hw'.2.trans hwg.symm)
  · refine hnot ?_
    rw [← hgroup]
    exact (ran_iff h (hagg w hw)).mp (mem_rawWindows hw).2
  · have hsum := sum_partition (fun s : Sample => s.counters e) (sampleGroup windowNs scene)
      (Kept scenes windowNs) scene.samples
    rw [← sum_sceneWindows h hn hscene e] at hsum
    exact hsum

end Windows

/-- A scene with one switch, to thread 7, on CPU 0, and a sample on each of two CPUs. -/
def oneSwitch : SceneData where
  name := cpuScene.text
  read := cpuScene.read
  samples := [⟨5, 0, fun _ => 3⟩, ⟨6, 1, fun _ => 2⟩]
  sched := [⟨4, some 0, some "swapper/0".toList, some 0, some "worker".toList, some 7⟩]

theorem conserved_oneSwitch :
    Conserved [oneSwitch] 10 (rawWindows (loadFullDataset (mergeResults [oneSwitch])) 10) := by
  refine conserved_rawWindows (fun scene hscene r hr => ?_) (by decide)
  obtain rfl := List.mem_singleton.mp hscene
  obtain rfl := List.mem_singleton.mp hr
  exact ⟨⟨_, rfl, by decide⟩, ⟨_, rfl⟩⟩

end Magm.Features.Conservation
