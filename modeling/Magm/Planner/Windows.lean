import Magm.Planner.Placement

/-! # The decisions of all windows

`Planned ds` says what the exporter and the executors rely on: every decision has a load type, no
two decisions of one window share a CPU, a `CE` decision is alone on its core and an `SP` decision
has its partner on the sibling. The decisions of `main` are planned (`planned_scheduleAll`),
whatever the thread keys of the prediction table are. -/

namespace Magm.Planner.Windows

open Magm.Lib.Chars Magm.Lib.GroupBy Magm.Table.Cells Magm.Planner.Score Magm.Planner.Schedule
open Magm.Planner.Placement

/-- The window of a decision. -/
def window (d : Decision) : Cell × ℤ := (d.loadType, d.windowId)

/-- Where a decision puts its thread. -/
def address (d : Decision) : (Cell × ℤ) × ℕ := (window d, d.targetCpu)

/-- The partner of `d` on its core. -/
structure Partner (d d' : Decision) : Prop where
  window : window d' = window d
  core : d'.targetCpu / 2 = d.targetCpu / 2
  other : d'.targetCpu ≠ d.targetCpu
  named : d.pairedWith = some d'.threadKey
  names : d'.pairedWith = some d.threadKey
  score : ∃ s, 0 ≤ s ∧ d.score = some s ∧ d'.score = some s

/-- What the planner guarantees about the decisions of all windows. -/
structure Planned (ds : List Decision) : Prop where
  load : ∀ d ∈ ds, d.loadType ≠ Cell.missing
  address_nodup : (ds.map address).Nodup
  mode : ∀ d ∈ ds, ∀ d' ∈ ds, window d = window d' →
    d.mode = d'.mode ∧ d.rho = d'.rho ∧ d.nRun = d'.nRun
  ce : ∀ d ∈ ds, d.mode = .CE → d.targetCpu % 2 = 0 ∧ d.pairedWith = none ∧ d.score = none
  sp : ∀ d ∈ ds, d.mode = .SP → ∃ d' ∈ ds, Partner d d'

/-! ### One window -/

section Window
variable {subdf : List Row} {physicalCores : ℕ} {theta : ℚ} {ds : List Decision} {sm : Summary}
  (h : CorePlacement subdf physicalCores theta ds sm)
include h

theorem ce_of_mode (hm : sm.mode = .CE) : CePlacement subdf ds sm := by
  rcases Nat.lt_or_ge physicalCores subdf.length with hl | hl
  · rw [(h.sp hl).mode] at hm; cases hm
  · exact h.ce hl

theorem sp_of_mode (hm : sm.mode = .SP) : SpPlacement subdf theta ds sm := by
  rcases Nat.lt_or_ge physicalCores subdf.length with hl | hl
  · exact h.sp hl
  · rw [(h.ce hl).mode] at hm; cases hm

theorem even_of_ce {d : Decision} (hd : d ∈ ds) (hm : d.mode = .CE) :
    d.targetCpu % 2 = 0 ∧ d.pairedWith = none ∧ d.score = none := by
  have hce := ce_of_mode h ((h.same d hd).1 ▸ hm)
  have hc : d.targetCpu ∈ ds.map (·.targetCpu) := List.mem_map_of_mem hd
  rw [hce.cpus, List.mem_map] at hc
  obtain ⟨i, -, hi⟩ := hc
  refine ⟨?_, hce.alone d hd⟩
  rw [← hi, cpuForCore]; omega

/-- In mode `SP` the two threads of a core name each other. -/
theorem partner_of_sp (hw : ∀ d ∈ ds, ∀ d' ∈ ds, window d' = window d)
    {d : Decision} (hd : d ∈ ds) (hm : d.mode = .SP) : ∃ d' ∈ ds, Partner d d' := by
  have hsp := sp_of_mode h ((h.same d hd).1 ▸ hm)
  obtain ⟨d0, d1, hf, hc0, hc1, hp0, hp1, a, -, b, -, ha, hb, hs0, hs1, hs⟩ :=
    hsp.pair (d.targetCpu / 2) ((hsp.cores _).mp ⟨d, hd, rfl⟩)
  have hmem : ∀ x, x ∈ ds ∧ x.targetCpu / 2 = d.targetCpu / 2 ↔ x = d0 ∨ x = d1 := by
    intro x
    have : x ∈ ds.filter (fun y => y.targetCpu / 2 = d.targetCpu / 2) ↔ x ∈ [d0, d1] := by rw [hf]
    simpa using this
  have h0 := (hmem d0).mpr (Or.inl rfl)
  have h1 := (hmem d1).mpr (Or.inr rfl)
  have hne : d1.targetCpu ≠ d0.targetCpu := by rw [hc0, hc1, cpuForCore, cpuForCore]; omega
  rcases (hmem d).mp ⟨hd, rfl⟩ with rfl | rfl
  · exact ⟨d1, h1.1, hw _ hd _ h1.1, h1.2, hne, hp0, hp1, _, hs, hs0, hs1⟩
  · exact ⟨d0, h0.1, hw _ hd _ h0.1, h0.2, hne.symm, hp1, hp0, _, hs, hs1, hs0⟩

end Window

/-! ### All windows -/

section All
variable {sortValues : IntensitySort} {df : List Row} {physicalCores : ℕ} {theta : ℚ} {topK : ℕ}

theorem mem_scheduleAll {d : Decision} :
    d ∈ (scheduleAll sortValues df physicalCores theta topK).1 ↔ ∃ k ∈ groupKeys windowKey df,
      d ∈ (scheduleWindow sortValues (rowsOf windowKey df k) physicalCores theta topK).1 := by
  simp only [scheduleAll, groupBy, List.map_map, List.flatMap_map, List.mem_flatMap,
    Function.comp_apply]

/-- The decisions of a group carry its key. -/
theorem window_of_mem (h1 : 1 ≤ physicalCores) {k : Text ×ₗ ℤ} {d : Decision}
    (hd : d ∈ (scheduleWindow sortValues (rowsOf windowKey df k) physicalCores theta topK).1) :
    d.loadType.val = some (ofLex k).1 ∧ d.windowId = (ofLex k).2 := by
  have hpl :=
    scheduleWindow_placement sortValues (rowsOf windowKey df k) physicalCores theta topK h1
  obtain ⟨r, hr, -, -, -, hl, hw⟩ := hpl.carries d hd
  have hk := (mem_rowsOf.mp hr).2
  rw [windowKey, Option.map_eq_some_iff] at hk
  obtain ⟨t, ht, rfl⟩ := hk
  exact ⟨by rw [hl, ht]; rfl, hw⟩

theorem key_of_window (h1 : 1 ≤ physicalCores) {k k' : Text ×ₗ ℤ} {d d' : Decision}
    (hd : d ∈ (scheduleWindow sortValues (rowsOf windowKey df k) physicalCores theta topK).1)
    (hd' : d' ∈ (scheduleWindow sortValues (rowsOf windowKey df k') physicalCores theta topK).1) :
    window d = window d' ↔ k = k' := by
  obtain ⟨hl, hw⟩ := window_of_mem h1 hd
  obtain ⟨hl', hw'⟩ := window_of_mem h1 hd'
  constructor
  · intro h
    rw [window, window, Prod.mk.injEq] at h
    refine ofLex_inj.mp (Prod.ext_iff.mpr ⟨?_, ?_⟩)
    · rw [h.1, hl'] at hl; exact (Option.some.inj hl).symm
    · rw [← hw, ← hw', h.2]
  · rintro rfl
    rw [window, window, Prod.mk.injEq]
    exact ⟨by ext1; rw [hl, hl'], by rw [hw, hw']⟩

/-- No two decisions have their window and their CPU in common. -/
theorem nodup_address_scheduleAll (h1 : 1 ≤ physicalCores) :
    ((scheduleAll sortValues df physicalCores theta topK).1.map address).Nodup := by
  simp only [scheduleAll, groupBy, List.map_map, List.flatMap_map, List.map_flatMap]
  rw [List.nodup_flatMap]
  constructor
  · intro k _
    have hpl :=
      scheduleWindow_placement sortValues (rowsOf windowKey df k) physicalCores theta topK h1
    refine List.Nodup.of_map Prod.snd ?_
    simpa [Function.comp_def, address] using hpl.cpu_nodup
  · refine (nodup_groupKeys windowKey df).imp fun {k k'} hne => ?_
    simp only [Function.onFun, List.disjoint_iff_ne, List.mem_map, Function.comp_apply]
    rintro _ ⟨d, hd, rfl⟩ _ ⟨d', hd', rfl⟩ h
    exact hne ((key_of_window h1 hd hd').mp (Prod.ext_iff.mp h).1)

/-- **The decisions of all windows are planned.** -/
theorem planned_scheduleAll (sortValues : IntensitySort) (df : List Row) (physicalCores : ℕ)
    (theta : ℚ) (topK : ℕ) (h1 : 1 ≤ physicalCores) :
    Planned (scheduleAll sortValues df physicalCores theta topK).1 := by
  have hpl : ∀ k, CorePlacement _ _ _ _ _ := fun k =>
    scheduleWindow_placement sortValues (rowsOf windowKey df k) physicalCores theta topK h1
  refine ⟨fun d hd => ?_, nodup_address_scheduleAll h1, fun d hd d' hd' hw => ?_,
    fun d hd hm => ?_, fun d hd hm => ?_⟩
  · obtain ⟨k, -, hd⟩ := mem_scheduleAll.mp hd
    intro h
    have := (window_of_mem h1 hd).1
    rw [h] at this
    cases this
  · obtain ⟨k, -, hd⟩ := mem_scheduleAll.mp hd
    obtain ⟨k', -, hd'⟩ := mem_scheduleAll.mp hd'
    obtain rfl := (key_of_window h1 hd hd').mp hw
    obtain ⟨hm, hr, hn⟩ := (hpl k).same d hd
    obtain ⟨hm', hr', hn'⟩ := (hpl k).same d' hd'
    exact ⟨by rw [hm, hm'], by rw [hr, hr'], by rw [hn, hn']⟩
  · obtain ⟨k, -, hd⟩ := mem_scheduleAll.mp hd
    exact even_of_ce (hpl k) hd hm
  · obtain ⟨k, hk, hd⟩ := mem_scheduleAll.mp hd
    obtain ⟨d', hd', hp⟩ := partner_of_sp (hpl k)
      (fun e he e' he' => (key_of_window h1 he' he).mpr rfl) hd hm
    exact ⟨d', mem_scheduleAll.mpr ⟨k, hk, hd'⟩, hp⟩

end All

end Magm.Planner.Windows
