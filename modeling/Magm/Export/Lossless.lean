import Magm.Export.Selection

/-! # The exporter loses and invents nothing

The tables of a planned schedule (`Planner.Windows.Planned`) hold every decision exactly once:
the rows of `core_pairs` are the used cores, and a slot shows the thread of the one decision
that has its CPU. `iloc[0]` is harmless because no two decisions of a window share a CPU. -/

namespace Magm.Export.Lossless

open Magm.Lib.Chars Magm.Lib.Sorting Magm.Lib.GroupBy Magm.Table.Cells
open Magm.Planner.Score Magm.Planner.Schedule Magm.Planner.Placement Magm.Planner.Windows
open Magm.Export.Selection

/-- The core a row of `core_pairs` is about. -/
def pairKey (p : CorePair) : Text × ℤ × ℕ := (p.loadType, p.windowId, p.physicalCore)

/-- The thread shown in slot `s`. -/
def CorePair.slot (p : CorePair) (s : ℕ) : Text := if s = 0 then p.slot0Thread else p.slot1Thread

/-- The decision puts its thread on sibling `s` of the core of the row. -/
structure At (d : Decision) (p : CorePair) (s : ℕ) : Prop where
  load : d.loadType.val = some p.loadType
  window : d.windowId = p.windowId
  cpu : d.targetCpu = cpuForCore p.physicalCore s

/-- **Faithful tables** of a schedule. -/
structure Faithful (schedule : List Decision) (t : Tables) : Prop where
  selection_perm : t.selection.Perm (schedule.map shown)
  decode : ∀ r ∈ t.selection, cpuForCore r.physicalCore r.smtSlot = r.targetCpu ∧ r.smtSlot < 2
  pairs_nodup : (t.corePairs.map pairKey).Nodup
  pairs_used : ∀ L w c, (∃ p ∈ t.corePairs, pairKey p = (L, w, c)) ↔
    ∃ d ∈ schedule, d.loadType.val = some L ∧ d.windowId = w ∧ d.targetCpu / 2 = c
  cpus : ∀ p ∈ t.corePairs, p.cpuSlot0 = cpuForCore p.physicalCore 0 ∧
    p.cpuSlot1 = cpuForCore p.physicalCore 1
  slot_some : ∀ p ∈ t.corePairs, ∀ s < 2, ∀ d ∈ schedule, At d p s →
    CorePair.slot p s = threadLabel d.thread d.pid
  slot_none : ∀ p ∈ t.corePairs, ∀ s < 2, CorePair.slot p s = [] ↔ ∀ d ∈ schedule, ¬ At d p s
  once : ∀ d ∈ schedule, ∃! q : CorePair × ℕ, q.1 ∈ t.corePairs ∧ q.2 < 2 ∧ At d q.1 q.2
  sp : ∀ p ∈ t.corePairs, p.mode = .SP → ∃ d0 ∈ schedule, ∃ d1 ∈ schedule, At d0 p 0 ∧ At d1 p 1 ∧
    d0.pairedWith = some d1.threadKey ∧ d1.pairedWith = some d0.threadKey ∧
    ∃ s, d0.score = some s ∧ d1.score = some s ∧ p.score = some s
  ce : ∀ p ∈ t.corePairs, p.mode = .CE → p.slot1Thread = [] ∧ p.score = none
  final : t.finalView = t.selection.filter fun r =>
    ∀ r' ∈ t.selection, r'.loadType = r.loadType → r'.windowId ≤ r.windowId

/-! ### The rows of `core_pairs` -/

section Pairs
variable {schedule : List Decision} {k : Text ×ₗ ℤ ×ₗ ℕ} {p : CorePair}

theorem threadLabel_ne_nil (c : Cell) (pid : ℤ) : threadLabel c pid ≠ [] := by
  unfold threadLabel; simp

/-- What a row of `core_pairs` is: the group of its core, with the columns of a first decision. -/
structure RowOf (schedule : List Decision) (p : CorePair) (grp : List SelectionRow) : Prop where
  mem : ∀ r, r ∈ grp ↔ ∃ d ∈ schedule, shown d = r ∧ d.loadType.val = some p.loadType ∧
    d.windowId = p.windowId ∧ d.targetCpu / 2 = p.physicalCore
  first : ∃ d ∈ schedule, d.loadType.val = some p.loadType ∧ d.windowId = p.windowId ∧
    d.targetCpu / 2 = p.physicalCore ∧ p.mode = d.mode
  slot : ∀ s, s < 2 → CorePair.slot p s = slotThread grp s
  score : p.score = (grp.filterMap SelectionRow.score).head?
  cpus : p.cpuSlot0 = cpuForCore p.physicalCore 0 ∧ p.cpuSlot1 = cpuForCore p.physicalCore 1

theorem coreKey_shown {d : Decision} {L : Text} {w : ℤ} {c : ℕ} :
    coreKey (shown d) = some (toLex (L, toLex (w, c))) ↔
      d.loadType.val = some L ∧ d.windowId = w ∧ d.targetCpu / 2 = c := by
  simp only [coreKey, shown, Option.map_eq_some_iff]
  constructor
  · rintro ⟨t, ht, h⟩
    simp only [toLex_inj, Prod.mk.injEq] at h
    obtain ⟨rfl, rfl, rfl⟩ := h
    exact ⟨ht, rfl, rfl⟩
  · rintro ⟨hL, rfl, rfl⟩
    exact ⟨L, hL, rfl⟩

theorem corePair_key {grp : List SelectionRow} (h : corePair k grp = some p) :
    k = toLex (p.loadType, toLex (p.windowId, p.physicalCore)) := by
  rw [corePair, Option.map_eq_some_iff] at h
  obtain ⟨r, -, rfl⟩ := h
  rfl

theorem rowOf_corePair (h : corePair k (rowsOf coreKey (selectionOf schedule) k) = some p) :
    RowOf schedule p (rowsOf coreKey (selectionOf schedule) k) := by
  have hk := corePair_key h
  have hmem : ∀ r, r ∈ rowsOf coreKey (selectionOf schedule) k ↔ ∃ d ∈ schedule, shown d = r ∧
      d.loadType.val = some p.loadType ∧ d.windowId = p.windowId ∧
      d.targetCpu / 2 = p.physicalCore := by
    intro r
    rw [mem_rowsOf, mem_selectionOf, hk]
    constructor
    · rintro ⟨⟨d, hd, rfl⟩, hc⟩; exact ⟨d, hd, rfl, coreKey_shown.mp hc⟩
    · rintro ⟨d, hd, rfl, hc⟩; exact ⟨⟨d, hd, rfl⟩, coreKey_shown.mpr hc⟩
  rw [corePair, Option.map_eq_some_iff] at h
  obtain ⟨r, hr, rfl⟩ := h
  refine ⟨hmem, ?_, fun s hs => ?_, rfl, rfl, rfl⟩
  · obtain ⟨d, hd, rfl, hL, hw, hc⟩ := (hmem r).mp (List.mem_of_mem_head? hr)
    exact ⟨d, hd, hL, hw, hc, rfl⟩
  · have hs' : s = 0 ∨ s = 1 := by omega
    rcases hs' with rfl | rfl <;> rfl

/-- Two decisions with one address are one decision. -/
theorem eq_of_at (hp : Planned schedule) {d d' : Decision} (hd : d ∈ schedule) (hd' : d' ∈ schedule)
    {s : ℕ} (h : At d p s) (h' : At d' p s) : d = d' := by
  refine List.inj_on_of_nodup_map hp.address_nodup hd hd' ?_
  simp only [address, window, Prod.mk.injEq]
  exact ⟨⟨by ext1; rw [h.load, h'.load], by rw [h.window, h'.window]⟩, by rw [h.cpu, h'.cpu]⟩

theorem cpuForCore_div_mod {c cpu s : ℕ} (hs : s < 2) :
    cpu = cpuForCore c s ↔ cpu / 2 = c ∧ cpu % 2 = s := by
  unfold cpuForCore; omega

variable {grp : List SelectionRow}

/-- A slot holds the rows of the decisions with its CPU. -/
theorem mem_slot (hr : RowOf schedule p grp) {s : ℕ} (hs : s < 2) {r : SelectionRow} :
    r ∈ grp.filter (fun r => r.smtSlot = s) ↔ ∃ d ∈ schedule, shown d = r ∧ At d p s := by
  rw [List.mem_filter, hr.mem, decide_eq_true_eq]
  constructor
  · rintro ⟨⟨d, hd, rfl, hL, hw, hc⟩, hslot⟩
    exact ⟨d, hd, rfl, hL, hw, (cpuForCore_div_mod hs).mpr ⟨hc, hslot⟩⟩
  · rintro ⟨d, hd, rfl, hL, hw, hcpu⟩
    obtain ⟨hc, hslot⟩ := (cpuForCore_div_mod hs).mp hcpu
    exact ⟨⟨d, hd, rfl, hL, hw, hc⟩, hslot⟩

theorem slot_eq_label (hp : Planned schedule) (hr : RowOf schedule p grp) {s : ℕ} (hs : s < 2)
    {d : Decision} (hd : d ∈ schedule) (h : At d p s) :
    CorePair.slot p s = threadLabel d.thread d.pid := by
  have hmem := (mem_slot hr hs).mpr ⟨d, hd, rfl, h⟩
  obtain ⟨r, l, hl⟩ := List.exists_cons_of_ne_nil (List.ne_nil_of_mem hmem)
  obtain ⟨d', hd', rfl, h'⟩ := (mem_slot hr hs).mp (hl ▸ List.mem_cons_self)
  rw [hr.slot s hs, slotThread, hl, eq_of_at hp hd hd' h h']
  rfl

theorem slot_eq_nil_iff (hp : Planned schedule) (hr : RowOf schedule p grp) {s : ℕ} (hs : s < 2) :
    CorePair.slot p s = [] ↔ ∀ d ∈ schedule, ¬ At d p s := by
  constructor
  · intro h d hd hat
    rw [slot_eq_label hp hr hs hd hat] at h
    exact threadLabel_ne_nil _ _ h
  · intro h
    have hnil : grp.filter (fun r => r.smtSlot = s) = [] := by
      rw [List.eq_nil_iff_forall_not_mem]
      intro r hmem
      obtain ⟨d, hd, -, hat⟩ := (mem_slot hr hs).mp hmem
      exact h d hd hat
    rw [hr.slot s hs, slotThread, hnil]
    rfl

/-- The sibling a decision uses. -/
theorem at_mod {d : Decision} (hL : d.loadType.val = some p.loadType) (hw : d.windowId = p.windowId)
    (hc : d.targetCpu / 2 = p.physicalCore) : At d p (d.targetCpu % 2) :=
  ⟨hL, hw, (cpuForCore_div_mod (Nat.mod_lt _ (by decide))).mpr ⟨hc, rfl⟩⟩

theorem window_eq {d d' : Decision} (hL : d.loadType.val = some p.loadType)
    (hw : d.windowId = p.windowId) (hL' : d'.loadType.val = some p.loadType)
    (hw' : d'.windowId = p.windowId) : window d = window d' :=
  Prod.ext (by ext1; simp only [window, hL, hL']) (by simp only [window, hw, hw'])

/-- The score of a row is the common score of its group. -/
theorem RowOf.score_eq (hr : RowOf schedule p grp) (hne : grp ≠ []) {s : ℚ}
    (hall : ∀ r ∈ grp, r.score = some s) : p.score = some s := by
  obtain ⟨r, l, hl⟩ := List.exists_cons_of_ne_nil hne
  have h0 := hall r (by rw [hl]; simp)
  rw [hr.score, hl, List.filterMap_cons_some h0]
  rfl

theorem sp_row (hp : Planned schedule) (hr : RowOf schedule p grp) (hm : p.mode = .SP) :
    ∃ d0 ∈ schedule, ∃ d1 ∈ schedule, At d0 p 0 ∧ At d1 p 1 ∧
      d0.pairedWith = some d1.threadKey ∧ d1.pairedWith = some d0.threadKey ∧
      ∃ s, d0.score = some s ∧ d1.score = some s ∧ p.score = some s := by
  obtain ⟨d, hd, hL, hw, hc, hmode⟩ := hr.first
  obtain ⟨d', hd', hpart⟩ := hp.sp d hd (hmode ▸ hm)
  obtain ⟨s, -, hs, hs'⟩ := hpart.score
  obtain ⟨hwl, hww⟩ := Prod.ext_iff.mp hpart.window
  have hat := at_mod hL hw hc
  have hat' : At d' p (d'.targetCpu % 2) :=
    at_mod (by rw [← hL]; exact congrArg Cell.val hwl) (by rw [← hw]; exact hww)
      (by rw [← hc]; exact hpart.core)
  have hcore := hpart.core
  have hother := hpart.other
  have hscore : p.score = some s := by
    refine hr.score_eq (List.ne_nil_of_mem ((hr.mem (shown d)).mpr ⟨d, hd, rfl, hL, hw, hc⟩)) ?_
    intro r hmem
    obtain ⟨e, he, rfl, heL, hew, hec⟩ := (hr.mem r).mp hmem
    have hate := at_mod heL hew hec
    have hcpu : e.targetCpu % 2 = d.targetCpu % 2 ∨ e.targetCpu % 2 = d'.targetCpu % 2 := by omega
    rcases hcpu with hcpu | hcpu <;> rw [hcpu] at hate
    · rw [eq_of_at hp he hd hate hat]; exact hs
    · rw [eq_of_at hp he hd' hate hat']; exact hs'
  have hmod : d.targetCpu % 2 = 0 ∧ d'.targetCpu % 2 = 1 ∨
      d.targetCpu % 2 = 1 ∧ d'.targetCpu % 2 = 0 := by omega
  rcases hmod with ⟨h0, h1⟩ | ⟨h1, h0⟩
  · rw [h0] at hat; rw [h1] at hat'
    exact ⟨d, hd, d', hd', hat, hat', hpart.named, hpart.names, s, hs, hs', hscore⟩
  · rw [h1] at hat; rw [h0] at hat'
    exact ⟨d', hd', d, hd, hat', hat, hpart.names, hpart.named, s, hs', hs, hscore⟩

theorem ce_row (hp : Planned schedule) (hr : RowOf schedule p grp) (hm : p.mode = .CE) :
    p.slot1Thread = [] ∧ p.score = none := by
  obtain ⟨d, hd, hL, hw, hc, hmode⟩ := hr.first
  have hall : ∀ e ∈ schedule, e.loadType.val = some p.loadType → e.windowId = p.windowId →
      e.targetCpu % 2 = 0 ∧ e.pairedWith = none ∧ e.score = none := by
    intro e he heL hew
    refine hp.ce e he ?_
    rw [(hp.mode e he d hd (window_eq heL hew hL hw)).1, ← hmode, hm]
  constructor
  · refine (slot_eq_nil_iff hp hr (s := 1) (by decide)).mpr fun e he hat => ?_
    have h0 := (hall e he hat.load hat.window).1
    have h1 := hat.cpu
    rw [cpuForCore] at h1
    omega
  · have hnil : grp.filterMap SelectionRow.score = [] := by
      rw [List.filterMap_eq_nil_iff]
      intro r hmem
      obtain ⟨e, he, rfl, heL, hew, -⟩ := (hr.mem r).mp hmem
      exact (hall e he heL hew).2.2
    rw [hr.score, hnil]; rfl

end Pairs

/-! ### The final view -/

section Final
variable {selection : List SelectionRow}

theorem nodup_latestKeys : (latestKeys selection).Nodup := by
  refine List.Nodup.of_map Prod.fst ?_
  have hsub : ((latestKeys selection).map Prod.fst).Sublist
      ((groupBy (fun r : SelectionRow => r.loadType.val) selection).map Prod.fst) := by
    rw [latestKeys, List.map_filterMap]
    generalize groupBy (fun r : SelectionRow => r.loadType.val) selection = gs
    induction gs with
    | nil => simp
    | cons g gs ih =>
      rcases h : (g.2.map SelectionRow.windowId).max? with _ | m
      · rw [List.filterMap_cons_none (by simp [h])]
        exact ih.cons _
      · rw [List.filterMap_cons_some (b := g.1) (by simp [h])]
        exact ih.cons_cons _
  exact hsub.nodup (nodup_fst_groupBy _ _)

theorem mem_latestKeys {L : Text} {w : ℤ} : (L, w) ∈ latestKeys selection ↔
    (∃ r ∈ selection, r.loadType.val = some L ∧ r.windowId = w) ∧
      ∀ r ∈ selection, r.loadType.val = some L → r.windowId ≤ w := by
  simp only [latestKeys, List.mem_filterMap, Option.map_eq_some_iff]
  constructor
  · rintro ⟨g, hg, m, hm, he⟩
    obtain ⟨rfl, rfl⟩ := Prod.mk.inj he
    rw [(mem_groupBy.mp hg).2, List.max?_eq_some_iff] at hm
    simp only [List.mem_map, mem_rowsOf] at hm
    obtain ⟨⟨r, hr, hw⟩, hle⟩ := hm
    exact ⟨⟨r, hr.1, hr.2, hw⟩, fun r' hr' hL => hle _ ⟨r', ⟨hr', hL⟩, rfl⟩⟩
  · rintro ⟨⟨r, hr, hL, hw⟩, hle⟩
    refine ⟨(L, rowsOf (fun r : SelectionRow => r.loadType.val) selection L),
      mem_groupBy.mpr ⟨⟨r, hr, hL⟩, rfl⟩, w, ?_, rfl⟩
    rw [List.max?_eq_some_iff]
    simp only [List.mem_map, mem_rowsOf]
    refine ⟨⟨r, ⟨hr, hL⟩, hw⟩, ?_⟩
    rintro _ ⟨r', hr', rfl⟩
    exact hle r' hr'.1 hr'.2

/-- A row matches its load type's latest key exactly when it belongs to the newest window. -/
theorem latest_matches (hload : ∀ r ∈ selection, r.loadType ≠ Cell.missing) {r : SelectionRow}
    (hr : r ∈ selection) :
    (((latestKeys selection).filter fun k => r.loadType.val = some k.1 ∧ r.windowId = k.2).map
        fun _ => r) =
      if ∀ r' ∈ selection, r'.loadType = r.loadType → r'.windowId ≤ r.windowId then [r]
      else [] := by
  obtain ⟨L, hL⟩ : ∃ L, r.loadType.val = some L := by
    refine Option.ne_none_iff_exists'.mp fun h => hload r hr ?_
    ext1; exact h
  have hf : (latestKeys selection).filter (fun k => r.loadType.val = some k.1 ∧ r.windowId = k.2) =
      (latestKeys selection).filter (· = (L, r.windowId)) := by
    refine List.filter_congr fun k _ => ?_
    rw [decide_eq_decide, hL, Option.some_inj, Prod.ext_iff]
    exact ⟨fun h => ⟨h.1.symm, h.2.symm⟩, fun h => ⟨h.1.symm, h.2.symm⟩⟩
  have hmem : (L, r.windowId) ∈ latestKeys selection ↔
      ∀ r' ∈ selection, r'.loadType = r.loadType → r'.windowId ≤ r.windowId := by
    rw [mem_latestKeys]
    constructor
    · intro h r' hr' he
      exact h.2 r' hr' (by rw [he, hL])
    · intro h
      exact ⟨⟨r, hr, hL, rfl⟩, fun r' hr' he => h r' hr' (by ext1; rw [he, hL])⟩
  rw [hf, List.filter_eq, List.map_replicate]
  split_ifs with h
  · rw [List.count_eq_one_of_mem nodup_latestKeys (hmem.mpr h)]; rfl
  · rw [List.count_eq_zero_of_not_mem fun hm => h (hmem.mp hm)]; rfl

theorem finalView_eq (hload : ∀ r ∈ selection, r.loadType ≠ Cell.missing) :
    finalView selection = selection.filter fun r =>
      ∀ r' ∈ selection, r'.loadType = r.loadType → r'.windowId ≤ r.windowId := by
  have h : ∀ l : List SelectionRow, l ⊆ selection →
      (l.flatMap fun r => ((latestKeys selection).filter fun k =>
        r.loadType.val = some k.1 ∧ r.windowId = k.2).map fun _ => r) =
      l.filter fun r => ∀ r' ∈ selection, r'.loadType = r.loadType → r'.windowId ≤ r.windowId := by
    intro l hl
    induction l with
    | nil => rfl
    | cons r l ih =>
      rw [List.flatMap_cons, latest_matches hload (hl (by simp)),
        ih fun x hx => hl (by simp [hx]), List.filter_cons]
      simp only [decide_eq_true_eq]
      split_ifs <;> rfl
  exact h selection (List.Subset.refl _)

end Final

/-! ### The tables of a planned schedule -/

section Export
variable {schedule : List Decision} {ps : List CorePair}

/-- `ps` are the rows of the groups. -/
def PairsOf (schedule : List Decision) (ps : List CorePair) : Prop :=
  (groupBy coreKey (selectionOf schedule)).map (fun g => corePair g.1 g.2) = ps.map some

theorem mem_pairs_iff (h : PairsOf schedule ps) {p : CorePair} :
    p ∈ ps ↔ ∃ k, (∃ r ∈ selectionOf schedule, coreKey r = some k) ∧
      corePair k (rowsOf coreKey (selectionOf schedule) k) = some p := by
  have hsome : some p ∈ ps.map some ↔ p ∈ ps := by simp
  rw [← hsome, ← h, List.mem_map]
  constructor
  · rintro ⟨g, hg, hpg⟩
    obtain ⟨hk, hrows⟩ := mem_groupBy.mp hg
    exact ⟨g.1, hk, by rw [← hrows, hpg]⟩
  · rintro ⟨k, hk, hpk⟩
    exact ⟨(k, _), mem_groupBy.mpr ⟨hk, rfl⟩, hpk⟩

theorem exists_rowOf (h : PairsOf schedule ps) : ∀ p ∈ ps, ∃ grp, RowOf schedule p grp := by
  intro p hps
  obtain ⟨k, -, hk⟩ := (mem_pairs_iff h).mp hps
  exact ⟨_, rowOf_corePair hk⟩

/-- There is a row for every core that is used, and for no other. -/
theorem pairs_used_iff (h : PairsOf schedule ps) {L : Text} {w : ℤ} {c : ℕ} :
    (∃ p ∈ ps, pairKey p = (L, w, c)) ↔
      ∃ d ∈ schedule, d.loadType.val = some L ∧ d.windowId = w ∧ d.targetCpu / 2 = c := by
  constructor
  · rintro ⟨p, hps, hkey⟩
    obtain ⟨grp, hr⟩ := exists_rowOf h p hps
    obtain ⟨d, hd, hL, hw, hc, -⟩ := hr.first
    simp only [pairKey, Prod.mk.injEq] at hkey
    obtain ⟨rfl, rfl, rfl⟩ := hkey
    exact ⟨d, hd, hL, hw, hc⟩
  · rintro ⟨d, hd, hk⟩
    have hg : ((toLex (L, toLex (w, c)) : Text ×ₗ ℤ ×ₗ ℕ),
        rowsOf coreKey (selectionOf schedule) (toLex (L, toLex (w, c)))) ∈
        groupBy coreKey (selectionOf schedule) :=
      mem_groupBy.mpr ⟨⟨shown d, mem_selectionOf.mpr ⟨d, hd, rfl⟩, coreKey_shown.mpr hk⟩, rfl⟩
    obtain ⟨p, hpk⟩ := corePair_groupBy hg
    refine ⟨p, (mem_pairs_iff h).mpr ⟨_, (mem_groupBy.mp hg).1, hpk⟩, ?_⟩
    have hkey := corePair_key hpk
    simp only [toLex_inj, Prod.mk.injEq] at hkey
    obtain ⟨rfl, rfl, rfl⟩ := hkey
    rfl

/-- Rows come in the order of their groups. -/
theorem map_fst_groups : ∀ {gs : List ((Text ×ₗ ℤ ×ₗ ℕ) × List SelectionRow)}
    {ps : List CorePair}, gs.map (fun g => corePair g.1 g.2) = ps.map some →
      gs.map Prod.fst = ps.map fun p => toLex (p.loadType, toLex (p.windowId, p.physicalCore))
  | [], [], _ => rfl
  | [], _ :: _, h => by simp at h
  | _ :: _, [], h => by simp at h
  | g :: gs, p :: ps, h => by
    rw [List.map_cons, List.map_cons, List.cons.injEq] at h
    rw [List.map_cons, List.map_cons, corePair_key h.1, map_fst_groups h.2]

theorem nodup_pairKey (h : PairsOf schedule ps) : (ps.map pairKey).Nodup := by
  have hn := nodup_fst_groupBy coreKey (selectionOf schedule)
  rw [map_fst_groups h] at hn
  refine List.Nodup.of_map (fun q => (toLex (q.1, toLex q.2) : Text ×ₗ ℤ ×ₗ ℕ)) ?_
  rwa [List.map_map]

/-- **A decision is shown in one slot of one row.** -/
theorem existsUnique_slot (hp : Planned schedule) (h : PairsOf schedule ps) {d : Decision}
    (hd : d ∈ schedule) :
    ∃! q : CorePair × ℕ, q.1 ∈ ps ∧ q.2 < 2 ∧ At d q.1 q.2 := by
  obtain ⟨L, hL⟩ : ∃ L, d.loadType.val = some L :=
    Option.ne_none_iff_exists'.mp fun hnone => hp.load d hd (by ext1; exact hnone)
  obtain ⟨p, hps, hkey⟩ := (pairs_used_iff h).mpr ⟨d, hd, hL, rfl, rfl⟩
  have hk := hkey
  simp only [pairKey, Prod.mk.injEq] at hk
  obtain ⟨h1, h2, h3⟩ := hk
  refine ⟨(p, d.targetCpu % 2), ⟨hps, Nat.mod_lt _ (by decide),
    at_mod (by rw [h1]; exact hL) h2.symm h3.symm⟩, ?_⟩
  rintro ⟨p', s⟩ ⟨hps', hs, hat⟩
  obtain ⟨hc, hmod⟩ := (cpuForCore_div_mod hs).mp hat.cpu
  have hload : p'.loadType = L := Option.some.inj (hat.load.symm.trans hL)
  have hpp : p' = p := by
    refine List.inj_on_of_nodup_map (nodup_pairKey h) hps' hps ?_
    rw [hkey, pairKey, hload, ← hat.window, ← hc]
  simp only at hmod
  rw [hpp, hmod]

/-- **The tables of a planned schedule are faithful.** -/
theorem faithful_export (hp : Planned schedule) (hne : schedule ≠ []) :
    ∃ t, exportCpuSelection schedule = some t ∧ Faithful schedule t := by
  obtain ⟨ps, hexp, h⟩ := exportCpuSelection_eq hne
  have hload : ∀ r ∈ selectionOf schedule, r.loadType ≠ Cell.missing := by
    intro r hr
    obtain ⟨d, hd, rfl⟩ := mem_selectionOf.mp hr
    exact hp.load d hd
  have hrow := exists_rowOf h
  refine ⟨_, hexp,
    { selection_perm := sortBy_perm _ _
      decode := fun r hr => ?_
      pairs_nodup := nodup_pairKey h
      pairs_used := fun L w c => pairs_used_iff h
      cpus := fun p hps => (hrow p hps).elim fun grp hr => hr.cpus
      slot_some := fun p hps s hs d hd hat =>
        (hrow p hps).elim fun grp hr => slot_eq_label hp hr hs hd hat
      slot_none := fun p hps s hs => (hrow p hps).elim fun grp hr => slot_eq_nil_iff hp hr hs
      once := fun d hd => existsUnique_slot hp h hd
      sp := fun p hps hm => (hrow p hps).elim fun grp hr => sp_row hp hr hm
      ce := fun p hps hm => (hrow p hps).elim fun grp hr => ce_row hp hr hm
      final := finalView_eq hload }⟩
  obtain ⟨d, -, rfl⟩ := mem_selectionOf.mp hr
  simp only [shown, cpuForCore]
  omega

end Export

/-- **Export loses and invents nothing**: for every prediction table, the tables of its schedule are
faithful. -/
theorem export_scheduleAll (sortValues : IntensitySort) (df : List Row) (physicalCores : ℕ)
    (theta : ℚ) (topK : ℕ) (h1 : 1 ≤ physicalCores)
    (hne : (scheduleAll sortValues df physicalCores theta topK).1 ≠ []) :
    ∃ t, exportCpuSelection (scheduleAll sortValues df physicalCores theta topK).1 = some t ∧
      Faithful (scheduleAll sortValues df physicalCores theta topK).1 t :=
  faithful_export (planned_scheduleAll sortValues df physicalCores theta topK h1) hne

theorem export_scheduleAll_threeRows :
    ∃ t, exportCpuSelection (scheduleAll intensitySort threeRows 1 (3 / 5) 32).1 = some t ∧
      Faithful (scheduleAll intensitySort threeRows 1 (3 / 5) 32).1 t :=
  export_scheduleAll intensitySort threeRows 1 (3 / 5) 32 (by decide)
    (List.ne_nil_of_length_pos (by decide +kernel))

end Magm.Export.Lossless
