import Magm.Apply.Affinity
import Magm.Predict.Input

/-! # The three readers of a thread key

`build_windows` writes load type, pid and name into one text. `parse_thread_key` splits it at its
colons, the loader looks for `pid=` and reads a number, and `build_sequences` compares it as a
whole. If a load type has neither a colon nor `pid=` in it, they all get the thread it was made of,
whatever the name is (`threadKey_identity`). -/

namespace Magm.Apply.Identity

open Magm.Lib.Chars Magm.Lib.Stdio Magm.Lib.PyStr Magm.Lib.Sorting Magm.Lib.GroupBy
open Magm.Table.Cells Magm.Table.Names Magm.Features.Dataset Magm.Features.ThreadWindows
open Magm.Features.Normalize Magm.Scx.Loader Magm.Predict.Sequences Magm.Predict.Input
open Magm.Apply.Affinity

/-- A load type that no reader takes for more than that. -/
structure Plain (loadType : Text) : Prop where
  noColon : ':' ∉ loadType
  noPid : ¬ "pid=".toList <:+: loadType

/-! ### The loader -/

section Loader
variable {loadType : Text} (h : Plain loadType) {pid : ℕ} (hlt : pid < 2 ^ 31) (name : Text)
include h hlt

/-- **The loader** finds the pid behind the first `pid=`. -/
theorem tidOf_threadKeyText : tidOf (threadKeyText loadType pid name) = some (pid : ℤ) := by
  unfold tidOf
  rw [afterFirst_threadKeyText h.noPid, Option.bind_some, dec_natCast]
  exact parseInt_decNat hlt (by simp)

/-- A NUL in the name hides the rest of the name only. -/
theorem tidOf_cString (hnul : '\x00' ∉ loadType) :
    tidOf (cString (threadKeyText loadType pid name)) = some (pid : ℤ) := by
  have hfront : '\x00' ∉ loadType ++ ":pid=".toList ++ dec (pid : ℤ) ++ [':'] := by
    intro hc
    rw [dec_natCast] at hc
    simp only [List.mem_append] at hc
    rcases hc with ((hc | hc) | hc) | hc
    · exact hnul hc
    · exact absurd hc (by decide)
    · exact absurd (isDigit_of_mem_decNat hc) (by decide)
    · exact absurd hc (by decide)
  have hkey : ∀ t : Text, threadKeyText loadType pid t =
      loadType ++ ":pid=".toList ++ dec (pid : ℤ) ++ [':'] ++ t := by
    intro t
    rw [threadKeyText, List.append_assoc _ [':'] t]
    rfl
  rw [hkey, cString_append, if_neg hfront, ← hkey]
  exact tidOf_threadKeyText h hlt _

end Loader

/-! ### The predictor -/

/-- **A key is of one thread.** -/
theorem threadKeyText_identity {loadType loadType' name name' : Text} {pid pid' : ℤ}
    (h : Plain loadType) (h' : Plain loadType')
    (heq : threadKeyText loadType pid name = threadKeyText loadType' pid' name') :
    loadType = loadType' ∧ pid = pid' ∧ name = name' := by
  obtain rfl := loadType_of_threadKeyText h.noPid h'.noPid heq
  exact ⟨rfl, threadKeyText_inj.mp heq⟩

/-- A window of the table is of the thread. -/
def OfThread (loadType : Text) (pid : ℤ) (name : Text) (n : NormWindow) : Prop :=
  n.window.sum.loadType = loadType ∧ n.window.sum.pid = pid ∧ n.window.sum.thread = name

section Table
variable {df : List DataRow} {windowNs : ℤ} (hplain : ∀ r ∈ df, Plain r.loadType)
include hplain

theorem ofThread_of_key {n n' : NormWindow} (hn : n ∈ (buildWindows df windowNs).norm)
    (hn' : n' ∈ (buildWindows df windowNs).norm) (hkey : threadOf (readWindow n) =
      threadOf (readWindow n')) :
    OfThread n.window.sum.loadType n.window.sum.pid n.window.sum.thread n' := by
  have hsum : ∀ {m : NormWindow}, m ∈ (buildWindows df windowNs).norm →
      Plain m.window.sum.loadType ∧ (readWindow m).threadKey.val =
        some (threadKeyText m.window.sum.loadType m.window.sum.pid m.window.sum.thread) := by
    intro m hm
    obtain ⟨t, ht, rfl⟩ := List.mem_map.mp hm
    have hof := mem_aggregate (mem_rawWindows ht).1
    obtain ⟨r, hr, hgroup⟩ := hof.row
    have hload : r.loadType = t.sum.loadType := congrArg Group.loadType hgroup
    refine ⟨hload ▸ hplain r hr, ?_⟩
    rw [← hof.threadKey]
    refine Cell.ofCsv_of_notMem ?_
    rw [hof.threadKey]
    exact threadKeyText_read _ _ _
  obtain ⟨hp, hval⟩ := hsum hn
  obtain ⟨hp', hval'⟩ := hsum hn'
  rw [threadOf, threadOf, hval, hval', Option.some_inj] at hkey
  obtain ⟨hl, hpid, hname⟩ := threadKeyText_identity hp hp' hkey
  exact ⟨hl.symm, hpid.symm, hname.symm⟩

/-- **No group of `build_sequences` has windows of two threads.** -/
theorem group_ofThread {g : Text × List WindowRow}
    (hg : g ∈ groupByFirst threadOf (sortBy WindowRow.sortCols (readWindows df windowNs))) :
    ∃ loadType pid name, ∀ w ∈ g.2, ∃ n ∈ (buildWindows df windowNs).norm,
      readWindow n = w ∧ OfThread loadType pid name n := by
  obtain ⟨k, -, rfl⟩ := List.mem_map.mp hg
  have hrow : ∀ w ∈ rowsOf threadOf (sortBy WindowRow.sortCols (readWindows df windowNs)) k,
      ∃ n ∈ (buildWindows df windowNs).norm, readWindow n = w ∧ threadOf w = some k := by
    intro w hw
    obtain ⟨hmem, hkey⟩ := mem_rowsOf.mp hw
    obtain ⟨n, hn, hread⟩ := List.mem_map.mp ((mem_sortBy _ _).mp hmem)
    exact ⟨n, hn, hread, hkey⟩
  rcases hrows : rowsOf threadOf (sortBy WindowRow.sortCols (readWindows df windowNs)) k with
    _ | ⟨w₀, ws⟩
  · exact ⟨[], 0, [], fun w hw => absurd hw List.not_mem_nil⟩
  · rw [hrows] at hrow
    obtain ⟨n₀, hn₀, rfl, hkey₀⟩ := hrow w₀ List.mem_cons_self
    refine ⟨n₀.window.sum.loadType, n₀.window.sum.pid, n₀.window.sum.thread, fun w hw => ?_⟩
    obtain ⟨n, hn, rfl, hkey⟩ := hrow w hw
    exact ⟨n, hn, rfl, ofThread_of_key hplain hn₀ hn (hkey₀.trans hkey.symm)⟩

end Table

/-- **A thread key is an identity for its three readers.** For a load type without a colon and
without `pid=`, the executor reads pid and name back from the key, and the loader the pid, also from
the C string of the key, as no directory is named with a NUL. Two keys are equal only if load type,
pid and name are, so that every group of `build_sequences` is of one thread. -/
theorem threadKey_identity :
    (∀ (loadType : Text) (pid : ℕ) (name : Text), Plain loadType → pid < 2 ^ 31 →
      parseThreadKey (Cell.ofCsv (threadKeyText loadType pid name)) = (some (pid : ℤ), name) ∧
      tidOf (threadKeyText loadType pid name) = some (pid : ℤ) ∧
      ('\x00' ∉ loadType →
        tidOf (cString (threadKeyText loadType pid name)) = some (pid : ℤ))) ∧
    (∀ (loadType loadType' : Text) (pid pid' : ℤ) (name name' : Text), Plain loadType →
      Plain loadType' → threadKeyText loadType pid name = threadKeyText loadType' pid' name' →
        loadType = loadType' ∧ pid = pid' ∧ name = name') ∧
    ∀ (df : List DataRow) (windowNs : ℤ), (∀ r ∈ df, Plain r.loadType) →
      ∀ g ∈ groupByFirst threadOf (sortBy WindowRow.sortCols (readWindows df windowNs)),
        ∃ loadType pid name, ∀ w ∈ g.2, ∃ n ∈ (buildWindows df windowNs).norm,
          readWindow n = w ∧ OfThread loadType pid name n :=
  ⟨fun _ pid name h hlt =>
      ⟨parseThreadKey_text h.noColon pid name (Cell.ofCsv_of_notMem (threadKeyText_read _ _ _)),
        tidOf_threadKeyText h hlt name, tidOf_cString h hlt name⟩,
    fun _ _ _ _ _ _ h h' heq => threadKeyText_identity h h' heq,
    fun _ _ hplain _ hg => group_ofThread hplain hg⟩

/-- A name with all delimiters of the key in it. -/
theorem threadKey_identity_kworker :
    parseThreadKey (Cell.ofCsv (threadKeyText "cpu".toList 42 "kworker/0:1 pid=7".toList)) =
        (some (42 : ℤ), "kworker/0:1 pid=7".toList) ∧
      tidOf (threadKeyText "cpu".toList 42 "kworker/0:1 pid=7".toList) = some (42 : ℤ) := by
  obtain ⟨hparse, htid, -⟩ := threadKey_identity.1 "cpu".toList 42 "kworker/0:1 pid=7".toList
    ⟨by decide, by decide⟩ (by decide)
  exact ⟨hparse, htid⟩

end Magm.Apply.Identity
